/-
What makes a layout lawful: it writes exactly the values that fit, it reads
back what it wrote whatever follows, and it reads nothing else.  Every part
from which layouts are built keeps the law.
-/
import Mathlib.Tactic.Ring
import SessionRaft.Wire.Layout

namespace SessionRaft

/-- A list whose length fits the field in front of it. -/
def IsShort {α : Type} (values : List α) : Prop := values.length < capacity 4

namespace Layout

variable {α β : Type}

/-- A layout writes the values that fit and no others, and reads exactly what
it writes. -/
structure Lawful (layout : Layout α) (fits : α → Prop) : Prop where
  writes : ∀ value, (∃ front, layout.encode value = .ok front) ↔ fits value
  reads : ∀ value front rest, layout.encode value = .ok front →
    layout.decode (front ++ rest) = .ok (value, rest)
  exact : ∀ input value rest, layout.decode input = .ok (value, rest) →
    ∃ front, layout.encode value = .ok front ∧ front ++ rest = input

/-- The values that fit, in other words. -/
theorem Lawful.congr {layout : Layout α} {fits others : α → Prop}
    (hlayout : layout.Lawful fits)
    (hfits : ∀ value, fits value ↔ others value) : layout.Lawful others :=
  ⟨fun value => (hlayout.writes value).trans (hfits value), hlayout.reads,
    hlayout.exact⟩

/-- A computation succeeds if its parts do. -/
theorem bind_eq_ok_iff {first : Except WireError α}
    {next : α → Except WireError β} {result : β} :
    first >>= next = .ok result ↔
      ∃ value, first = .ok value ∧ next value = .ok result := by
  cases first <;> simp [bind, Except.bind]

/-! ### Digits -/

theorem splitBytes_eq_ok_iff {count : Nat} {input front rest : Bytes} :
    splitBytes count input = .ok (front, rest) ↔
      front.length = count ∧ front ++ rest = input := by
  unfold splitBytes
  split
  · rename_i hlt
    simp only [reduceCtorEq, false_iff, not_and]
    rintro rfl rfl
    rw [List.length_append] at hlt
    omega
  · rename_i hle
    simp only [Except.ok.injEq, Prod.mk.injEq]
    constructor
    · rintro ⟨rfl, rfl⟩
      exact ⟨by rw [List.length_take]; omega, List.take_append_drop _ _⟩
    · rintro ⟨rfl, rfl⟩
      exact ⟨List.take_left, List.drop_left⟩

theorem length_bigEndian (width value : Nat) :
    (bigEndian width value).length = width := by
  induction width with
  | zero => rfl
  | succ width ih => rw [bigEndian, List.length_cons, ih]

/-- A digit counts as often as the digits after it can be told apart. -/
theorem ofBigEndian_cons (first : UInt8) (digits : Bytes) :
    ofBigEndian (first :: digits) =
      first.toNat * capacity digits.length + ofBigEndian digits := by
  have hfold : ∀ (digits : Bytes) (high : Nat),
      digits.foldl (fun high digit => 256 * high + digit.toNat) high =
        high * capacity digits.length + ofBigEndian digits := by
    intro digits
    induction digits with
    | nil => simp [ofBigEndian, capacity]
    | cons digit digits ih =>
        intro high
        have hcons : ofBigEndian (digit :: digits) = _ :=
          ih (256 * 0 + digit.toNat)
        rw [List.foldl_cons, ih, hcons, List.length_cons, capacity]
        ring
  have hcons : ofBigEndian (first :: digits) = _ :=
    hfold digits (256 * 0 + first.toNat)
  rw [hcons, Nat.mul_zero, Nat.zero_add]

theorem ofBigEndian_lt (digits : Bytes) :
    ofBigEndian digits < capacity digits.length := by
  induction digits with
  | nil => exact Nat.one_pos
  | cons first digits ih =>
      rw [ofBigEndian_cons, List.length_cons, capacity]
      have hfirst : first.toNat ≤ 255 := Nat.le_of_lt_succ first.toNat_lt
      have hmul := Nat.mul_le_mul_right (capacity digits.length) hfirst
      omega

theorem ofBigEndian_bigEndian (width value : Nat) :
    ofBigEndian (bigEndian width value) = value % capacity width := by
  induction width with
  | zero => simp [bigEndian, ofBigEndian, capacity, Nat.mod_one]
  | succ width ih =>
      rw [bigEndian, ofBigEndian_cons, length_bigEndian, ih, capacity,
        Nat.mul_comm 256, Nat.mod_mul, UInt8.toNat_ofNat']
      ring

/-- Digits are determined by their number and by what they amount to. -/
theorem ofBigEndian_inj {first second : Bytes}
    (hlength : first.length = second.length)
    (hvalue : ofBigEndian first = ofBigEndian second) : first = second := by
  induction first generalizing second with
  | nil => exact (List.eq_nil_of_length_eq_zero hlength.symm).symm
  | cons digit digits ih =>
      obtain _ | ⟨other, others⟩ := second
      · simp at hlength
      simp only [List.length_cons, Nat.add_right_cancel_iff] at hlength
      have hdigits := ofBigEndian_lt digits
      have hothers := ofBigEndian_lt others
      rw [ofBigEndian_cons, ofBigEndian_cons, hlength] at hvalue
      rw [hlength] at hdigits
      have hhigh := congrArg (· / capacity others.length) hvalue
      have hlow := congrArg (· % capacity others.length) hvalue
      simp only [Nat.mul_comm _ (capacity _),
        Nat.mul_add_div (capacity_pos _), Nat.div_eq_of_lt hdigits,
        Nat.div_eq_of_lt hothers, Nat.add_zero, Nat.mul_add_mod,
        Nat.mod_eq_of_lt hdigits, Nat.mod_eq_of_lt hothers] at hhigh hlow
      rw [UInt8.toNat_inj.mp hhigh, ih hlength hlow]

theorem bigEndian_ofBigEndian (digits : Bytes) :
    bigEndian digits.length (ofBigEndian digits) = digits := by
  apply ofBigEndian_inj (length_bigEndian _ _)
  rw [ofBigEndian_bigEndian, Nat.mod_eq_of_lt (ofBigEndian_lt digits)]

/-! ### Words -/

theorem word_encode_eq_ok_iff {width value : Nat} {front : Bytes} :
    (word width).encode value = .ok front ↔
      value < capacity width ∧ bigEndian width value = front := by
  simp only [word]
  split <;> simp_all

theorem word_decode_eq_ok_iff {width value : Nat} {input rest : Bytes} :
    (word width).decode input = .ok (value, rest) ↔
      ∃ front, front.length = width ∧ front ++ rest = input ∧
        ofBigEndian front = value := by
  simp only [word, bind_eq_ok_iff, Prod.exists, splitBytes_eq_ok_iff, pure,
    Except.pure, Except.ok.injEq, Prod.mk.injEq]
  constructor
  · rintro ⟨front, _, ⟨hlength, happend⟩, hvalue, rfl⟩
    exact ⟨front, hlength, happend, hvalue⟩
  · rintro ⟨front, hlength, happend, hvalue⟩
    exact ⟨front, rest, ⟨hlength, happend⟩, hvalue, rfl⟩

theorem word_lawful (width : Nat) :
    (word width).Lawful (fun value => value < capacity width) where
  writes value := by simp only [word_encode_eq_ok_iff, exists_and_left,
    exists_eq', and_true]
  reads value front rest hfront := by
    obtain ⟨hlt, rfl⟩ := word_encode_eq_ok_iff.mp hfront
    refine word_decode_eq_ok_iff.mpr ⟨_, length_bigEndian _ _, rfl, ?_⟩
    rw [ofBigEndian_bigEndian, Nat.mod_eq_of_lt hlt]
  exact input value rest hinput := by
    obtain ⟨front, rfl, rfl, rfl⟩ := word_decode_eq_ok_iff.mp hinput
    exact ⟨front, word_encode_eq_ok_iff.mpr
      ⟨ofBigEndian_lt front, bigEndian_ofBigEndian front⟩, rfl⟩

theorem number_lawful : number.Lawful IsWord := word_lawful 8

theorem length_lawful : length.Lawful (fun count => count < capacity 4) := by
  have hencode : ∀ count front, length.encode count = .ok front ↔
      (word 4).encode count = .ok front := by
    intro count front
    simp only [length, word]
    split <;> simp
  obtain ⟨hwrites, hreads, hexact⟩ := word_lawful 4
  refine ⟨fun value => ?_, fun value front rest hfront => ?_,
    fun input value rest hinput => ?_⟩
  · simp only [hencode]
    exact hwrites value
  · exact hreads value front rest ((hencode value front).mp hfront)
  · obtain ⟨front, hfront, happend⟩ := hexact input value rest hinput
    exact ⟨front, (hencode value front).mpr hfront, happend⟩

theorem signed_decode_eq_ok_iff {value : Int} {input rest : Bytes} :
    signed.decode input = .ok (value, rest) ↔
      ∃ residue, number.decode input = .ok (residue, rest) ∧
        (if residue < signedBound then (residue : Int)
          else residue - wordBound) = value := by
  simp only [signed, bind_eq_ok_iff, Prod.exists, pure, Except.pure,
    Except.ok.injEq, Prod.mk.injEq]
  constructor
  · rintro ⟨residue, _, hresidue, hvalue, rfl⟩
    exact ⟨residue, hresidue, hvalue⟩
  · rintro ⟨residue, hresidue, hvalue⟩
    exact ⟨residue, rest, hresidue, hvalue, rfl⟩

theorem signed_lawful : signed.Lawful IsSigned where
  writes value := by
    have hresidue : IsWord (value % wordBound).toNat := by
      simp only [IsWord, wordBound_eq]
      omega
    simp only [signed, IsSigned]
    split
    · rename_i hsigned
      exact ⟨fun _ => hsigned, fun _ => (number_lawful.writes _).mpr hresidue⟩
    · rename_i hsigned
      simp only [reduceCtorEq, exists_false, hsigned]
  reads value front rest hfront := by
    simp only [signed] at hfront
    split at hfront
    · rename_i hsigned
      refine signed_decode_eq_ok_iff.mpr
        ⟨_, number_lawful.reads _ front rest hfront, ?_⟩
      split
      all_goals
        rename_i hresidue
        simp only [wordBound_eq, signedBound_eq] at hsigned hresidue ⊢
        omega
    · simp at hfront
  exact input value rest hinput := by
    obtain ⟨residue, hresidue, rfl⟩ := signed_decode_eq_ok_iff.mp hinput
    obtain ⟨front, hfront, happend⟩ := number_lawful.exact _ _ _ hresidue
    have hword : IsWord residue := (number_lawful.writes _).mp ⟨front, hfront⟩
    refine ⟨front, ?_, happend⟩
    rw [← hfront]
    have hbounds : wordBound = 2 * signedBound := rfl
    simp only [IsWord] at hword
    split
    · rename_i hlt
      have hresidue : ((residue : Int) % wordBound).toNat = residue := by
        rw [Int.emod_eq_of_lt (by omega) (by omega), Int.toNat_natCast]
      simp only [signed]
      rw [if_pos (by omega), hresidue]
    · rename_i hle
      have hresidue :
          (((residue : Int) - wordBound) % wordBound).toNat = residue := by
        rw [Int.sub_emod_right, Int.emod_eq_of_lt (by omega) (by omega),
          Int.toNat_natCast]
      simp only [signed]
      rw [if_pos (by omega), hresidue]

theorem byte_lawful : byte.Lawful (fun _ => True) where
  writes value := by simp [byte]
  reads value front rest hfront := by
    obtain rfl := Except.ok.inj hfront
    rfl
  exact input value rest hinput := by
    cases input with
    | nil => simp [byte] at hinput
    | cons first others =>
        simp only [byte, Except.ok.injEq, Prod.mk.injEq] at hinput
        obtain ⟨rfl, rfl⟩ := hinput
        exact ⟨[first], rfl, rfl⟩

/-! ### Fields one after another -/

theorem unit_lawful : unit.Lawful (fun _ => True) where
  writes value := by simp [unit]
  reads value front rest hfront := by
    obtain rfl := Except.ok.inj hfront
    rfl
  exact input value rest hinput := by
    simp only [unit, Except.ok.injEq, Prod.mk.injEq, true_and] at hinput
    exact ⟨[], rfl, hinput.symm⟩

section Sequences

variable {first : Layout α} {second : Layout β}

theorem seq_encode_eq_ok_iff {value : α × β} {bytes : Bytes} :
    (first.seq second).encode value = .ok bytes ↔
      ∃ front back, first.encode value.1 = .ok front ∧
        second.encode value.2 = .ok back ∧ front ++ back = bytes := by
  simp only [seq, bind_eq_ok_iff, pure, Except.pure, Except.ok.injEq,
    exists_and_left]

theorem seq_decode_eq_ok_iff {value : α × β} {input rest : Bytes} :
    (first.seq second).decode input = .ok (value, rest) ↔
      ∃ middle, first.decode input = .ok (value.1, middle) ∧
        second.decode middle = .ok (value.2, rest) := by
  simp only [seq, bind_eq_ok_iff, Prod.exists, pure, Except.pure,
    Except.ok.injEq, Prod.mk.injEq]
  constructor
  · rintro ⟨_, middle, hfirst, _, _, hsecond, rfl, rfl⟩
    exact ⟨middle, hfirst, hsecond⟩
  · rintro ⟨middle, hfirst, hsecond⟩
    exact ⟨_, middle, hfirst, _, rest, hsecond, rfl, rfl⟩

theorem Lawful.seq {fits : α → Prop} {others : β → Prop}
    (hfirst : first.Lawful fits) (hsecond : second.Lawful others) :
    (first.seq second).Lawful
      (fun value => fits value.1 ∧ others value.2) where
  writes value := by
    rw [← hfirst.writes, ← hsecond.writes]
    simp only [seq_encode_eq_ok_iff]
    constructor
    · rintro ⟨_, front, back, hfront, hback, -⟩
      exact ⟨⟨front, hfront⟩, back, hback⟩
    · rintro ⟨⟨front, hfront⟩, back, hback⟩
      exact ⟨_, front, back, hfront, hback, rfl⟩
  reads value bytes rest hbytes := by
    obtain ⟨front, back, hfront, hback, rfl⟩ := seq_encode_eq_ok_iff.mp hbytes
    rw [List.append_assoc, seq_decode_eq_ok_iff]
    exact ⟨back ++ rest, hfirst.reads _ _ _ hfront,
      hsecond.reads _ _ _ hback⟩
  exact input value rest hinput := by
    obtain ⟨middle, hmiddle, hrest⟩ := seq_decode_eq_ok_iff.mp hinput
    obtain ⟨front, hfront, rfl⟩ := hfirst.exact _ _ _ hmiddle
    obtain ⟨back, hback, rfl⟩ := hsecond.exact _ _ _ hrest
    exact ⟨front ++ back,
      seq_encode_eq_ok_iff.mpr ⟨front, back, hfront, hback, rfl⟩,
      List.append_assoc _ _ _⟩

end Sequences

/-! ### The same bytes as other values -/

section Images

variable {layout : Layout α} {fits : α → Prop}

theorem refine_decode_eq_ok_iff {check : α → Except WireError β} {back : β → α}
    {value : β} {input rest : Bytes} :
    (layout.refine check back).decode input = .ok (value, rest) ↔
      ∃ read, layout.decode input = .ok (read, rest) ∧
        check read = .ok value := by
  simp only [refine, bind_eq_ok_iff, Prod.exists, pure, Except.pure,
    Except.ok.injEq, Prod.mk.injEq]
  constructor
  · rintro ⟨read, _, hread, _, hcheck, rfl, rfl⟩
    exact ⟨read, hread, hcheck⟩
  · rintro ⟨read, hread, hcheck⟩
    exact ⟨read, rest, hread, value, hcheck, rfl, rfl⟩

/-- A check that accepts just what is written back. -/
theorem Lawful.refine {check : α → Except WireError β} {back : β → α}
    (hlayout : layout.Lawful fits)
    (hcheck : ∀ read value, check read = .ok value ↔ back value = read) :
    (layout.refine check back).Lawful (fun value => fits (back value)) where
  writes value := hlayout.writes (back value)
  reads value front rest hfront := refine_decode_eq_ok_iff.mpr
    ⟨back value, hlayout.reads _ _ _ hfront, (hcheck _ _).mpr rfl⟩
  exact input value rest hinput := by
    obtain ⟨_, hread, hvalue⟩ := refine_decode_eq_ok_iff.mp hinput
    obtain rfl := (hcheck _ _).mp hvalue
    exact hlayout.exact _ _ _ hread

theorem Lawful.imap {forth : α → β} {back : β → α}
    (hlayout : layout.Lawful fits) (hforth : ∀ value, forth (back value) = value)
    (hback : ∀ value, back (forth value) = value) :
    (layout.imap forth back).Lawful (fun value => fits (back value)) := by
  have hrefined : ∀ read value, (Except.ok (forth read) : Except WireError β) =
      .ok value ↔ back value = read := by
    intro read value
    rw [Except.ok.injEq]
    constructor
    · rintro rfl
      exact hback read
    · rintro rfl
      exact hforth value
  exact hlayout.refine hrefined

/-- An arm serves the values that it projects. -/
theorem Lawful.arm {inject : α → β} {project : β → Option α}
    {serves : β → Prop} (hlayout : layout.Lawful fits)
    (hproject : ∀ value part,
      project value = some part ↔ inject part = value)
    (hserves : ∀ value,
      (∃ part, project value = some part ∧ fits part) ↔ serves value) :
    (layout.arm inject project).Lawful serves := by
  have hencode : ∀ value front,
      (layout.arm inject project).encode value = .ok front ↔
        ∃ part, project value = some part ∧
          layout.encode part = .ok front := by
    intro value front
    simp only [Layout.arm]
    cases project value <;> simp
  have hdecode : ∀ value input rest,
      (layout.arm inject project).decode input = .ok (value, rest) ↔
        ∃ part, inject part = value ∧
          layout.decode input = .ok (part, rest) := by
    intro value input rest
    simp only [Layout.arm, bind_eq_ok_iff, Prod.exists, pure, Except.pure,
      Except.ok.injEq, Prod.mk.injEq]
    constructor
    · rintro ⟨part, _, hpart, rfl, rfl⟩
      exact ⟨part, rfl, hpart⟩
    · rintro ⟨part, rfl, hpart⟩
      exact ⟨part, rest, hpart, rfl, rfl⟩
  refine ⟨fun value => ?_, fun value front rest hfront => ?_,
    fun input value rest hinput => ?_⟩
  · rw [← hserves]
    simp only [hencode, ← hlayout.writes, ← exists_and_left]
    exact exists_comm
  · obtain ⟨part, hpart, hfront⟩ := (hencode value front).mp hfront
    exact (hdecode _ _ _).mpr
      ⟨part, (hproject _ _).mp hpart, hlayout.reads _ _ _ hfront⟩
  · obtain ⟨part, hpart, hread⟩ := (hdecode value input rest).mp hinput
    obtain ⟨front, hfront, happend⟩ := hlayout.exact _ _ _ hread
    exact ⟨front, (hencode _ _).mpr ⟨part, (hproject _ _).mpr hpart, hfront⟩,
      happend⟩

end Images

/-! ### Lists -/

section Lists

variable {item : Layout α} {fits : α → Prop}

theorem encodeMany_cons_eq_ok_iff {value : α} {values : List α}
    {bytes : Bytes} :
    encodeMany item (value :: values) = .ok bytes ↔
      ∃ front back, item.encode value = .ok front ∧
        encodeMany item values = .ok back ∧ front ++ back = bytes := by
  simp only [encodeMany, bind_eq_ok_iff, pure, Except.pure, Except.ok.injEq,
    exists_and_left]

theorem decodeMany_succ_eq_ok_iff {count : Nat} {values : List α}
    {input rest : Bytes} :
    decodeMany item (count + 1) input = .ok (values, rest) ↔
      ∃ value others middle, values = value :: others ∧
        item.decode input = .ok (value, middle) ∧
        decodeMany item count middle = .ok (others, rest) := by
  simp only [decodeMany, bind_eq_ok_iff, Prod.exists, pure, Except.pure,
    Except.ok.injEq, Prod.mk.injEq]
  constructor
  · rintro ⟨value, middle, hvalue, others, _, hothers, rfl, rfl⟩
    exact ⟨value, others, middle, rfl, hvalue, hothers⟩
  · rintro ⟨value, others, middle, rfl, hvalue, hothers⟩
    exact ⟨value, middle, hvalue, others, rest, hothers, rfl, rfl⟩

theorem Lawful.encodeMany (hitem : item.Lawful fits) (values : List α) :
    (∃ bytes, encodeMany item values = .ok bytes) ↔
      ∀ value ∈ values, fits value := by
  induction values with
  | nil => simp [Layout.encodeMany]
  | cons value values ih =>
      rw [List.forall_mem_cons, ← ih, ← hitem.writes]
      simp only [encodeMany_cons_eq_ok_iff]
      constructor
      · rintro ⟨_, front, back, hfront, hback, -⟩
        exact ⟨⟨front, hfront⟩, back, hback⟩
      · rintro ⟨⟨front, hfront⟩, back, hback⟩
        exact ⟨_, front, back, hfront, hback, rfl⟩

theorem Lawful.decodeMany_encodeMany (hitem : item.Lawful fits)
    {values : List α} {bytes : Bytes}
    (hbytes : Layout.encodeMany item values = .ok bytes) (rest : Bytes) :
    decodeMany item values.length (bytes ++ rest) = .ok (values, rest) := by
  induction values generalizing bytes with
  | nil =>
      obtain rfl := Except.ok.inj hbytes
      rfl
  | cons value values ih =>
      obtain ⟨front, back, hfront, hback, rfl⟩ :=
        encodeMany_cons_eq_ok_iff.mp hbytes
      rw [List.append_assoc, List.length_cons, decodeMany_succ_eq_ok_iff]
      exact ⟨value, values, back ++ rest, rfl, hitem.reads _ _ _ hfront,
        ih hback⟩

theorem Lawful.encodeMany_of_decodeMany (hitem : item.Lawful fits)
    {count : Nat} {values : List α} {input rest : Bytes}
    (hinput : decodeMany item count input = .ok (values, rest)) :
    values.length = count ∧
      ∃ bytes, Layout.encodeMany item values = .ok bytes ∧
        bytes ++ rest = input := by
  induction count generalizing input values with
  | zero =>
      simp only [decodeMany, Except.ok.injEq, Prod.mk.injEq] at hinput
      obtain ⟨rfl, rfl⟩ := hinput
      exact ⟨rfl, [], rfl, rfl⟩
  | succ count ih =>
      obtain ⟨value, others, middle, rfl, hvalue, hothers⟩ :=
        decodeMany_succ_eq_ok_iff.mp hinput
      obtain ⟨front, hfront, rfl⟩ := hitem.exact _ _ _ hvalue
      obtain ⟨rfl, back, hback, rfl⟩ := ih hothers
      exact ⟨rfl, front ++ back,
        encodeMany_cons_eq_ok_iff.mpr ⟨front, back, hfront, hback, rfl⟩,
        List.append_assoc _ _ _⟩

theorem Lawful.list (hitem : item.Lawful fits) :
    (list item).Lawful
      (fun values => IsShort values ∧ ∀ value ∈ values, fits value) := by
  have hencode : ∀ values bytes, (Layout.list item).encode values = .ok bytes ↔
      ∃ front back, length.encode values.length = .ok front ∧
        Layout.encodeMany item values = .ok back ∧ front ++ back = bytes := by
    intro values bytes
    simp only [Layout.list, bind_eq_ok_iff, pure, Except.pure, Except.ok.injEq,
      exists_and_left]
  have hdecode : ∀ values input rest,
      (Layout.list item).decode input = .ok (values, rest) ↔
        ∃ count middle, length.decode input = .ok (count, middle) ∧
          decodeMany item count middle = .ok (values, rest) := by
    intro values input rest
    simp only [Layout.list, bind_eq_ok_iff, Prod.exists]
  refine ⟨fun values => ?_, fun values bytes rest hbytes => ?_,
    fun input values rest hinput => ?_⟩
  · rw [IsShort, ← length_lawful.writes, ← hitem.encodeMany]
    simp only [hencode]
    constructor
    · rintro ⟨_, front, back, hfront, hback, -⟩
      exact ⟨⟨front, hfront⟩, back, hback⟩
    · rintro ⟨⟨front, hfront⟩, back, hback⟩
      exact ⟨_, front, back, hfront, hback, rfl⟩
  · obtain ⟨front, back, hfront, hback, rfl⟩ := (hencode _ _).mp hbytes
    rw [List.append_assoc, hdecode]
    exact ⟨values.length, back ++ rest, length_lawful.reads _ _ _ hfront,
      hitem.decodeMany_encodeMany hback rest⟩
  · obtain ⟨count, middle, hcount, hvalues⟩ := (hdecode _ _ _).mp hinput
    obtain ⟨front, hfront, rfl⟩ := length_lawful.exact _ _ _ hcount
    obtain ⟨rfl, back, hback, rfl⟩ := hitem.encodeMany_of_decodeMany hvalues
    exact ⟨front ++ back, (hencode _ _).mpr ⟨front, back, hfront, hback, rfl⟩,
      List.append_assoc _ _ _⟩

theorem bytes_lawful : bytes.Lawful IsShort := by
  have hencode : ∀ value output, bytes.encode value = .ok output ↔
      ∃ front, length.encode value.length = .ok front ∧
        front ++ value = output := by
    intro value output
    simp only [bytes, bind_eq_ok_iff, pure, Except.pure, Except.ok.injEq]
  have hdecode : ∀ value input rest,
      bytes.decode input = .ok (value, rest) ↔
        ∃ middle, length.decode input = .ok (value.length, middle) ∧
          value ++ rest = middle := by
    intro value input rest
    simp only [bytes, bind_eq_ok_iff, Prod.exists, splitBytes_eq_ok_iff]
    constructor
    · rintro ⟨_, middle, hcount, rfl, happend⟩
      exact ⟨middle, hcount, happend⟩
    · rintro ⟨middle, hcount, happend⟩
      exact ⟨_, middle, hcount, rfl, happend⟩
  refine ⟨fun value => ?_, fun value output rest houtput => ?_,
    fun input value rest hinput => ?_⟩
  · rw [IsShort, ← length_lawful.writes]
    simp only [hencode]
    constructor
    · rintro ⟨_, front, hfront, -⟩
      exact ⟨front, hfront⟩
    · rintro ⟨front, hfront⟩
      exact ⟨_, front, hfront, rfl⟩
  · obtain ⟨front, hfront, rfl⟩ := (hencode _ _).mp houtput
    rw [List.append_assoc, hdecode]
    exact ⟨value ++ rest, length_lawful.reads _ _ _ hfront, rfl⟩
  · obtain ⟨_, hcount, rfl⟩ := (hdecode _ _ _).mp hinput
    obtain ⟨front, hfront, rfl⟩ := length_lawful.exact _ _ _ hcount
    exact ⟨front ++ value, (hencode _ _).mpr ⟨front, hfront, rfl⟩,
      List.append_assoc _ _ _⟩

end Lists

/-! ### Choices -/

section Choices

variable {unknown : UInt8 → WireError} {tagOf : α → UInt8}
  {arms : List (UInt8 × Layout α)} {layout : Layout α} {tag : UInt8}

theorem mem_of_findArm (hfound : findArm arms tag = some layout) :
    (tag, layout) ∈ arms := by
  obtain ⟨⟨listed, found⟩, hfind, rfl⟩ := Option.map_eq_some_iff.mp hfound
  have htag : listed = tag := by simpa using List.find?_some hfind
  exact htag ▸ List.mem_of_find?_eq_some hfind

theorem exists_findArm (hlisted : tag ∈ arms.map (·.1)) :
    ∃ layout, findArm arms tag = some layout := by
  obtain ⟨arm, harm, rfl⟩ := List.mem_map.mp hlisted
  rw [← Option.isSome_iff_exists, findArm, Option.isSome_map,
    List.find?_isSome]
  exact ⟨arm, harm, beq_self_eq_true _⟩

theorem choice_encode_eq_ok_iff {value : α} {bytes : Bytes} :
    (choice unknown tagOf arms).encode value = .ok bytes ↔
      ∃ layout body, findArm arms (tagOf value) = some layout ∧
        layout.encode value = .ok body ∧ tagOf value :: body = bytes := by
  simp only [choice]
  cases findArm arms (tagOf value) <;>
    simp [bind_eq_ok_iff, pure, Except.pure]

theorem choice_decode_eq_ok_iff {value : α} {input rest : Bytes} :
    (choice unknown tagOf arms).decode input = .ok (value, rest) ↔
      ∃ tag body layout, input = tag :: body ∧
        findArm arms tag = some layout ∧
        layout.decode body = .ok (value, rest) := by
  cases input with
  | nil => simp [choice]
  | cons tag body =>
      simp only [choice]
      cases hfound : findArm arms tag <;> simp [hfound]

/-- A choice is lawful if each arm serves just the values with its tag, and
every value that fits has a tag that is listed. -/
theorem Lawful.choice {fits : α → Prop}
    (harms : ∀ arm ∈ arms,
      arm.2.Lawful (fun value => tagOf value = arm.1 ∧ fits value))
    (hlisted : ∀ value, fits value → tagOf value ∈ arms.map (·.1)) :
    (choice unknown tagOf arms).Lawful fits where
  writes value := by
    simp only [choice_encode_eq_ok_iff]
    constructor
    · rintro ⟨_, layout, body, hfound, hbody, -⟩
      exact (((harms _ (mem_of_findArm hfound)).writes value).mp
        ⟨body, hbody⟩).2
    · intro hfits
      obtain ⟨layout, hfound⟩ := exists_findArm (hlisted value hfits)
      obtain ⟨body, hbody⟩ :=
        ((harms _ (mem_of_findArm hfound)).writes value).mpr ⟨rfl, hfits⟩
      exact ⟨_, layout, body, hfound, hbody, rfl⟩
  reads value bytes rest hbytes := by
    obtain ⟨layout, body, hfound, hbody, rfl⟩ :=
      choice_encode_eq_ok_iff.mp hbytes
    exact choice_decode_eq_ok_iff.mpr ⟨_, _, layout, rfl, hfound,
      (harms _ (mem_of_findArm hfound)).reads _ _ _ hbody⟩
  exact input value rest hinput := by
    obtain ⟨tag, body, layout, rfl, hfound, hread⟩ :=
      choice_decode_eq_ok_iff.mp hinput
    have hlayout := harms _ (mem_of_findArm hfound)
    obtain ⟨front, hfront, rfl⟩ := hlayout.exact _ _ _ hread
    obtain ⟨rfl, -⟩ := (hlayout.writes value).mp ⟨front, hfront⟩
    exact ⟨_, choice_encode_eq_ok_iff.mpr ⟨layout, front, hfound, hfront, rfl⟩,
      rfl⟩

end Choices

end Layout

end SessionRaft
