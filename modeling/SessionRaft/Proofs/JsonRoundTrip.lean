/-
Reading undoes printing.  A value without fractions whose texts are made of
characters is read back from its spelling, whatever follows, as long as that
could not be a part of a number.
-/
import SessionRaft.Json.Printer
import SessionRaft.Json.Reader

namespace SessionRaft.Json

/-! ### Numbers -/

/-- What may follow a number. -/
def Stops (rest : List Char) : Prop :=
  ∀ c ∈ rest.head?, c.isDigit = false ∧ c ≠ '.' ∧ c ≠ 'e' ∧ c ≠ 'E'

theorem stops_cons {c : Char} (rest : List Char)
    (hstops : c.isDigit = false ∧ c ≠ '.' ∧ c ≠ 'e' ∧ c ≠ 'E') :
    Stops (c :: rest) := by
  intro first hfirst
  obtain rfl := Option.some.inj hfirst
  exact hstops

theorem isDigit_of_mem_decimalDigits {value : Nat} {c : Char}
    (hc : c ∈ decimalDigits value) : c.isDigit = true :=
  Nat.isDigit_of_mem_toDigits (by decide) (by decide) hc

theorem decimalDigits_ne_nil (value : Nat) : decimalDigits value ≠ [] :=
  Nat.toDigits_ne_nil

theorem exists_decimalDigits (value : Nat) :
    ∃ c digits, decimalDigits value = c :: digits ∧ c.isDigit = true := by
  obtain ⟨c, digits, hdigits⟩ :=
    List.exists_cons_of_ne_nil (decimalDigits_ne_nil value)
  exact ⟨c, digits, hdigits, isDigit_of_mem_decimalDigits
    (hdigits ▸ List.mem_cons_self)⟩

theorem digitsValue_decimalDigits (value : Nat) :
    digitsValue (decimalDigits value) = value := by
  have hvalue : Nat.ofDigitChars 10 (Nat.toDigits 10 value) 0 = value :=
    Nat.ofDigitChars_ten_toDigits
  rwa [Nat.ofDigitChars_eq_foldl] at hvalue

/-- Only zero is spelled with a leading zero. -/
theorem decimalDigits_head {value : Nat} (hpositive : 0 < value) :
    (decimalDigits value).head? ≠ some '0' := by
  induction value using Nat.strongRecOn with
  | ind value ih =>
      rw [decimalDigits, Nat.toDigits_eq_if (by decide)]
      split
      · simp only [List.head?_cons, ne_eq, Option.some.injEq,
          Nat.digitChar_eq_zero]
        omega
      · have hhigh := ih (value / 10) (by omega) (by omega)
        obtain ⟨c, digits, hdigits, -⟩ := exists_decimalDigits (value / 10)
        rw [decimalDigits] at hhigh hdigits
        rw [hdigits] at hhigh ⊢
        exact hhigh

theorem readDigits_append {digits rest : List Char} (hne : digits ≠ [])
    (hdigits : ∀ c ∈ digits, c.isDigit = true) (hstops : Stops rest) :
    readDigits (digits ++ rest) = some (digits, rest) := by
  have htake : rest.takeWhile Char.isDigit = [] := by
    cases rest with
    | nil => rfl
    | cons c rest => simp [(hstops c rfl).1]
  have hdrop : rest.dropWhile Char.isDigit = rest := by
    cases rest with
    | nil => rfl
    | cons c rest => simp [(hstops c rfl).1]
  unfold readDigits
  rw [List.takeWhile_append_of_pos hdigits, List.dropWhile_append_of_pos hdigits,
    htake, hdrop, List.append_nil]
  split
  · exact absurd rfl hne
  · rfl

theorem readWhole_decimalDigits (value : Nat) {rest : List Char}
    (hstops : Stops rest) :
    readWhole (decimalDigits value ++ rest) =
      some (decimalDigits value, rest) := by
  unfold readWhole
  rw [readDigits_append (decimalDigits_ne_nil value)
    (fun _ => isDigit_of_mem_decimalDigits) hstops]
  split
  · rename_i hzero
    obtain ⟨hdigits, -⟩ := Prod.mk.inj (Option.some.inj hzero)
    rcases Nat.eq_zero_or_pos value with rfl | hpositive
    · simp [decimalDigits, Nat.toDigits_zero] at hdigits
    · exact absurd (hdigits ▸ rfl) (decimalDigits_head hpositive)
  · rfl

theorem readUnsigned_decimalDigits {negative : Bool} {value : Nat}
    (hsign : negative = true → 0 < value) {rest : List Char}
    (hstops : Stops rest) :
    readUnsigned negative (decimalDigits value ++ rest) =
      some (integer (if negative then -(value : Int) else value), rest) := by
  have hfraction : readFraction rest = some ([], rest) := by
    unfold readFraction
    split
    · exact absurd rfl (hstops '.' rfl).2.1
    · rfl
  have hexponent : readExponent rest = some ([], rest) := by
    unfold readExponent
    split
    · exact absurd rfl (hstops 'e' rfl).2.2.1
    · exact absurd rfl (hstops 'E' rfl).2.2.2
    · rfl
  simp only [readUnsigned, readWhole_decimalDigits value hstops, hfraction,
    hexponent, Option.bind_eq_bind, Option.bind_some,
    digitsValue_decimalDigits, List.append_nil, ne_eq, not_true_eq_false,
    false_or]
  cases negative with
  | true =>
      have hne : value ≠ 0 := Nat.ne_of_gt (hsign rfl)
      simp [hne]
  | false => simp

theorem readNumber_spellInteger (value : Int) {rest : List Char}
    (hstops : Stops rest) :
    readNumber (spellInteger value ++ rest) = some (integer value, rest) := by
  unfold spellInteger
  split
  · rename_i hnegative
    have hread : readUnsigned true (decimalDigits value.natAbs ++ rest) = _ :=
      readUnsigned_decimalDigits (fun _ => by omega) hstops
    rw [List.cons_append, readNumber, hread]
    simp only [↓reduceIte, Option.some.injEq, Prod.mk.injEq, integer.injEq,
      and_true]
    omega
  · rename_i hnonnegative
    have hread : readUnsigned false (decimalDigits value.natAbs ++ rest) = _ :=
      readUnsigned_decimalDigits (fun hfalse => absurd hfalse (by decide))
        hstops
    obtain ⟨c, digits, hdigits, hc⟩ := exists_decimalDigits value.natAbs
    rw [hdigits] at hread ⊢
    rw [List.cons_append] at hread ⊢
    unfold readNumber
    split
    · rename_i heq
      obtain ⟨rfl, -⟩ := List.cons.inj heq
      exact absurd hc (by decide)
    · rw [hread]
      simp only [Bool.false_eq_true, ↓reduceIte, Option.some.injEq,
        Prod.mk.injEq, integer.injEq, and_true]
      omega

/-! ### Texts -/

def IsText (points : Text) : Prop := ∀ point ∈ points, Nat.isValidChar point

theorem isText_pointsOf (name : String) : IsText (pointsOf name) := by
  intro point hpoint
  obtain ⟨c, -, rfl⟩ := List.mem_map.mp hpoint
  exact c.valid

theorem toNat_ofNat {point : Nat} (hvalid : Nat.isValidChar point) :
    (Char.ofNat point).toNat = point := by
  rw [Char.ofNat, dif_pos hvalid]
  rfl

/-- The escapes of control characters are read back. -/
theorem hexUnit?_spellUnit : ∀ unit < 0x20,
    hexUnit? (hexDigit (unit / 4096 % 16)) (hexDigit (unit / 256 % 16))
      (hexDigit (unit / 16 % 16)) (hexDigit (unit % 16)) = some unit := by
  decide

theorem readText_spellUnit {unit : Nat} (hunit : unit < 0x20)
    {input rest : List Char} {points : Text} {escaped : Bool}
    (hread : readText input = some (points, escaped, rest)) :
    readText (spellUnit unit ++ input) = some (unit :: points, true, rest) := by
  have hjoin : joinUnit unit escaped points = unit :: points := by
    cases points with
    | nil => rfl
    | cons next points =>
        simp only [joinUnit]
        rw [if_neg (by omega)]
  simp only [spellUnit, List.cons_append, List.nil_append, readText,
    hexUnit?_spellUnit unit hunit, hread, hjoin, Option.bind_eq_bind,
    Option.bind_some, Option.pure_def]

/-- A character that needs no escape stands for itself. -/
theorem readText_cons {c : Char} (hquote : c ≠ '"') (hslash : c ≠ '\\')
    (hprints : 0x20 ≤ c.toNat) {input rest : List Char} {points : Text}
    {escaped : Bool} (hread : readText input = some (points, escaped, rest)) :
    readText (c :: input) = some (c.toNat :: points, false, rest) := by
  rw [readText.eq_def]
  split
  · rename_i heq
    simp at heq
  · rename_i heq
    exact absurd (List.cons.inj heq).1 hquote
  · rename_i heq
    exact absurd (List.cons.inj heq).1 hslash
  · rename_i heq
    exact absurd (List.cons.inj heq).1 hslash
  · rename_i heq
    obtain ⟨rfl, rfl⟩ := List.cons.inj heq
    rw [if_neg (by rintro (hlt | rfl); omega; exact hslash rfl)]
    simp [hread]

theorem readText_letter {letter c : Char} (hletter : letter ≠ 'u')
    (hescaped : escaped? letter = some c) {input rest : List Char}
    {points : Text} {escaped : Bool}
    (hread : readText input = some (points, escaped, rest)) :
    readText ('\\' :: letter :: input) =
      some (c.toNat :: points, false, rest) := by
  rw [readText.eq_def]
  split
  · rename_i heq
    simp at heq
  · rename_i heq
    exact absurd (List.cons.inj heq).1 (by decide)
  · rename_i heq
    exact absurd (List.cons.inj (List.cons.inj heq).2).1 hletter
  · rename_i heq
    obtain ⟨rfl, rfl⟩ := List.cons.inj (List.cons.inj heq).2
    simp [hread, hescaped]
  · rename_i hother heq
    obtain ⟨rfl, rfl⟩ := List.cons.inj heq
    exact (hother _ _ rfl rfl).elim

/-- A character is spelled by an escape of one letter, by its code unit, or by
itself. -/
theorem spellPoint_cases {point : Nat} (hvalid : Nat.isValidChar point) :
    (∃ letter c, spellPoint point = ['\\', letter] ∧
      escaped? letter = some c ∧ c.toNat = point ∧ letter ≠ 'u') ∨
    (spellPoint point = spellUnit point ∧ point < 0x20) ∨
    (spellPoint point = [Char.ofNat point] ∧ 0x20 ≤ point ∧
      point ≠ '"'.toNat ∧ point ≠ '\\'.toNat) := by
  by_cases hshort :
    point ∈ ['"'.toNat, '\\'.toNat, 0x08, 0x0C, 0x0A, 0x0D, 0x09]
  · simp only [List.mem_cons, List.not_mem_nil, or_false] at hshort
    rcases hshort with rfl | rfl | rfl | rfl | rfl | rfl | rfl
    all_goals exact Or.inl ⟨_, _, rfl, rfl, rfl, by decide⟩
  · simp only [List.mem_cons, List.not_mem_nil, or_false, not_or] at hshort
    have hcharacter : isSurrogate point = false := by
      simp only [isSurrogate, decide_eq_false_iff_not]
      simp only [Nat.isValidChar] at hvalid
      omega
    simp only [spellPoint, hshort, ↓reduceIte, hcharacter, Bool.false_eq_true,
      or_false]
    split
    · rename_i hcontrol
      exact Or.inr (Or.inl ⟨rfl, hcontrol⟩)
    · rename_i hprints
      exact Or.inr (Or.inr ⟨rfl, by omega, hshort.1, hshort.2.1⟩)

theorem readText_spellPoint {point : Nat} (hvalid : Nat.isValidChar point)
    {input rest : List Char} {points : Text} {escaped : Bool}
    (hread : readText input = some (points, escaped, rest)) :
    ∃ flag, readText (spellPoint point ++ input) =
      some (point :: points, flag, rest) := by
  rcases spellPoint_cases hvalid with ⟨letter, c, heq, hescaped, rfl, hletter⟩ |
    ⟨heq, hcontrol⟩ | ⟨heq, hprints, hquote, hslash⟩
  · rw [heq]
    exact ⟨false, readText_letter hletter hescaped hread⟩
  · rw [heq]
    exact ⟨true, readText_spellUnit hcontrol hread⟩
  · obtain ⟨c, rfl⟩ : ∃ c : Char, c.toNat = point :=
      ⟨Char.ofNat point, toNat_ofNat hvalid⟩
    rw [heq, Char.ofNat_toNat]
    exact ⟨false, readText_cons (fun hc => hquote (congrArg Char.toNat hc))
      (fun hc => hslash (congrArg Char.toNat hc)) hprints hread⟩

theorem readText_flatMap {points : Text} (htext : IsText points)
    (rest : List Char) :
    ∃ flag, readText (points.flatMap spellPoint ++ '"' :: rest) =
      some (points, flag, rest) := by
  induction points with
  | nil => exact ⟨false, by rw [List.flatMap_nil, List.nil_append, readText]⟩
  | cons point points ih =>
      rw [IsText, List.forall_mem_cons] at htext
      obtain ⟨hvalid, hothers⟩ := htext
      obtain ⟨escaped, hread⟩ := ih hothers
      rw [List.flatMap_cons, List.append_assoc]
      exact readText_spellPoint hvalid hread

theorem readText_spellText {name : Text} (htext : IsText name)
    (rest : List Char) :
    ∃ body flag, spellText name ++ rest = '"' :: body ∧
      readText body = some (name, flag, rest) := by
  obtain ⟨flag, hread⟩ := readText_flatMap htext rest
  refine ⟨_, flag, ?_, hread⟩
  simp only [spellText, List.cons_append, List.append_assoc, List.nil_append]

/-! ### Blanks -/

theorem isBlank_of_mem_lineBreak {depth : Nat} {c : Char}
    (hc : c ∈ lineBreak depth) : isBlank c = true := by
  rcases List.mem_cons.mp hc with rfl | hc
  · rfl
  · rw [List.eq_of_mem_replicate hc]
    rfl

theorem skipBlanks_append {blanks : List Char}
    (hblanks : ∀ c ∈ blanks, isBlank c = true) (input : List Char) :
    skipBlanks (blanks ++ input) = skipBlanks input :=
  List.dropWhile_append_of_pos hblanks

theorem skipBlanks_lineBreak (depth : Nat) (input : List Char) :
    skipBlanks (lineBreak depth ++ input) = skipBlanks input :=
  skipBlanks_append (fun _ => isBlank_of_mem_lineBreak) input

theorem skipBlanks_cons {c : Char} (hc : isBlank c = false)
    (rest : List Char) : skipBlanks (c :: rest) = c :: rest := by
  rw [skipBlanks, List.dropWhile_cons, hc]
  simp

theorem readValue_append (blanks : List Char)
    (hblanks : ∀ c ∈ blanks, isBlank c = true) (fuel : Nat)
    (input : List Char) :
    readValue fuel (blanks ++ input) = readValue fuel input := by
  cases fuel with
  | zero => rfl
  | succ fuel => simp only [readValue, skipBlanks_append hblanks]

theorem readValue_lineBreak (fuel depth : Nat) (input : List Char) :
    readValue fuel (lineBreak depth ++ input) = readValue fuel input :=
  readValue_append _ (fun _ => isBlank_of_mem_lineBreak) fuel input

theorem readMember_lineBreak (fuel depth : Nat) (input : List Char) :
    readMember fuel (lineBreak depth ++ input) = readMember fuel input := by
  cases fuel with
  | zero => rfl
  | succ fuel => simp only [readMember, skipBlanks_lineBreak]

/-- What a number begins with is no blank. -/
theorem isBlank_eq_false {c : Char} (hc : c.isDigit = true ∨ c = '-') :
    isBlank c = false := by
  simp only [isBlank, Bool.or_eq_false_iff, beq_eq_false_iff_ne]
  refine ⟨⟨⟨?_, ?_⟩, ?_⟩, ?_⟩
  all_goals
    rintro rfl
    exact absurd hc (by decide)

/-! ### Values -/

/-- A value without fractions whose texts are made of characters. -/
inductive Plain : Json → Prop where
  | null : Plain .null
  | bool (value : Bool) : Plain (.bool value)
  | integer (value : Int) : Plain (.integer value)
  | text {points : Text} (htext : IsText points) : Plain (.text points)
  | array {items : List Json} (hitems : ∀ item ∈ items, Plain item) :
      Plain (.array items)
  | object {members : List (Text × Json)}
      (hnames : ∀ member ∈ members, IsText member.1)
      (hvalues : ∀ member ∈ members, Plain member.2) :
      Plain (.object members)

/-- A value that is read back from its spelling, with no more fuel than the
spelling is long. -/
def ReadsBack (value : Json) : Prop :=
  ∀ depth fuel rest, (spell depth value).length ≤ fuel → Stops rest →
    readValue fuel (spell depth value ++ rest) = some (value, rest)

theorem exists_spellInteger (value : Int) :
    ∃ c rest, spellInteger value = c :: rest ∧
      (c.isDigit = true ∨ c = '-') := by
  unfold spellInteger
  split
  · exact ⟨_, _, rfl, Or.inr rfl⟩
  · obtain ⟨c, digits, hdigits, hc⟩ := exists_decimalDigits value.natAbs
    exact ⟨c, digits, hdigits, Or.inl hc⟩

/-- A spelling begins with what neither is blank nor closes an array. -/
theorem Plain.spell_head {value : Json} (hplain : Plain value) (depth : Nat) :
    ∃ c rest, spell depth value = c :: rest ∧ isBlank c = false ∧
      c ≠ ']' := by
  cases hplain with
  | null => exact ⟨_, _, rfl, rfl, by decide⟩
  | bool value => cases value <;> exact ⟨_, _, rfl, rfl, by decide⟩
  | integer value =>
      obtain ⟨c, rest, hspell, hc⟩ := exists_spellInteger value
      refine ⟨c, rest, hspell, isBlank_eq_false hc, ?_⟩
      rintro rfl
      exact absurd hc (by decide)
  | text _ => exact ⟨_, _, rfl, rfl, by decide⟩
  | @array items _ => cases items <;> exact ⟨_, _, rfl, rfl, by decide⟩
  | @object members _ _ =>
      rcases members with _ | ⟨⟨name, value⟩, members⟩ <;>
        exact ⟨_, _, rfl, rfl, by decide⟩

theorem stops_spellItems (depth : Nat) (items : List Json) (rest : List Char) :
    Stops (spellItems depth items ++ rest) := by
  cases items <;> exact stops_cons _ (by decide)

theorem stops_spellMembers (depth : Nat) (members : List (Text × Json))
    (rest : List Char) : Stops (spellMembers depth members ++ rest) := by
  rcases members with _ | ⟨⟨name, value⟩, members⟩ <;>
    exact stops_cons _ (by decide)

/-- A list of items is read back if every item is. -/
theorem readItems_spellItems {items : List Json}
    (hitems : ∀ item ∈ items, ReadsBack item) (depth fuel : Nat)
    (rest : List Char) (hfuel : (spellItems depth items).length ≤ fuel) :
    readItems fuel (spellItems depth items ++ rest) = some (items, rest) := by
  induction items generalizing fuel with
  | nil =>
      obtain _ | fuel := fuel
      · simp [spellItems] at hfuel
      rw [spellItems, List.append_assoc, readItems, skipBlanks_lineBreak]
      rfl
  | cons item items ih =>
      rw [List.forall_mem_cons] at hitems
      obtain ⟨hitem, hothers⟩ := hitems
      obtain _ | fuel := fuel
      · simp [spellItems] at hfuel
      simp only [spellItems, List.length_cons, List.length_append] at hfuel
      have hread := hitem (depth + 1) fuel _ (by omega)
        (stops_spellItems depth items rest)
      have hnext := ih hothers fuel (by omega)
      rw [spellItems, List.cons_append, readItems, skipBlanks_cons rfl]
      simp only [List.append_assoc, readValue_lineBreak, hread, hnext,
        Option.bind_eq_bind, Option.bind_some, Option.pure_def]

theorem readMember_spell {name : Text} (hname : IsText name) {value : Json}
    (hvalue : ReadsBack value) (depth fuel : Nat) (rest : List Char)
    (hfuel : (spell depth value).length < fuel) (hstops : Stops rest) :
    readMember fuel (spellText name ++ [':', ' '] ++ spell depth value ++
      rest) = some ((name, value), rest) := by
  obtain _ | fuel := fuel
  · omega
  obtain ⟨body, flag, hspell, hread⟩ := readText_spellText hname
    ([':', ' '] ++ (spell depth value ++ rest))
  have hvalue := hvalue depth fuel rest (by omega) hstops
  have hblank : ∀ c ∈ [' '], isBlank c = true := by
    intro c hc
    rw [List.mem_singleton.mp hc]
    rfl
  rw [← readValue_append [' '] hblank] at hvalue
  simp only [List.append_assoc]
  rw [hspell, readMember, skipBlanks_cons rfl]
  simp only [hread, Option.bind_eq_bind, Option.bind_some]
  rw [List.cons_append, skipBlanks_cons rfl]
  simp only [hvalue, Option.bind_some, Option.pure_def]

theorem readMembers_spellMembers {members : List (Text × Json)}
    (hnames : ∀ member ∈ members, IsText member.1)
    (hvalues : ∀ member ∈ members, ReadsBack member.2) (depth fuel : Nat)
    (rest : List Char)
    (hfuel : (spellMembers depth members).length ≤ fuel) :
    readMembers fuel (spellMembers depth members ++ rest) =
      some (members, rest) := by
  induction members generalizing fuel with
  | nil =>
      obtain _ | fuel := fuel
      · simp [spellMembers] at hfuel
      rw [spellMembers, List.append_assoc, readMembers, skipBlanks_lineBreak]
      rfl
  | cons member members ih =>
      obtain ⟨name, value⟩ := member
      rw [List.forall_mem_cons] at hnames hvalues
      obtain _ | fuel := fuel
      · simp [spellMembers] at hfuel
      simp only [spellMembers, List.length_cons, List.length_append] at hfuel
      have hvalue : ReadsBack value := hvalues.1
      have hread := readMember_spell hnames.1 hvalue (depth + 1) fuel _
        (by omega) (stops_spellMembers depth members rest)
      have hnext := ih hnames.2 hvalues.2 fuel (by omega)
      rw [spellMembers, List.cons_append, readMembers, skipBlanks_cons rfl]
      simp only [List.append_assoc, readMember_lineBreak] at hread ⊢
      simp only [hread, hnext, Option.bind_eq_bind, Option.bind_some,
        Option.pure_def]

theorem readsBack_integer (value : Int) : ReadsBack (.integer value) := by
  intro depth fuel rest hfuel hstops
  obtain ⟨c, digits, hspell, hc⟩ := exists_spellInteger value
  have hread := readNumber_spellInteger value hstops
  obtain _ | fuel := fuel
  · simp [spell, hspell] at hfuel
  rw [spell]
  rw [hspell, List.cons_append] at hread ⊢
  rw [readValue, skipBlanks_cons (isBlank_eq_false hc)]
  split
  case h_7 => exact hread
  all_goals
    rename_i heq
    obtain ⟨rfl, -⟩ := List.cons.inj heq
    exact absurd hc (by decide)

theorem readsBack_text {points : Text} (htext : IsText points) :
    ReadsBack (.text points) := by
  intro depth fuel rest hfuel hstops
  obtain ⟨body, flag, hspell, hread⟩ := readText_spellText htext rest
  obtain _ | fuel := fuel
  · simp [spell, spellText] at hfuel
  rw [spell, hspell, readValue, skipBlanks_cons rfl]
  simp only [hread, Option.bind_eq_bind, Option.bind_some, Option.pure_def]

theorem readsBack_array {items : List Json}
    (hplain : ∀ item ∈ items, Plain item)
    (hitems : ∀ item ∈ items, ReadsBack item) : ReadsBack (.array items) := by
  intro depth fuel rest hfuel hstops
  obtain _ | fuel := fuel
  · cases items <;> simp [spell] at hfuel
  cases items with
  | nil => rfl
  | cons item items =>
      rw [List.forall_mem_cons] at hplain hitems
      simp only [spell, List.length_cons, List.length_append] at hfuel
      have hread := hitems.1 (depth + 1) fuel _ (by omega)
        (stops_spellItems depth items rest)
      have hnext := readItems_spellItems hitems.2 depth fuel rest (by omega)
      obtain ⟨c, body, hspell, hblank, hc⟩ :=
        hplain.1.spell_head (depth + 1)
      rw [spell, List.cons_append, readValue, skipBlanks_cons rfl]
      simp only [List.append_assoc, skipBlanks_lineBreak]
      rw [hspell, List.cons_append] at hread ⊢
      rw [skipBlanks_cons hblank]
      split
      · rename_i heq
        exact absurd (List.cons.inj heq).1 hc
      · simp only [hread, hnext, Option.bind_eq_bind, Option.bind_some,
          Option.pure_def]

theorem readsBack_object {members : List (Text × Json)}
    (hnames : ∀ member ∈ members, IsText member.1)
    (hvalues : ∀ member ∈ members, ReadsBack member.2) :
    ReadsBack (.object members) := by
  intro depth fuel rest hfuel hstops
  obtain _ | fuel := fuel
  · rcases members with _ | ⟨⟨name, value⟩, members⟩ <;> simp [spell] at hfuel
  rcases members with _ | ⟨⟨name, value⟩, members⟩
  · rfl
  · rw [List.forall_mem_cons] at hnames hvalues
    have hvalue : ReadsBack value := hvalues.1
    simp only [spell, List.length_cons, List.length_append] at hfuel
    have hread := readMember_spell hnames.1 hvalue (depth + 1) fuel _
      (by omega) (stops_spellMembers depth members rest)
    have hnext := readMembers_spellMembers hnames.2 hvalues.2 depth fuel rest
      (by omega)
    rw [spell, List.cons_append, readValue, skipBlanks_cons rfl]
    simp only [List.append_assoc, skipBlanks_lineBreak] at hread ⊢
    obtain ⟨body, flag, hspell, -⟩ := readText_spellText hnames.1
      ([':', ' '] ++ (spell (depth + 1) value ++
        (spellMembers depth members ++ rest)))
    rw [hspell] at hread ⊢
    rw [skipBlanks_cons rfl]
    split
    · rename_i heq
      exact absurd (List.cons.inj heq).1 (by decide)
    · simp only [hread, hnext, Option.bind_eq_bind, Option.bind_some,
        Option.pure_def]

theorem Plain.readsBack {value : Json} (hplain : Plain value) :
    ReadsBack value := by
  induction hplain with
  | null =>
      intro depth fuel rest hfuel hstops
      obtain _ | fuel := fuel
      · simp [spell] at hfuel
      rfl
  | bool value =>
      intro depth fuel rest hfuel hstops
      obtain _ | fuel := fuel
      · cases value <;> simp [spell] at hfuel
      cases value <;> rfl
  | integer value => exact readsBack_integer value
  | text htext => exact readsBack_text htext
  | array hitems ih => exact readsBack_array hitems ih
  | object hnames _ ih => exact readsBack_object hnames ih

/-- Reading undoes printing. -/
theorem Plain.read?_print {value : Json} (hplain : Plain value) :
    read? value.print = some value := by
  have hread := hplain.readsBack 0 (2 * value.print.length + 2) []
    (by rw [print]; omega) (fun _ hc => by simp at hc)
  rw [List.append_nil] at hread
  simp only [read?, print] at hread ⊢
  rw [hread]
  rfl

end SessionRaft.Json
