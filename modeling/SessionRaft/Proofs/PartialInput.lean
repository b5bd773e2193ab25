/-
Reading while the input is still coming in.  More input changes no outcome but
the one that the bytes end before the value does, and enough input always
changes that one; so a reader that waits for more bytes exactly then reads what
it would have read at once.
-/
import SessionRaft.Proofs.WireFormat

namespace SessionRaft

namespace Layout

variable {α β : Type}

/-- What becomes of the outcome of a reader as its input goes on: only that
the input is too short is not final, and no input stays too short. -/
structure Settles (read : Bytes → Except WireError (α × Bytes)) : Prop where
  value : ∀ input value rest, read input = .ok (value, rest) →
    ∀ more, read (input ++ more) = .ok (value, rest ++ more)
  error : ∀ input error, read input = .error error → error ≠ .truncated →
    ∀ more, read (input ++ more) = .error error
  enough : ∀ input, ∃ more, read (input ++ more) ≠ .error .truncated

/-! ### Readers -/

/-- A reader that takes nothing off the input. -/
theorem settles_pure (value : α) :
    Settles (fun input => .ok (value, input)) where
  value input read rest hread more := by
    obtain ⟨rfl, rfl⟩ := Prod.mk.inj (Except.ok.inj hread)
    rfl
  error input error herror := by simp at herror
  enough input := ⟨[], by simp⟩

/-- A reader that refuses whatever comes. -/
theorem settles_refusal {error : WireError} (herror : error ≠ .truncated) :
    Settles (fun _ => (.error error : Except WireError (α × Bytes))) where
  value input value rest hread := by simp at hread
  error input found hfound _ more := hfound
  enough input := ⟨[], by simpa using herror⟩

/-- One reader after another, where the second may depend on the value that
the first has read. -/
theorem Settles.bind {first : Bytes → Except WireError (α × Bytes)}
    {next : α → Bytes → Except WireError (β × Bytes)} (hfirst : Settles first)
    (hnext : ∀ value, Settles (next value)) :
    Settles (fun input => first input >>= fun read => next read.1 read.2) where
  value input value rest hread more := by
    obtain ⟨⟨head, middle⟩, hhead, hrest⟩ := bind_eq_ok_iff.mp hread
    exact bind_eq_ok_iff.mpr ⟨(head, middle ++ more),
      hfirst.value _ _ _ hhead more, (hnext head).value _ _ _ hrest more⟩
  error input error hread herror more := by
    cases hhead : first input with
    | error found =>
        rw [hhead] at hread
        obtain rfl := Except.error.inj hread
        rw [hfirst.error _ _ hhead herror more]
        rfl
    | ok read =>
        rw [hhead] at hread
        rw [hfirst.value _ _ _ hhead more]
        exact (hnext read.1).error _ _ hread herror more
  enough input := by
    obtain ⟨more, hmore⟩ := hfirst.enough input
    cases hhead : first (input ++ more) with
    | error found =>
        refine ⟨more, fun hshort => hmore ?_⟩
        rw [hhead] at hshort ⊢
        obtain rfl := Except.error.inj hshort
        rfl
    | ok read =>
        -- What the first one leaves may still be too short for the second.
        obtain ⟨further, hfurther⟩ := (hnext read.1).enough read.2
        refine ⟨more ++ further, ?_⟩
        rw [← List.append_assoc, hfirst.value _ _ _ hhead further]
        exact hfurther

theorem settles_splitBytes (count : Nat) : Settles (splitBytes count) where
  value input front rest hread more := by
    rw [splitBytes_eq_ok_iff] at hread ⊢
    obtain ⟨hlength, rfl⟩ := hread
    exact ⟨hlength, (List.append_assoc front rest more).symm⟩
  error input error hread herror := by
    unfold splitBytes at hread
    split at hread
    · exact absurd (Except.error.inj hread).symm herror
    · simp at hread
  enough input := by
    refine ⟨List.replicate count 0, ?_⟩
    rw [splitBytes, if_neg]
    · simp
    · rw [List.length_append, List.length_replicate]
      omega

theorem settles_byte : Settles byte.decode where
  value input value rest hread more := by
    cases input with
    | nil => simp [byte] at hread
    | cons first others =>
        obtain ⟨rfl, rfl⟩ := Prod.mk.inj (Except.ok.inj hread)
        rfl
  error input error hread herror := by
    cases input with
    | nil => exact absurd (Except.error.inj hread).symm herror
    | cons first others => simp [byte] at hread
  enough input := by
    refine ⟨[0], ?_⟩
    cases input <;> simp [byte]

theorem Settles.decodeMany {item : Layout α} (hitem : Settles item.decode)
    (count : Nat) : Settles (decodeMany item count) := by
  induction count with
  | zero => exact settles_pure []
  | succ count ih =>
      exact hitem.bind (fun value =>
        ih.bind (fun values => settles_pure (value :: values)))

/-! ### Layouts -/

theorem settles_word (width : Nat) : Settles (word width).decode :=
  (settles_splitBytes width).bind
    (fun digits => settles_pure (ofBigEndian digits))

theorem settles_number : Settles number.decode := settles_word 8

theorem settles_signed : Settles signed.decode :=
  settles_number.bind (fun value => settles_pure
    (if value < signedBound then (value : Int) else value - wordBound))

theorem settles_unit : Settles unit.decode := settles_pure ()

section Parts

variable {layout : Layout α} {other : Layout β}

theorem Settles.seq (hfirst : Settles layout.decode)
    (hsecond : Settles other.decode) : Settles (layout.seq other).decode :=
  hfirst.bind (fun value => hsecond.bind (fun next => settles_pure (value, next)))

theorem Settles.imap {forth : α → β} {back : β → α}
    (hlayout : Settles layout.decode) :
    Settles (layout.imap forth back).decode :=
  hlayout.bind (fun value => settles_pure (forth value))

theorem Settles.arm {inject : α → β} {project : β → Option α}
    (hlayout : Settles layout.decode) :
    Settles (layout.arm inject project).decode :=
  hlayout.bind (fun value => settles_pure (inject value))

/-- A check comes when its value has been read, so it does not ask for more
input. -/
theorem Settles.refine {check : α → Except WireError β} {back : β → α}
    (hlayout : Settles layout.decode)
    (hcheck : ∀ value, check value ≠ .error .truncated) :
    Settles (layout.refine check back).decode := by
  have hchecks : ∀ value, Settles fun input => do
      let checked ← check value
      return (checked, input) := by
    intro value
    have hvalue := hcheck value
    cases hchecked : check value with
    | ok checked => exact settles_pure checked
    | error error =>
        rw [hchecked] at hvalue
        exact settles_refusal (fun htruncated => hvalue (htruncated ▸ rfl))
  exact hlayout.bind hchecks

theorem Settles.list (hlayout : Settles layout.decode) :
    Settles (list layout).decode :=
  (settles_word 4).bind hlayout.decodeMany

theorem settles_bytes : Settles bytes.decode :=
  (settles_word 4).bind settles_splitBytes

/-- What is read behind a tag. -/
def follow (unknown : UInt8 → WireError) (arms : List (UInt8 × Layout α))
    (tag : UInt8) (rest : Bytes) : Except WireError (α × Bytes) :=
  match findArm arms tag with
  | none => .error (unknown tag)
  | some layout => layout.decode rest

def ArmsSettle (arms : List (UInt8 × Layout α)) : Prop :=
  ∀ arm ∈ arms, Settles arm.2.decode

theorem ArmsSettle.nil : ArmsSettle ([] : List (UInt8 × Layout α)) :=
  fun _ harm => absurd harm List.not_mem_nil

theorem ArmsSettle.cons {tag : UInt8} {arms : List (UInt8 × Layout α)}
    (hlayout : Settles layout.decode) (harms : ArmsSettle arms) :
    ArmsSettle ((tag, layout) :: arms) :=
  List.forall_mem_cons.mpr ⟨hlayout, harms⟩

theorem ArmsSettle.follow {unknown : UInt8 → WireError}
    {arms : List (UInt8 × Layout α)} (harms : ArmsSettle arms)
    (hunknown : ∀ tag, unknown tag ≠ .truncated) (tag : UInt8) :
    Settles (follow unknown arms tag) := by
  unfold Layout.follow
  cases hfound : findArm arms tag with
  | none => exact settles_refusal (hunknown tag)
  | some layout => exact harms _ (mem_of_findArm hfound)

/-- The tag decides what follows it. -/
theorem ArmsSettle.choice {unknown : UInt8 → WireError} {tagOf : α → UInt8}
    {arms : List (UInt8 × Layout α)} (harms : ArmsSettle arms)
    (hunknown : ∀ tag, unknown tag ≠ .truncated) :
    Settles (choice unknown tagOf arms).decode := by
  have hdecode : (Layout.choice unknown tagOf arms).decode = fun input =>
      byte.decode input >>= fun read =>
        Layout.follow unknown arms read.1 read.2 := by
    funext input
    cases input <;> rfl
  rw [hdecode]
  exact settles_byte.bind (harms.follow hunknown)

end Parts

/-! ### Reading what comes in pieces -/

variable {layout : Layout α} {fits : α → Prop}

/-- Read a value from what is there, and take in another piece as long as that
is too short.  What comes after the value stays unread. -/
def receive (layout : Layout α) (held : Bytes) :
    List Bytes → Except WireError (α × Bytes)
  | [] => layout.decode held
  | piece :: pieces =>
      match layout.decode held with
      | .error .truncated => receive layout (held ++ piece) pieces
      | .error error => .error error
      | .ok (value, rest) => .ok (value, rest ++ (piece :: pieces).flatten)

/-- Where the input is cut makes no difference. -/
theorem Settles.receive_eq (hlayout : Settles layout.decode)
    (held : Bytes) (pieces : List Bytes) :
    receive layout held pieces = layout.decode (held ++ pieces.flatten) := by
  induction pieces generalizing held with
  | nil => rw [List.flatten_nil, List.append_nil, receive]
  | cons piece pieces ih =>
      rw [receive]
      split
      · rw [ih, List.flatten_cons, List.append_assoc]
      · rename_i error hfinal herror
        exact (hlayout.error _ _ herror hfinal _).symm
      · rename_i value rest hvalue
        exact (hlayout.value _ _ _ hvalue _).symm

/-- A part of a written value that lacks its end is too short, and nothing else
is wrong with it. -/
theorem Settles.decode_part (hlayout : Settles layout.decode)
    (hlawful : layout.Lawful fits) {value : α} {front back : Bytes}
    (hwritten : layout.encode value = .ok (front ++ back))
    (hback : back ≠ []) : layout.decode front = .error .truncated := by
  have hwhole := hlawful.reads value _ [] hwritten
  rw [List.append_nil] at hwhole
  cases hread : layout.decode front with
  | ok read =>
      rw [hlayout.value _ _ _ hread back, Except.ok.injEq,
        Prod.mk.injEq] at hwhole
      exact absurd (List.append_eq_nil_iff.mp hwhole.2).2 hback
  | error error =>
      by_cases htruncated : error = .truncated
      · rw [htruncated]
      · rw [hlayout.error _ _ hread htruncated back] at hwhole
        simp at hwhole

end Layout

/-! ### The types on the wire -/

open Layout

theorem settles_boolLayout : Settles boolLayout.decode :=
  (ArmsSettle.cons settles_unit.arm <| .cons settles_unit.arm .nil).choice
    (by simp)

theorem settles_errorKindLayout : Settles errorKindLayout.decode := by
  refine settles_byte.refine (fun id => ?_)
  split <;> simp

theorem Layout.Settles.response {α : Type} {layout : Layout α}
    (hlayout : Settles layout.decode) :
    Settles (responseLayout layout).decode :=
  (ArmsSettle.cons hlayout.arm <| .cons settles_errorKindLayout.arm .nil).choice
    (by simp)

theorem Consistency.settles_layout : Settles Consistency.layout.decode :=
  (ArmsSettle.cons settles_unit.arm <| .cons settles_unit.arm .nil).choice
    (by simp)

theorem Operation.settles_layout : Settles Operation.layout.decode := by
  refine ArmsSettle.choice ?_ (by simp)
  refine .cons settles_unit.arm ?_
  refine .cons (settles_number.seq (settles_number.seq settles_number)).arm ?_
  refine .cons (settles_number.seq (settles_number.seq
    (settles_signed.seq settles_number))).arm ?_
  refine .cons (settles_number.seq settles_number).arm ?_
  exact .cons (settles_number.seq (settles_number.seq
    (settles_number.seq settles_bytes))).arm .nil

theorem LogEntry.settles_layout : Settles LogEntry.layout.decode :=
  (settles_number.seq (settles_number.seq Operation.settles_layout)).imap

theorem VoteRequest.settles_layout : Settles VoteRequest.layout.decode :=
  (settles_number.seq (settles_number.seq
    (settles_number.seq settles_number))).imap

theorem Vote.settles_layout : Settles Vote.layout.decode :=
  (settles_number.seq settles_boolLayout).imap

theorem AppendRequest.settles_layout : Settles AppendRequest.layout.decode :=
  (settles_number.seq (settles_number.seq (settles_number.seq
    (settles_number.seq (settles_number.seq (settles_number.seq
      LogEntry.settles_layout.list)))))).imap

theorem Appended.settles_layout : Settles Appended.layout.decode :=
  (settles_number.seq (settles_boolLayout.seq
    (settles_number.seq settles_number))).imap

theorem RegisterRequest.settles_layout :
    Settles RegisterRequest.layout.decode :=
  (settles_number.seq settles_number).imap

theorem Registered.settles_layout : Settles Registered.layout.decode :=
  (settles_number.seq (settles_number.seq
    (settles_number.list.seq settles_number))).imap

theorem KeepAliveRequest.settles_layout :
    Settles KeepAliveRequest.layout.decode :=
  (settles_number.seq (settles_number.seq settles_signed)).imap

theorem KeptAlive.settles_layout : Settles KeptAlive.layout.decode :=
  (settles_number.seq settles_number.list).imap

theorem UnregisterRequest.settles_layout :
    Settles UnregisterRequest.layout.decode :=
  settles_number.imap

theorem CommandRequest.settles_layout : Settles CommandRequest.layout.decode :=
  (settles_number.seq (settles_number.seq settles_bytes)).imap

theorem CommandOutput.settles_layout : Settles CommandOutput.layout.decode :=
  (settles_number.seq settles_bytes).imap

theorem QueryRequest.settles_layout : Settles QueryRequest.layout.decode :=
  (settles_number.seq (settles_number.seq
    (Consistency.settles_layout.seq settles_bytes))).imap

theorem QueryOutput.settles_layout : Settles QueryOutput.layout.decode :=
  (settles_number.seq settles_bytes).imap

theorem PublishRequest.settles_layout : Settles PublishRequest.layout.decode :=
  (settles_number.seq settles_signed).imap

/-- Both numbers of a label are there before either is refused. -/
theorem PublishAck.settles_layout : Settles PublishAck.layout.decode := by
  refine (settles_signed.seq settles_signed).refine ?_
  rintro ⟨version, sequence⟩
  change (PublishAck.make version sequence).mapError WireError.invalid ≠ _
  cases PublishAck.make version sequence <;> simp [Except.mapError]

theorem Message.settles_layout : Settles Message.layout.decode := by
  refine ArmsSettle.choice ?_ (by simp)
  refine .cons VoteRequest.settles_layout.arm ?_
  refine .cons Vote.settles_layout.response.arm ?_
  refine .cons AppendRequest.settles_layout.arm ?_
  refine .cons Appended.settles_layout.response.arm ?_
  refine .cons RegisterRequest.settles_layout.arm ?_
  refine .cons Registered.settles_layout.response.arm ?_
  refine .cons KeepAliveRequest.settles_layout.arm ?_
  refine .cons KeptAlive.settles_layout.response.arm ?_
  refine .cons UnregisterRequest.settles_layout.arm ?_
  refine .cons settles_unit.response.arm ?_
  refine .cons CommandRequest.settles_layout.arm ?_
  refine .cons CommandOutput.settles_layout.response.arm ?_
  refine .cons QueryRequest.settles_layout.arm ?_
  refine .cons QueryOutput.settles_layout.response.arm ?_
  refine .cons PublishRequest.settles_layout.arm ?_
  exact .cons PublishAck.settles_layout.response.arm .nil

theorem WireType.settles_layout (type : WireType) :
    Settles type.layout.decode := by
  induction type with
  | unit => exact settles_unit
  | operation => exact Operation.settles_layout
  | logEntry => exact LogEntry.settles_layout
  | voteRequest => exact VoteRequest.settles_layout
  | vote => exact Vote.settles_layout
  | appendRequest => exact AppendRequest.settles_layout
  | appended => exact Appended.settles_layout
  | registerRequest => exact RegisterRequest.settles_layout
  | registered => exact Registered.settles_layout
  | keepAliveRequest => exact KeepAliveRequest.settles_layout
  | keptAlive => exact KeptAlive.settles_layout
  | unregisterRequest => exact UnregisterRequest.settles_layout
  | commandRequest => exact CommandRequest.settles_layout
  | commandOutput => exact CommandOutput.settles_layout
  | queryRequest => exact QueryRequest.settles_layout
  | queryOutput => exact QueryOutput.settles_layout
  | publishRequest => exact PublishRequest.settles_layout
  | publishAck => exact PublishAck.settles_layout
  | message => exact Message.settles_layout
  | response content ih => exact ih.response

/-- A value that was read, and an error other than that the input is too short,
stay what they are whatever comes after; a written value that lacks its end is
too short; what is too short can go on so that it is not; and whoever waits for
more just as long as the input is too short reads what stands in all of it. -/
theorem decode_settles (type : WireType) :
    (∀ (input : Bytes) (value : type.Value) (rest more : Bytes),
      type.layout.decode input = .ok (value, rest) →
        type.layout.decode (input ++ more) = .ok (value, rest ++ more)) ∧
    (∀ (input : Bytes) (error : WireError) (more : Bytes),
      type.layout.decode input = .error error → error ≠ .truncated →
        type.layout.decode (input ++ more) = .error error) ∧
    (∀ (value : type.Value) (front back : Bytes),
      type.layout.encode value = .ok (front ++ back) → back ≠ [] →
        type.layout.decode front = .error .truncated) ∧
    (∀ input : Bytes, ∃ more,
      type.layout.decode (input ++ more) ≠ .error .truncated) ∧
    ∀ (held : Bytes) (pieces : List Bytes),
      receive type.layout held pieces =
        type.layout.decode (held ++ pieces.flatten) := by
  have hlayout := type.settles_layout
  exact ⟨fun input value rest more hread => hlayout.value _ _ _ hread more,
    fun input error more hread herror => hlayout.error _ _ hread herror more,
    fun value front back hwritten hback =>
      hlayout.decode_part type.layout_lawful hwritten hback,
    hlayout.enough, hlayout.receive_eq⟩

namespace Witness

/-- An answer whose version is negative. -/
def negative : Bytes :=
  [16, 0, 255, 255, 255, 255, 255, 255, 255, 255, 0, 0, 0, 0, 0, 0, 0, 6]

/-- An acknowledged event is read up to its end whatever follows, a negative
version is refused for what it is, the first bytes of the event are too short,
and an event that comes in pieces is read as if it had come at once. -/
theorem decode_settles_pieces :
    (∀ more, Message.layout.decode (acknowledgement ++ more) =
      .ok (.publishResponse (.ok ⟨2, 6⟩), 99 :: more)) ∧
    (∀ more, Message.layout.decode (negative ++ more) =
      .error (.invalid (.negativeVersion (-1)))) ∧
    Message.layout.decode (acknowledgement.take 7) = .error .truncated ∧
    receive Message.layout (acknowledgement.take 1)
        [(acknowledgement.drop 1).take 8, acknowledgement.drop 9, [1, 2]] =
      .ok (.publishResponse (.ok ⟨2, 6⟩), [99, 1, 2]) := by
  obtain ⟨hvalue, herror, hpart, -, hreceive⟩ := decode_settles .message
  refine ⟨fun more => hvalue acknowledgement _ [99] more acknowledgement_read,
    fun more => herror negative _ more rfl (by decide),
    hpart (.publishResponse (.ok ⟨2, 6⟩)) _
      ((acknowledgement.take 18).drop 7) rfl (by decide),
    (hreceive _ _).trans (hvalue acknowledgement _ [99] [1, 2]
      acknowledgement_read)⟩

end Witness

end SessionRaft
