/-
The wire format as a whole.  A value of any of its types is read back from the
front of whatever it is written in front of, so that a series of messages is
read back one by one; and the bytes that are read are the bytes that the value
is written in, so that there is no second way to write it.
-/
import SessionRaft.Proofs.WireTypes

namespace SessionRaft

open Layout

/-- The types that have a place on the wire. -/
inductive WireType where
  | unit
  | operation
  | logEntry
  | voteRequest
  | vote
  | appendRequest
  | appended
  | registerRequest
  | registered
  | keepAliveRequest
  | keptAlive
  | unregisterRequest
  | commandRequest
  | commandOutput
  | queryRequest
  | queryOutput
  | publishRequest
  | publishAck
  | message
  /-- An answer with content of a type that has a place on the wire. -/
  | response (content : WireType)
deriving DecidableEq

namespace WireType

abbrev Value : WireType → Type
  | unit => Unit
  | operation => Operation
  | logEntry => LogEntry
  | voteRequest => VoteRequest
  | vote => Vote
  | appendRequest => AppendRequest
  | appended => Appended
  | registerRequest => RegisterRequest
  | registered => Registered
  | keepAliveRequest => KeepAliveRequest
  | keptAlive => KeptAlive
  | unregisterRequest => UnregisterRequest
  | commandRequest => CommandRequest
  | commandOutput => CommandOutput
  | queryRequest => QueryRequest
  | queryOutput => QueryOutput
  | publishRequest => PublishRequest
  | publishAck => PublishAck
  | message => Message
  | response content => Response content.Value

def layout : (type : WireType) → Layout type.Value
  | unit => Layout.unit
  | operation => Operation.layout
  | logEntry => LogEntry.layout
  | voteRequest => VoteRequest.layout
  | vote => Vote.layout
  | appendRequest => AppendRequest.layout
  | appended => Appended.layout
  | registerRequest => RegisterRequest.layout
  | registered => Registered.layout
  | keepAliveRequest => KeepAliveRequest.layout
  | keptAlive => KeptAlive.layout
  | unregisterRequest => UnregisterRequest.layout
  | commandRequest => CommandRequest.layout
  | commandOutput => CommandOutput.layout
  | queryRequest => QueryRequest.layout
  | queryOutput => QueryOutput.layout
  | publishRequest => PublishRequest.layout
  | publishAck => PublishAck.layout
  | message => Message.layout
  | response content => responseLayout content.layout

/-- The value's numbers fit machine words, and its lists and byte strings fit
their length fields. -/
def Fits : (type : WireType) → type.Value → Prop
  | unit => fun _ => True
  | operation => Operation.Fits
  | logEntry => LogEntry.Fits
  | voteRequest => VoteRequest.Fits
  | vote => Vote.Fits
  | appendRequest => AppendRequest.Fits
  | appended => Appended.Fits
  | registerRequest => RegisterRequest.Fits
  | registered => Registered.Fits
  | keepAliveRequest => KeepAliveRequest.Fits
  | keptAlive => KeptAlive.Fits
  | unregisterRequest => UnregisterRequest.Fits
  | commandRequest => CommandRequest.Fits
  | commandOutput => CommandOutput.Fits
  | queryRequest => QueryRequest.Fits
  | queryOutput => QueryOutput.Fits
  | publishRequest => PublishRequest.Fits
  | publishAck => PublishAck.Fits
  | message => Message.Fits
  | response content => Response.Fits content.Fits

theorem layout_lawful (type : WireType) : type.layout.Lawful type.Fits := by
  induction type with
  | unit => exact unit_lawful
  | operation => exact Operation.layout_lawful
  | logEntry => exact LogEntry.layout_lawful
  | voteRequest => exact VoteRequest.layout_lawful
  | vote => exact Vote.layout_lawful
  | appendRequest => exact AppendRequest.layout_lawful
  | appended => exact Appended.layout_lawful
  | registerRequest => exact RegisterRequest.layout_lawful
  | registered => exact Registered.layout_lawful
  | keepAliveRequest => exact KeepAliveRequest.layout_lawful
  | keptAlive => exact KeptAlive.layout_lawful
  | unregisterRequest => exact UnregisterRequest.layout_lawful
  | commandRequest => exact CommandRequest.layout_lawful
  | commandOutput => exact CommandOutput.layout_lawful
  | queryRequest => exact QueryRequest.layout_lawful
  | queryOutput => exact QueryOutput.layout_lawful
  | publishRequest => exact PublishRequest.layout_lawful
  | publishAck => exact PublishAck.layout_lawful
  | message => exact Message.layout_lawful
  | response content ih => exact responseLayout_lawful ih

/-- Only the empty value is read from no bytes. -/
theorem decode_nil {type : WireType} (htype : type ≠ unit) :
    type.layout.decode [] = .error .truncated := by
  cases type
  case unit => exact absurd rfl htype
  all_goals rfl

end WireType

/-! ### Complete messages and streams -/

namespace Layout

variable {α : Type} {layout : Layout α} {fits : α → Prop}

/-- A complete message is one that leaves nothing unread. -/
theorem decodeAll_eq_ok_iff {input : Bytes} {value : α} :
    decodeAll layout input = .ok value ↔
      layout.decode input = .ok (value, []) := by
  simp only [decodeAll, bind_eq_ok_iff, Prod.exists]
  constructor
  · rintro ⟨read, rest, hread, hvalue⟩
    cases rest with
    | nil =>
        obtain rfl := Except.ok.inj hvalue
        exact hread
    | cons next rest => simp [throw, throwThe, MonadExceptOf.throw] at hvalue
  · intro hread
    exact ⟨value, [], hread, rfl⟩

/-- The complete messages are the values as they are written. -/
theorem Lawful.decodeAll_eq_ok_iff (hlayout : layout.Lawful fits)
    {input : Bytes} {value : α} :
    decodeAll layout input = .ok value ↔ layout.encode value = .ok input := by
  rw [Layout.decodeAll_eq_ok_iff]
  constructor
  · intro hread
    obtain ⟨front, hfront, rfl⟩ := hlayout.exact _ _ _ hread
    rw [hfront, List.append_nil]
  · intro hwrite
    have hread := hlayout.reads _ _ [] hwrite
    rwa [List.append_nil] at hread

/-- A stream of values is read to its end.  A layout that reads no bytes would
leave it unclear where the stream ends. -/
theorem Lawful.decodeStream_encodeMany (hlayout : layout.Lawful fits)
    (hempty : layout.decode [] = .error .truncated) {values : List α}
    {bytes : Bytes} (hbytes : Layout.encodeMany layout values = .ok bytes)
    {limit : Nat} (hlimit : values.length ≤ limit) :
    (decodeStream layout limit bytes).1.map Prod.fst = values ∧
      (decodeStream layout limit bytes).2 = none := by
  induction values generalizing bytes limit with
  | nil =>
      obtain rfl := Except.ok.inj hbytes
      cases limit <;> exact ⟨rfl, rfl⟩
  | cons value values ih =>
      obtain ⟨front, back, hfront, hback, rfl⟩ :=
        encodeMany_cons_eq_ok_iff.mp hbytes
      obtain _ | limit := limit
      · simp at hlimit
      have hread := hlayout.reads _ _ back hfront
      obtain ⟨next, others, hinput⟩ :
          ∃ next others, front ++ back = next :: others := by
        apply List.exists_cons_of_ne_nil
        intro hnil
        rw [hnil, hempty] at hread
        simp at hread
      obtain ⟨hvalues, hend⟩ := ih hback (Nat.le_of_succ_le_succ hlimit)
      rw [hinput] at hread ⊢
      simp only [decodeStream, hread, List.map_cons, hvalues, hend, and_self]

end Layout

/-- A value together with its type. -/
structure Parcel where
  type : WireType
  value : type.Value

namespace Parcel

def Fits (parcel : Parcel) : Prop := parcel.type.Fits parcel.value

def writeAll : List Parcel → Except WireError Bytes
  | [] => .ok []
  | parcel :: parcels => do
      let front ← parcel.type.layout.encode parcel.value
      let back ← writeAll parcels
      return front ++ back

def readAll : List WireType → Bytes → Except WireError (List Parcel × Bytes)
  | [], input => .ok ([], input)
  | type :: types, input => do
      let (value, rest) ← type.layout.decode input
      let (parcels, rest) ← readAll types rest
      return (⟨type, value⟩ :: parcels, rest)

/-- Each value is read where the one before it ends. -/
theorem readAll_writeAll {parcels : List Parcel}
    (hfits : ∀ parcel ∈ parcels, parcel.Fits) :
    ∃ bytes, writeAll parcels = .ok bytes ∧
      ∀ rest, readAll (parcels.map Parcel.type) (bytes ++ rest) =
        .ok (parcels, rest) := by
  induction parcels with
  | nil => exact ⟨[], rfl, fun _ => rfl⟩
  | cons parcel parcels ih =>
      rw [List.forall_mem_cons] at hfits
      obtain ⟨hparcel, hparcels⟩ := hfits
      have hlayout := parcel.type.layout_lawful
      obtain ⟨front, hfront⟩ := (hlayout.writes parcel.value).mpr hparcel
      obtain ⟨back, hback, hread⟩ := ih hparcels
      refine ⟨front ++ back, ?_, fun rest => ?_⟩
      · rw [writeAll, hfront, hback]
        rfl
      · rw [List.append_assoc, List.map_cons, readAll,
          hlayout.reads _ _ (back ++ rest) hfront]
        simp only [bind, Except.bind, hread rest, pure, Except.pure]

end Parcel

/-! ### Reading and writing undo each other -/

/-- Every value that fits is written, and is read back from the front of
whatever follows it.  So is a series of values, of any types or of one. -/
theorem decode_encode :
    (∀ (type : WireType) (value : type.Value), type.Fits value →
      ∃ front, type.layout.encode value = .ok front ∧
        (∀ rest, type.layout.decode (front ++ rest) = .ok (value, rest)) ∧
        decodeAll type.layout front = .ok value) ∧
    (∀ parcels : List Parcel, (∀ parcel ∈ parcels, parcel.Fits) →
      ∃ bytes, Parcel.writeAll parcels = .ok bytes ∧
        ∀ rest, Parcel.readAll (parcels.map Parcel.type) (bytes ++ rest) =
          .ok (parcels, rest)) ∧
    (∀ (type : WireType) (values : List type.Value), type ≠ .unit →
      (∀ value ∈ values, type.Fits value) →
      ∃ bytes, encodeMany type.layout values = .ok bytes ∧
        ∀ limit, values.length ≤ limit →
          (decodeStream type.layout limit bytes).1.map Prod.fst = values ∧
            (decodeStream type.layout limit bytes).2 = none) := by
  refine ⟨fun type value hfits => ?_, fun parcels => Parcel.readAll_writeAll,
    fun type values htype hfits => ?_⟩
  · have hlayout := type.layout_lawful
    obtain ⟨front, hfront⟩ := (hlayout.writes value).mpr hfits
    exact ⟨front, hfront, fun rest => hlayout.reads _ _ rest hfront,
      hlayout.decodeAll_eq_ok_iff.mpr hfront⟩
  · obtain ⟨bytes, hbytes⟩ := (type.layout_lawful.encodeMany values).mpr hfits
    exact ⟨bytes, hbytes, fun limit hlimit =>
      type.layout_lawful.decodeStream_encodeMany (WireType.decode_nil htype)
        hbytes hlimit⟩

namespace Witness

/-- A batch with one command, an acknowledged event and a refusal. -/
def parcels : List Parcel :=
  [⟨.message, .appendRequest
      ⟨3, 1, 4, 2, [⟨3, 5, .command 9 1 700 [1, 2, 3]⟩], 4, 8⟩⟩,
    ⟨.response .publishAck, .ok ⟨2, 6⟩⟩,
    ⟨.message, .unregisterResponse (.error .noLeader)⟩]

theorem parcels_fit : ∀ parcel ∈ parcels, parcel.Fits := by
  simp only [parcels, List.forall_mem_cons, List.not_mem_nil,
    IsEmpty.forall_iff, implies_true, and_true, Parcel.Fits, WireType.Fits,
    Message.Fits, AppendRequest.Fits, LogEntry.Fits, Operation.Fits,
    Response.Fits, PublishAck.Fits, IsWord, IsShort, List.length_cons,
    List.length_nil]
  decide

theorem parcels_read_back :
    ∃ bytes, Parcel.writeAll parcels = .ok bytes ∧
      Parcel.readAll [.message, .response .publishAck, .message]
        (bytes ++ [0, 255]) = .ok (parcels, [0, 255]) := by
  obtain ⟨bytes, hbytes, hread⟩ := decode_encode.2.1 parcels parcels_fit
  exact ⟨bytes, hbytes, hread [0, 255]⟩

end Witness

/-- What is read is what its value is written in, and what is left. -/
theorem encode_decode :
    (∀ (type : WireType) (input : Bytes) (value : type.Value) (rest : Bytes),
      type.layout.decode input = .ok (value, rest) →
        type.Fits value ∧ ∃ front,
          type.layout.encode value = .ok front ∧ front ++ rest = input) ∧
    (∀ (type : WireType) (input : Bytes) (value : type.Value),
      decodeAll type.layout input = .ok value ↔
        type.layout.encode value = .ok input) ∧
    (∀ (type : WireType) (first second : Bytes) (value : type.Value),
      decodeAll type.layout first = .ok value →
        decodeAll type.layout second = .ok value → first = second) ∧
    (∀ (input : Bytes) (ack : PublishAck) (rest : Bytes),
      PublishAck.layout.decode input = .ok (ack, rest) →
        ∃ version sequence : Int,
          (signed.seq signed).decode input = .ok ((version, sequence), rest) ∧
            0 ≤ version ∧ 0 ≤ sequence ∧
            version = ack.version ∧ sequence = ack.sequence) := by
  refine ⟨fun type input value rest hread => ?_,
    fun type input value => type.layout_lawful.decodeAll_eq_ok_iff,
    fun type first second value hfirst hsecond => ?_,
    fun input ack rest hread => ?_⟩
  · obtain ⟨front, hfront, happend⟩ := type.layout_lawful.exact _ _ _ hread
    exact ⟨(type.layout_lawful.writes value).mp ⟨front, hfront⟩, front, hfront,
      happend⟩
  · rw [type.layout_lawful.decodeAll_eq_ok_iff] at hfirst hsecond
    exact Except.ok.inj (hfirst.symm.trans hsecond)
  · obtain ⟨read, hread, hcheck⟩ := refine_decode_eq_ok_iff.mp hread
    obtain ⟨hversion, hsequence⟩ :=
      PublishAck.make_eq_ok_iff.mp (mapError_eq_ok_iff.mp hcheck)
    exact ⟨read.1, read.2, hread, by omega, by omega, hversion.symm,
      hsequence.symm⟩

namespace Witness

/-- An acknowledged event as it comes in, with a byte of what follows. -/
def acknowledgement : Bytes :=
  [16, 0, 0, 0, 0, 0, 0, 0, 0, 2, 0, 0, 0, 0, 0, 0, 0, 6, 99]

theorem acknowledgement_read :
    Message.layout.decode acknowledgement =
      .ok (.publishResponse (.ok ⟨2, 6⟩), [99]) := rfl

theorem acknowledgement_written :
    ∃ front, Message.layout.encode (.publishResponse (.ok ⟨2, 6⟩)) =
        .ok front ∧ front ++ [99] = acknowledgement :=
  (encode_decode.1 .message acknowledgement _ _ acknowledgement_read).2

end Witness

end SessionRaft
