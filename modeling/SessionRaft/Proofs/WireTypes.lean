/-
The types that have a place on the wire, the values of each that can be sent,
and that the layout of each is lawful.  A value can be sent if its numbers fit
machine words and its lists and byte strings fit their length fields.
-/
import SessionRaft.Proofs.Layouts
import SessionRaft.Wire.Message

namespace SessionRaft

open Layout

/-! ### The values that can be sent -/

def Operation.Fits : Operation → Prop
  | noOp => True
  | register client timeout timestamp =>
      IsWord client ∧ IsWord timeout ∧ IsWord timestamp
  | keepAlive session commandSequence eventSequence timestamp =>
      IsWord session ∧ IsWord commandSequence ∧ IsSigned eventSequence ∧
        IsWord timestamp
  | unregister session timestamp => IsWord session ∧ IsWord timestamp
  | command session sequence timestamp payload =>
      IsWord session ∧ IsWord sequence ∧ IsWord timestamp ∧ IsShort payload

def LogEntry.Fits (entry : LogEntry) : Prop :=
  IsWord entry.index ∧ IsWord entry.term ∧ entry.operation.Fits

def VoteRequest.Fits (request : VoteRequest) : Prop :=
  IsWord request.term ∧ IsWord request.candidate ∧
    IsWord request.lastLogIndex ∧ IsWord request.lastLogTerm

def Vote.Fits (vote : Vote) : Prop := IsWord vote.term

def AppendRequest.Fits (request : AppendRequest) : Prop :=
  IsWord request.term ∧ IsWord request.leader ∧
    IsWord request.prevLogIndex ∧ IsWord request.prevLogTerm ∧
    IsWord request.commitIndex ∧ IsWord request.round ∧
    IsShort request.entries ∧ ∀ entry ∈ request.entries, entry.Fits

def Appended.Fits (appended : Appended) : Prop :=
  IsWord appended.term ∧ IsWord appended.lastLogIndex ∧ IsWord appended.round

def RegisterRequest.Fits (request : RegisterRequest) : Prop :=
  IsWord request.client ∧ IsWord request.timeout

def Registered.Fits (registered : Registered) : Prop :=
  IsWord registered.session ∧ IsWord registered.leader ∧
    (IsShort registered.members ∧
      ∀ member ∈ registered.members, IsWord member) ∧
    IsWord registered.timeout

def KeepAliveRequest.Fits (request : KeepAliveRequest) : Prop :=
  IsWord request.session ∧ IsWord request.commandSequence ∧
    IsSigned request.eventSequence

def KeptAlive.Fits (kept : KeptAlive) : Prop :=
  IsWord kept.leader ∧ IsShort kept.members ∧
    ∀ member ∈ kept.members, IsWord member

def UnregisterRequest.Fits (request : UnregisterRequest) : Prop :=
  IsWord request.session

def CommandRequest.Fits (request : CommandRequest) : Prop :=
  IsWord request.session ∧ IsWord request.sequence ∧ IsShort request.command

def CommandOutput.Fits (output : CommandOutput) : Prop :=
  IsWord output.index ∧ IsShort output.result

def QueryRequest.Fits (request : QueryRequest) : Prop :=
  IsWord request.session ∧ IsWord request.index ∧ IsShort request.query

def QueryOutput.Fits (output : QueryOutput) : Prop :=
  IsWord output.index ∧ IsShort output.result

def PublishRequest.Fits (request : PublishRequest) : Prop :=
  IsWord request.session ∧ IsSigned request.eventSequence

/-- The numbers of an event are kept in signed words. -/
def PublishAck.Fits (ack : PublishAck) : Prop :=
  ack.version < signedBound ∧ ack.sequence < signedBound

def Response.Fits {α : Type} (fits : α → Prop) : Response α → Prop
  | ok value => fits value
  | error _ => True

def Message.Fits : Message → Prop
  | voteRequest body => body.Fits
  | voteResponse body => body.Fits Vote.Fits
  | appendRequest body => body.Fits
  | appendResponse body => body.Fits Appended.Fits
  | registerRequest body => body.Fits
  | registerResponse body => body.Fits Registered.Fits
  | keepAliveRequest body => body.Fits
  | keepAliveResponse body => body.Fits KeptAlive.Fits
  | unregisterRequest body => body.Fits
  | unregisterResponse body => body.Fits (fun _ => True)
  | commandRequest body => body.Fits
  | commandResponse body => body.Fits CommandOutput.Fits
  | queryRequest body => body.Fits
  | queryResponse body => body.Fits QueryOutput.Fits
  | publishRequest body => body.Fits
  | publishResponse body => body.Fits PublishAck.Fits

/-! ### The layouts of small values -/

theorem boolLayout_lawful : boolLayout.Lawful (fun _ => True) := by
  refine Lawful.choice ?_ (fun value _ => by cases value <;> simp)
  simp only [List.forall_mem_cons, List.not_mem_nil, IsEmpty.forall_iff,
    implies_true, and_true]
  refine ⟨unit_lawful.arm ?_ ?_, unit_lawful.arm ?_ ?_⟩
  all_goals
    intro value
    cases value <;> simp

theorem errorKindLayout_lawful : errorKindLayout.Lawful (fun _ => True) := by
  refine byte_lawful.refine (fun id kind => ?_)
  constructor
  · intro hcheck
    split at hcheck
    · rename_i hkind
      obtain rfl := Except.ok.inj hcheck
      exact ErrorKind.id_of_ofId? hkind
    · simp at hcheck
  · rintro rfl
    simp only [ErrorKind.ofId?_id]

theorem responseLayout_lawful {α : Type} {layout : Layout α} {fits : α → Prop}
    (hlayout : layout.Lawful fits) :
    (responseLayout layout).Lawful (Response.Fits fits) := by
  refine Lawful.choice ?_ (fun response _ => by
    cases response <;> simp [Response.status])
  simp only [List.forall_mem_cons, List.not_mem_nil, IsEmpty.forall_iff,
    implies_true, and_true]
  refine ⟨hlayout.arm ?_ ?_, errorKindLayout_lawful.arm ?_ ?_⟩
  all_goals
    intro response
    cases response <;>
      simp [Response.value?, Response.error?, Response.Fits, Response.status,
        Status.id, eq_comm]

theorem Consistency.layout_lawful :
    Consistency.layout.Lawful (fun _ => True) := by
  refine Lawful.choice ?_ (fun value _ => by
    cases value <;> simp [Consistency.tag])
  simp only [List.forall_mem_cons, List.not_mem_nil, IsEmpty.forall_iff,
    implies_true, and_true]
  refine ⟨unit_lawful.arm ?_ ?_, unit_lawful.arm ?_ ?_⟩
  all_goals
    intro value
    cases value <;> simp [Consistency.tag]

/-! ### The layouts of entries and messages -/

theorem Operation.layout_lawful : Operation.layout.Lawful Operation.Fits := by
  refine Lawful.choice ?_ (fun operation _ => by
    cases operation <;> simp [Operation.tag])
  simp only [List.forall_mem_cons, List.not_mem_nil, IsEmpty.forall_iff,
    implies_true, and_true]
  refine ⟨unit_lawful.arm ?_ ?_,
    (number_lawful.seq (number_lawful.seq number_lawful)).arm ?_ ?_,
    (number_lawful.seq (number_lawful.seq
      (signed_lawful.seq number_lawful))).arm ?_ ?_,
    (number_lawful.seq number_lawful).arm ?_ ?_,
    (number_lawful.seq (number_lawful.seq
      (number_lawful.seq bytes_lawful))).arm ?_ ?_⟩
  all_goals
    intro operation
    cases operation <;> simp [Operation.tag, Operation.Fits, eq_comm]

theorem LogEntry.layout_lawful : LogEntry.layout.Lawful LogEntry.Fits :=
  (number_lawful.seq (number_lawful.seq Operation.layout_lawful)).imap
    (fun _ => rfl) (fun _ => rfl)

theorem VoteRequest.layout_lawful :
    VoteRequest.layout.Lawful VoteRequest.Fits :=
  (number_lawful.seq (number_lawful.seq (number_lawful.seq
    number_lawful))).imap (fun _ => rfl) (fun _ => rfl)

theorem Vote.layout_lawful : Vote.layout.Lawful Vote.Fits :=
  ((number_lawful.seq boolLayout_lawful).imap (fun _ => rfl)
    (fun _ => rfl)).congr (fun _ => and_iff_left trivial)

theorem AppendRequest.layout_lawful :
    AppendRequest.layout.Lawful AppendRequest.Fits :=
  (number_lawful.seq (number_lawful.seq (number_lawful.seq (number_lawful.seq
    (number_lawful.seq (number_lawful.seq LogEntry.layout_lawful.list)))))).imap
    (fun _ => rfl) (fun _ => rfl)

theorem Appended.layout_lawful : Appended.layout.Lawful Appended.Fits :=
  ((number_lawful.seq (boolLayout_lawful.seq (number_lawful.seq
    number_lawful))).imap (fun _ => rfl) (fun _ => rfl)).congr
    (fun _ => and_congr_right' (iff_of_eq (true_and _)))

theorem RegisterRequest.layout_lawful :
    RegisterRequest.layout.Lawful RegisterRequest.Fits :=
  (number_lawful.seq number_lawful).imap (fun _ => rfl) (fun _ => rfl)

theorem Registered.layout_lawful : Registered.layout.Lawful Registered.Fits :=
  (number_lawful.seq (number_lawful.seq (number_lawful.list.seq
    number_lawful))).imap (fun _ => rfl) (fun _ => rfl)

theorem KeepAliveRequest.layout_lawful :
    KeepAliveRequest.layout.Lawful KeepAliveRequest.Fits :=
  (number_lawful.seq (number_lawful.seq signed_lawful)).imap (fun _ => rfl)
    (fun _ => rfl)

theorem KeptAlive.layout_lawful : KeptAlive.layout.Lawful KeptAlive.Fits :=
  (number_lawful.seq number_lawful.list).imap (fun _ => rfl) (fun _ => rfl)

theorem UnregisterRequest.layout_lawful :
    UnregisterRequest.layout.Lawful UnregisterRequest.Fits :=
  number_lawful.imap (fun _ => rfl) (fun _ => rfl)

theorem CommandRequest.layout_lawful :
    CommandRequest.layout.Lawful CommandRequest.Fits :=
  (number_lawful.seq (number_lawful.seq bytes_lawful)).imap (fun _ => rfl)
    (fun _ => rfl)

theorem CommandOutput.layout_lawful :
    CommandOutput.layout.Lawful CommandOutput.Fits :=
  (number_lawful.seq bytes_lawful).imap (fun _ => rfl) (fun _ => rfl)

theorem QueryRequest.layout_lawful :
    QueryRequest.layout.Lawful QueryRequest.Fits :=
  ((number_lawful.seq (number_lawful.seq (Consistency.layout_lawful.seq
    bytes_lawful))).imap (fun _ => rfl) (fun _ => rfl)).congr
    (fun _ => and_congr_right' (and_congr_right' (iff_of_eq (true_and _))))

theorem QueryOutput.layout_lawful :
    QueryOutput.layout.Lawful QueryOutput.Fits :=
  (number_lawful.seq bytes_lawful).imap (fun _ => rfl) (fun _ => rfl)

theorem PublishRequest.layout_lawful :
    PublishRequest.layout.Lawful PublishRequest.Fits :=
  (number_lawful.seq signed_lawful).imap (fun _ => rfl) (fun _ => rfl)

/-- A label can be built of two numbers just if neither is negative. -/
theorem PublishAck.make_eq_ok_iff {version sequence : Int} {ack : PublishAck} :
    PublishAck.make version sequence = .ok ack ↔
      (ack.version : Int) = version ∧ (ack.sequence : Int) = sequence := by
  unfold PublishAck.make
  split
  · simp only [reduceCtorEq, false_iff]
    omega
  · split
    · simp only [reduceCtorEq, false_iff]
      omega
    · obtain ⟨version, sequence⟩ := ack
      simp only [Except.ok.injEq, PublishAck.mk.injEq]
      omega

/-- Only the error is replaced. -/
theorem mapError_eq_ok_iff {α : Type} {outcome : Except BuildError α}
    {replace : BuildError → WireError} {value : α} :
    outcome.mapError replace = .ok value ↔ outcome = .ok value := by
  cases outcome <;> simp [Except.mapError]

theorem PublishAck.layout_lawful :
    PublishAck.layout.Lawful PublishAck.Fits := by
  have hlayout : PublishAck.layout.Lawful (fun ack =>
      IsSigned (ack.version : Int) ∧ IsSigned (ack.sequence : Int)) := by
    refine (signed_lawful.seq signed_lawful).refine (fun read ack => ?_)
    exact mapError_eq_ok_iff.trans
      (PublishAck.make_eq_ok_iff.trans Prod.mk_inj.symm)
  refine hlayout.congr (fun ack => ?_)
  simp only [IsSigned, PublishAck.Fits]
  omega

theorem Message.layout_lawful : Message.layout.Lawful Message.Fits := by
  refine Lawful.choice ?_ (fun message _ => by
    cases message <;> simp [Message.tag])
  simp only [List.forall_mem_cons, List.not_mem_nil, IsEmpty.forall_iff,
    implies_true, and_true]
  refine ⟨VoteRequest.layout_lawful.arm ?_ ?_,
    (responseLayout_lawful Vote.layout_lawful).arm ?_ ?_,
    AppendRequest.layout_lawful.arm ?_ ?_,
    (responseLayout_lawful Appended.layout_lawful).arm ?_ ?_,
    RegisterRequest.layout_lawful.arm ?_ ?_,
    (responseLayout_lawful Registered.layout_lawful).arm ?_ ?_,
    KeepAliveRequest.layout_lawful.arm ?_ ?_,
    (responseLayout_lawful KeptAlive.layout_lawful).arm ?_ ?_,
    UnregisterRequest.layout_lawful.arm ?_ ?_,
    (responseLayout_lawful unit_lawful).arm ?_ ?_,
    CommandRequest.layout_lawful.arm ?_ ?_,
    (responseLayout_lawful CommandOutput.layout_lawful).arm ?_ ?_,
    QueryRequest.layout_lawful.arm ?_ ?_,
    (responseLayout_lawful QueryOutput.layout_lawful).arm ?_ ?_,
    PublishRequest.layout_lawful.arm ?_ ?_,
    (responseLayout_lawful PublishAck.layout_lawful).arm ?_ ?_⟩
  all_goals
    intro message
    cases message <;> simp [Message.tag, Message.Fits, eq_comm]

end SessionRaft
