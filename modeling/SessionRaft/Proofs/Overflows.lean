/-
The numbers that a node is told are machine words, and it counts on from some
of them.  Whatever reaches a node, two of these are all that can outgrow their
word: the hint of a refusal, at once, and a term, at the next election.
-/
import SessionRaft.ByteProgram
import SessionRaft.Proofs.CheckedSteps
import SessionRaft.Proofs.WireTypes

namespace SessionRaft

open FaithfulLog

/-- The message that a peer sends to bring an input about. -/
def Input.message? : Input → Option Message
  | .vote request => some (.voteRequest request)
  | .voteResponse _ response => some (.voteResponse response)
  | .append request => some (.appendRequest request)
  | .appendResponse _ response => some (.appendResponse response)
  | _ => none

/-- The inputs that timers and peers bring about.  A peer's message was read
from bytes, and they may be any. -/
inductive Input.Arrives : Input → Prop where
  | electionTimeout : Arrives .electionTimeout
  | heartbeat : Arrives .heartbeat
  | message {input : Input} {message : Message} {bytes rest : Bytes}
      (hmessage : input.message? = some message)
      (hdecode : Message.layout.decode bytes = .ok (message, rest)) :
      Arrives input

/-- An answer that was read from bytes tells an index that is a word. -/
theorem Input.Arrives.lastLogIndex_le {peer : NodeId} {appended : Appended}
    (harrives : Input.Arrives (.appendResponse peer (.ok appended))) :
    appended.lastLogIndex ≤ wordMax := by
  cases harrives with
  | message hmessage hdecode =>
      obtain rfl := Option.some.inj hmessage
      obtain ⟨front, hencode, -⟩ := Message.layout_lawful.exact _ _ _ hdecode
      obtain ⟨-, hindex, -⟩ :=
        (Message.layout_lawful.writes _).mp ⟨front, hencode⟩
      exact Nat.le_sub_one_of_lt hindex

namespace Node

variable {L σ : Type} [LogStore L]

/-- An input makes a node count on from the last word there is. -/
inductive Overruns (node : Node L σ) : Input → Prop where
  /-- The node is in the last term, and asks for votes in the next. -/
  | election (hterm : node.term = wordMax) : Overruns node .electionTimeout
  /-- A peer that the node leads refuses, and hints at the last index. -/
  | refusal {peer : NodeId} {appended : Appended} {leadership : Leadership}
      (hleadership : node.leadership = some leadership)
      (htracked : (leadership.nextIndex.get? peer).isSome)
      (hterm : appended.term = node.term)
      (hrefused : appended.succeeded = false)
      (hindex : appended.lastLogIndex = wordMax) :
      Overruns node (.appendResponse peer (.ok appended))

variable [StateMachine σ] {node : Node L σ}

theorem toOption_bind_eq_none_iff {α β : Type} (outcome : Except Overflow α)
    (f : α → β) : (outcome >>= fun value => pure (f value)).toOption = none ↔
      outcome.toOption = none := by
  cases outcome <;> simp [bind, Except.bind, pure, Except.pure, Except.toOption]

theorem successor_toOption_eq_none_iff {value : Nat} :
    (successor value).toOption = none ↔ value = wordMax := by
  unfold successor
  split <;> simp_all [Except.toOption]

theorem startElection_toOption_eq_none_iff [FaithfulLog L] :
    node.startElection.toOption = none ↔ node.term = wordMax := by
  have hkept : node.resigned.term = node.term := by
    unfold resigned
    split
    · rw [becomeFollower_term, Nat.max_self]
    · rfl
  rw [startElection_eq, hkept, ← successor_toOption_eq_none_iff]
  exact toOption_bind_eq_none_iff (successor node.term) node.resigned.campaign

omit [StateMachine σ] in
theorem acceptRefusal_toOption_eq_none_iff {leadership : Leadership}
    {peer : NodeId} {next hint : Nat} :
    (node.acceptRefusal leadership peer next hint).toOption = none ↔
      hint = wordMax := by
  rw [← successor_toOption_eq_none_iff]
  exact toOption_bind_eq_none_iff (successor hint) _

/-- Only a refusal that the leader acts upon can be too much for it. -/
theorem handleAppendResponse_toOption_eq_none_iff
    (hleads : node.leadership.isSome → node.role = .leader) {peer : NodeId}
    {response : AppendResponse} :
    (node.handleAppendResponse peer response).toOption = none ↔
      node.Overruns (.appendResponse peer response) := by
  have hdone : ∀ result : Bool × Node L σ,
      (pure result : Except Overflow _).toOption ≠ none :=
    fun _ => Option.some_ne_none _
  constructor
  · intro hnone
    rcases response with appended | kind
    swap
    · exact absurd hnone (hdone _)
    unfold handleAppendResponse at hnone
    dsimp only at hnone
    split at hnone
    · exact absurd hnone (hdone _)
    · rename_i hnewer
      split at hnone
      · exact absurd hnone (hdone _)
      · rename_i hother
        rw [not_or, not_not] at hother
        split at hnone
        · exact absurd hnone (hdone _)
        · rename_i leadership hleadership
          split at hnone
          · exact absurd hnone (hdone _)
          · rename_i next hnext
            split at hnone
            · exact absurd hnone (hdone _)
            · rename_i hrefused
              rw [toOption_bind_eq_none_iff,
                acceptRefusal_toOption_eq_none_iff] at hnone
              exact .refusal hleadership (by simp [hnext]) (by omega)
                (by simpa using hrefused) hnone
  · intro hoverruns
    cases hoverruns with
    | @refusal _ appended leadership hleadership htracked hterm hrefused
        hindex =>
        obtain ⟨next, hnext⟩ := Option.isSome_iff_exists.mp htracked
        have hrole := hleads (by simp [hleadership])
        simp only [handleAppendResponse, hterm, hrole, hleadership, hnext,
          hrefused, Nat.lt_irrefl, ne_eq, not_true_eq_false, or_self,
          Bool.false_eq_true, ↓reduceIte]
        rw [toOption_bind_eq_none_iff, acceptRefusal_toOption_eq_none_iff]
        exact hindex

/-- A timer or a peer's message is too much for a node in two cases only. -/
theorem step_toOption_eq_none_iff [FaithfulLog L]
    (hleads : node.leadership.isSome → node.role = .leader) {input : Input}
    (harrives : input.Arrives) :
    (node.step input).toOption = none ↔ node.Overruns input := by
  have hdone : ∀ result : Output × Node L σ,
      (pure result : Except Overflow _).toOption ≠ none :=
    fun _ => Option.some_ne_none _
  cases input with
  | electionTimeout =>
      simp only [step]
      rw [toOption_bind_eq_none_iff, startElection_toOption_eq_none_iff]
      exact ⟨.election, fun hoverruns => by cases hoverruns; assumption⟩
  | appendResponse peer response =>
      simp only [step]
      rw [toOption_bind_eq_none_iff]
      exact handleAppendResponse_toOption_eq_none_iff hleads
  | heartbeat | vote request | voteResponse sender response | append request =>
      exact ⟨fun hnone => absurd hnone (hdone _),
        fun hoverruns => by cases hoverruns⟩
  | _ =>
      cases harrives with
      | message hmessage _ => simp [Input.message?] at hmessage

end Node

namespace Life

variable {L σ : Type} [LogStore L] [FaithfulLog L] [StateMachine σ]
  {life : Life L σ}

/-- At all times the events of the sessions are counted. -/
theorem Valid.counted (hvalid : life.Valid) (time : Nat) :
    (life.node time).executor.sessions.Counted := by
  have hempty : ∀ machine : σ, (Executor.start machine).sessions.Counted := by
    intro machine id session hget
    simp [Executor.start, SessionTable.empty, SessionTable.get?] at hget
  have hstart : ∀ {id : NodeId} {members : List NodeId} {config : Config}
      {log : L} {machine : σ} {fresh : Node L σ}, Sound log →
      Node.start id members config log machine = .ok fresh →
      fresh.executor.sessions.Counted := by
    intro id members config log machine fresh hlog hstart
    have hexecutor := congrArg Standing.executor
      (Network.start_standing hlog hstart).2
    rw [show fresh.executor = Executor.start machine from hexecutor]
    exact hempty machine
  obtain ⟨_, _, _, _, _, hlog, hbegins⟩ := hvalid.begins
  refine (hvalid.always (fun node => node.Proper ∧
    node.executor.sessions.Counted) (Nat.zero_le time)
    ⟨hvalid.proper 0, hstart hlog hbegins⟩ ?_).2
  rintro later incident next - - ⟨hproper, hcounted⟩ hundergoes
  refine ⟨hproper.undergoes hundergoes, ?_⟩
  cases hundergoes with
  | overflow _ | unfit | refit _ _ => exact hcounted
  | taken hstep =>
      have hcommits := (hproper.moves hstep).commits hproper.settled
      exact hcommits.onward.counted hcounted
  | restarted hlog _ hbegins => exact hstart hlog hbegins

/-- Whatever reaches a node from its timers and its peers, and whatever has
happened to it, every number that it counts on to on the way is a machine word.
There are two exceptions: an election in the last term, and a refusal that
hints at the last index. -/
theorem counts_in_words (hvalid : life.Valid)
    (hfits : ∀ time, (life.node time).Fits) {time : Nat} {input : Input}
    (hincident : life.incidents[time]? = some (.input input))
    (harrives : input.Arrives) :
    (life.node time).checkedStep input =
        ((life.node time).step input).toOption ∧
      ((life.node time).checkedStep input = none ↔
        (life.node time).Overruns input) := by
  have hproper := hvalid.proper time
  have hchecked : (life.node time).checkedStep input =
      ((life.node time).step input).toOption := by
    refine (hfits time).checkedStep hproper (hvalid.counted time)
      (fun _ => hvalid.within time) ?_ ?_
    · rintro peer appended rfl
      exact harrives.lastLogIndex_le
    · intro output after hstep
      have htakes : life.Takes time input output after := ⟨hincident, hstep⟩
      have hnext := hfits (time + 1)
      rw [htakes.node_succ] at hnext
      exact ⟨hnext.term, hnext.log, hnext.round, hnext.events⟩
  refine ⟨hchecked, ?_⟩
  rw [hchecked]
  exact Node.step_toOption_eq_none_iff hproper.leads harrives

end Life

namespace Witness

/-- The refusal of a peer that hints at the last index, as it comes in. -/
def provocation : Bytes :=
  [4, 0, 0, 0, 0, 0, 0, 0, 0, 1, 0, 255, 255, 255, 255, 255, 255, 255, 255,
    0, 0, 0, 0, 0, 0, 0, 1]

/-- A leader of the first term that gets it. -/
def provoked : Life MemoryLog Tally where
  start := member .empty .start 1
  incidents := [
    .input .electionTimeout,
    .input (.voteResponse 2 (.ok ⟨1, true⟩)),
    .input (.appendResponse 2 (.ok ⟨1, false, wordMax, 1⟩))]

theorem provoked_valid : provoked.Valid where
  begins := ⟨1, [1, 2, 3], {}, .empty, .start, numbered_nil, rfl⟩
  possible := Life.possible_of_inputs (by simp [provoked])

theorem provocation_arrives :
    Input.Arrives (.appendResponse 2 (.ok ⟨1, false, wordMax, 1⟩)) :=
  .message rfl (show Message.layout.decode provocation = _ from rfl)

/-- A vote in the first term, as it comes in. -/
theorem vote_arrives : Input.Arrives (.voteResponse 2 (.ok ⟨1, true⟩)) :=
  .message rfl (show Message.layout.decode
    [2, 0, 0, 0, 0, 0, 0, 0, 0, 1, 1] = _ from rfl)

theorem provoked_overruns :
    (provoked.node 2).Overruns
      (.appendResponse 2 (.ok ⟨1, false, wordMax, 1⟩)) :=
  .refusal rfl rfl rfl rfl rfl

theorem provoked_fits (time : Nat) : (provoked.node time).Fits := by
  have hlead : (provoked.node 2).Fits := by
    refine ⟨by decide +kernel, by decide +kernel, ?_, by decide +kernel⟩
    rintro _ ⟨⟩
    decide
  match time with
  | 0 | 1 =>
      exact ⟨by decide +kernel, by decide +kernel,
        (fun _ hnone => nomatch hnone), by decide +kernel⟩
  | 2 => exact hlead
  | time + 3 =>
      have hlast : provoked.node (time + 3) = provoked.node 2 := by
        rw [Life.node, List.take_of_length_le (by simp [provoked])]
        rfl
      rw [hlast]
      exact hlead

/-- The vote that makes a leader goes through in machine words, and the
refusal leaves no result. -/
theorem counts_in_words_provoked : provoked.Valid ∧
    (∀ time, (provoked.node time).Fits) ∧
    (provoked.node 1).checkedStep (.voteResponse 2 (.ok ⟨1, true⟩)) =
      ((provoked.node 1).step (.voteResponse 2 (.ok ⟨1, true⟩))).toOption ∧
    (provoked.node 2).checkedStep
      (.appendResponse 2 (.ok ⟨1, false, wordMax, 1⟩)) = none :=
  ⟨provoked_valid, provoked_fits,
    (Life.counts_in_words provoked_valid provoked_fits rfl
      vote_arrives).1,
    (Life.counts_in_words provoked_valid provoked_fits rfl
      provocation_arrives).2.mpr provoked_overruns⟩

/-- A follower that is told the last term there is, and then has waited long
enough. -/
def exhausted : Life MemoryLog Tally where
  start := member .empty .start 1
  incidents := [.input (.vote ⟨wordMax, 2, 0, 0⟩), .input .electionTimeout]

theorem exhausted_valid : exhausted.Valid where
  begins := ⟨1, [1, 2, 3], {}, .empty, .start, numbered_nil, rfl⟩
  possible := Life.possible_of_inputs (by simp [exhausted])

/-- The request that tells the term, as it comes in. -/
theorem candidacy_arrives : Input.Arrives (.vote ⟨wordMax, 2, 0, 0⟩) :=
  .message rfl (show Message.layout.decode
    [1, 255, 255, 255, 255, 255, 255, 255, 255, 0, 0, 0, 0, 0, 0, 0, 2,
      0, 0, 0, 0, 0, 0, 0, 0, 0, 0, 0, 0, 0, 0, 0, 0] = _ from rfl)

/-- Each of the two exceptions is brought about by one message that was read
from bytes. -/
theorem counts_in_words_exhausted :
    (provoked.Valid ∧ ∃ input, provoked.incidents[2]? = some (.input input) ∧
      input.Arrives ∧ (provoked.node 2).step input = .error .addition) ∧
    exhausted.Valid ∧ ∃ input, exhausted.incidents[0]? = some (.input input) ∧
      input.Arrives ∧ exhausted.incidents[1]? =
        some (.input .electionTimeout) ∧
      (exhausted.node 1).step .electionTimeout = .error .addition :=
  ⟨⟨provoked_valid, _, rfl, provocation_arrives, rfl⟩, exhausted_valid, _, rfl,
    candidacy_arrives, rfl, rfl⟩

end Witness

end SessionRaft
