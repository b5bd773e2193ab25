/-
The order of commands at a leader.  From an election on, the commands of a
session that stand in the log and are not applied follow the applied ones
without a gap, and the sequencer says of them what the log says.
-/
import SessionRaft.ByteProgram
import SessionRaft.Proofs.Lives

namespace SessionRaft

/-- Whether an incident leaves the log to the node itself: no other leader
sends entries, and the node does not stop. -/
def Incident.Own {L σ : Type} : Incident L σ → Prop
  | .input given => ∀ request, given ≠ .append request
  | .refit _ => True
  | .restart _ _ _ => False

namespace Desk

variable {desk : Desk}

/-- The entry that opens a session stands in the log and is not applied. -/
def Registers (desk : Desk) (session : SessionId) : Prop :=
  desk.applied < session ∧ ∃ entry,
    desk.entries[session - 1]? = some entry ∧ entry.isRegister = true

/-- The commands that are not applied follow the applied ones in order and
without a gap, in every session that is open or whose opening entry is not
applied. -/
def InOrder (desk : Desk) : Prop :=
  ∀ session mark,
    desk.marks session = some mark ∨ desk.Registers session ∧ mark = 0 →
      (desk.backlog session).map Prod.fst =
        List.range' (mark + 1) (desk.backlog session).length

theorem Ordered.inOrder (hordered : desk.Ordered) : desk.InOrder := by
  rintro session mark (hmark | ⟨⟨hlt, entry, hentry, hregister⟩, hzero⟩)
  · exact hordered session mark (Or.inl hmark)
  · refine hordered session mark (Or.inr ⟨⟨hlt, fun found hfound => ?_⟩, hzero⟩)
    obtain rfl := Option.some.inj (hentry.symm.trans hfound)
    exact hregister

/-- A session whose place lies past the end of the log has no commands. -/
theorem InOrder.ordered (hfounded : desk.Founded) (hplaced : desk.Placed)
    (hinOrder : desk.InOrder) : desk.Ordered := by
  rintro (session : Nat) mark (hmark | ⟨hawaits, hzero⟩)
  · exact hinOrder session mark (Or.inl hmark)
  · cases hentry : desk.entries[session - 1]? with
    | some entry =>
        exact hinOrder session mark (Or.inr
          ⟨⟨hawaits.1, entry, hentry, hawaits.2 entry hentry⟩, hzero⟩)
    | none =>
        have hend := List.getElem?_eq_none_iff.mp hentry
        have hnil : desk.backlog session = [] := by
          refine List.eq_nil_iff_forall_not_mem.mpr (fun row hrow => ?_)
          have hbehind := hplaced session hawaits row hrow
          have hbound := backlog_bound hfounded.numbered row hrow
          omega
        rw [hnil]
        rfl

/-- Without lanes, commands in order are all there is to being orderly. -/
theorem orderly_of_inOrder (hfounded : desk.Founded) (hplaced : desk.Placed)
    (hinOrder : desk.InOrder) : { desk with lanes := none }.Orderly where
  founded := ⟨hfounded.numbered, hfounded.applied_le, hfounded.opened,
    fun _ hlanes => by simp at hlanes⟩
  placed := hplaced
  ordered := fun session => hinOrder.ordered hfounded hplaced session
  covered := fun _ hlanes => by simp at hlanes
  inStep := fun _ hlanes => by simp at hlanes

end Desk

theorem Turns.orderly {input : Input} {before after : Desk}
    (hturns : Turns (fun _ _ => False) input before after)
    (horderly : before.Orderly) (hinput : ∀ request, input ≠ .append request) :
    after.Orderly := by
  induction hturns with
  | refl => exact horderly
  | tail _ hturn ih => exact hturn.orderly ih (fun _ _ hfalse => hfalse) hinput

namespace Node

variable {L σ : Type} [LogStore L] [FaithfulLog L] [StateMachine σ]

variable {input : Input} {output : Output} {node after : Node L σ}

/-- Giving up a leadership beforehand makes no difference to an election. -/
theorem startElection_resigned (node : Node L σ) :
    node.resigned.startElection = node.startElection := by
  have hagain : node.resigned.resigned = node.resigned := by
    rw [resigned, resigned_leadership node]
    rfl
  rw [startElection_eq, startElection_eq, hagain]

omit [FaithfulLog L] in
/-- A leader wins no more elections. -/
theorem handleVoteResponse_of_leader (hrole : node.role = .leader)
    (sender : NodeId) (response : VoteResponse) :
    (node.handleVoteResponse sender response).1 = false := by
  cases response with
  | error kind => rfl
  | ok vote =>
      simp only [handleVoteResponse, hrole]
      split <;> simp

/-- Whoever wins an election or starts one might as well have given up its
leadership before. -/
theorem exists_resigned (hproper : node.Proper)
    (hstep : node.step input = .ok (output, after))
    (hwins : output = .won true ∨ ∃ request, output = .election request) :
    ∃ start : Node L σ, start.Proper ∧ start.log = node.log ∧
      start.desk = { node.desk with lanes := none } ∧
      start.step input = .ok (output, after) ∧
      ∀ request, input ≠ .append request := by
  rcases hwins with rfl | ⟨request, rfl⟩
  · cases stepsTo hstep with
    | @voteResponse sender response _ _ hwon =>
        refine ⟨node, hproper, rfl, ?_, hstep, by simp⟩
        have hnone : node.leadership = none := by
          by_contra hsome
          have hrole := hproper.leads (Option.isSome_iff_ne_none.mpr hsome)
          have hlost := handleVoteResponse_of_leader hrole sender response
          rw [hwon] at hlost
          exact Bool.false_ne_true hlost.symm
        simp only [desk, hnone, Option.map_none]
  · cases stepsTo hstep with
    | electionTimeout _ =>
        have hturnsTo : TurnsTo (fun _ _ => False) .electionTimeout node
            node.resigned := turnsTo_resigned node
        obtain ⟨hlog, hdesk⟩ := resigned_desk node
        refine ⟨node.resigned,
          hproper.turned (proceeds_resigned node) hturnsTo, hlog, hdesk, ?_,
          by simp⟩
        rw [step, startElection_resigned]
        exact hstep

/-- A step that takes no entries from a leader and loses none of its own keeps
everything in order. -/
theorem orderly_step (hproper : node.Proper) (horderly : node.desk.Orderly)
    (hstep : node.step input = .ok (output, after))
    (hstores : StoresEntries node.log)
    (hinput : ∀ request, input ≠ .append request) :
    after.take.2.2.desk.Orderly := by
  have hturns : Turns (fun _ _ => False) input node.desk after.desk :=
    hproper.turns hstep (fun _ _ _ _ hfails => hfails hstores)
  have hafter := hturns.orderly horderly hinput
  exact ⟨⟨hafter.founded.numbered, hafter.founded.applied_le,
    hafter.founded.opened, hafter.founded.kept⟩, hafter.placed,
    hafter.ordered, hafter.covered, hafter.inStep⟩

end Node

namespace Life

variable {L σ : Type} [LogStore L] [FaithfulLog L] [StateMachine σ]

/-- A node that started or won an election with its commands in order keeps
them in order while entries are stored and no other leader sends any, and what
it knows of them is what its log says. -/
theorem commands_in_order {life : Life L σ} (hvalid : life.Valid)
    {won time : Nat} {input : Input} {output : Output} {after : Node L σ}
    (htakes : life.Takes won input output after)
    (hwins : output = .won true ∨ ∃ request, output = .election request)
    (hinOrder : (life.node won).desk.InOrder)
    (hplaced : (life.node won).desk.Placed)
    (hstores : ∀ later, won ≤ later → StoresEntries (life.node later).log)
    (hown : ∀ later incident, won < later →
      life.incidents[later]? = some incident → incident.Own)
    (hlater : won < time) :
    (life.node time).desk.InOrder ∧
      ∀ leadership, (life.node time).leadership = some leadership →
        ∀ session record,
          (life.node time).executor.sessions.get? session = some record →
            (leadership.sequencer.lane session).Agrees record.commandSequence
              ((life.node time).desk.backlog session) := by
  have horderly : (life.node time).desk.Orderly := by
    refine (hvalid.always (fun node => node.Proper ∧ node.desk.Orderly)
      hlater ⟨hvalid.proper (won + 1), ?_⟩ ?_).2
    -- The lanes of an earlier leadership say nothing about the new one, so the
    -- election is looked at from where they are dropped.
    · obtain ⟨start, hstart, hlog, hdesk, hstep, hinput⟩ :=
        Node.exists_resigned (hvalid.proper won) htakes.2 hwins
      have hbefore : start.desk.Orderly := by
        rw [hdesk]
        exact Desk.orderly_of_inOrder (hvalid.proper won).founded hplaced
          hinOrder
      rw [htakes.node_succ]
      exact Node.orderly_step hstart hbefore hstep
        (hlog ▸ hstores won (Nat.le_refl won)) hinput
    · rintro later incident after hle hincident ⟨hproper, hordered⟩ hundergoes
      refine ⟨hproper.undergoes hundergoes, ?_⟩
      have hown := hown later incident hle hincident
      cases hundergoes with
      | overflow _ => exact hordered
      | taken hstep =>
          exact Node.orderly_step hproper hordered hstep
            (hstores later (Nat.le_of_lt hle)) hown
      | refit _ hmemory =>
          rw [(Node.refit_same hmemory).2]
          exact hordered
      | unfit => exact hown.elim
      | restarted _ _ _ => exact hown.elim
  refine ⟨horderly.ordered.inOrder, fun leadership hleadership session record
    hrecord => ?_⟩
  exact horderly.agrees (Node.desk_lanes hleadership)
    (Or.inl (Node.desk_marks hrecord))

end Life

namespace Witness

/-- What an earlier leader has left: an open session with two commands. -/
def inheritedEntries : List LogEntry :=
  [⟨1, 1, .register 7 60000 0⟩, ⟨1, 2, .command 1 1 0 [1, 7]⟩,
    ⟨1, 3, .command 1 2 0 [1, 7]⟩]

/-- A node that wins an election with the commands of an earlier leader, and
then takes two more in the wrong order. -/
def inherited : Life MemoryLog Tally where
  start := { member ⟨inheritedEntries, 1, none⟩ .start 1 with term := 1 }
  incidents := [
    .input .electionTimeout,
    .input (.voteResponse 2 (.ok ⟨2, true⟩)),
    .input (.appendResponse 2 (.ok ⟨2, true, 4, 1⟩)),
    .input (.command 1 ⟨1, 4, [1, 7]⟩),
    .input (.command 2 ⟨1, 3, [1, 7]⟩)]

theorem numbered_inheritedEntries : Numbered inheritedEntries := by decide

theorem inherited_valid : inherited.Valid where
  begins := ⟨1, [1, 2, 3], {}, ⟨inheritedEntries, 1, none⟩, .start,
    numbered_inheritedEntries, rfl⟩
  possible := Life.possible_of_inputs (by simp [inherited])

theorem inherited_own : ∀ incident ∈ inherited.incidents, incident.Own := by
  simp [inherited, Incident.Own]

/-- Nothing but the first session has an entry. -/
theorem inherited_placed : (inherited.node 1).desk.Placed := by
  intro session _ row hrow
  obtain ⟨place, entry, -, hentry, hsequence, hindex⟩ :=
    (Desk.mem_backlog_iff numbered_inheritedEntries).mp hrow
  change inheritedEntries[place]? = some entry at hentry
  rcases place with _ | _ | _ | place
  all_goals simp only [inheritedEntries, List.getElem?_cons_succ,
    List.getElem?_cons_zero, List.getElem?_nil, Option.some.injEq,
    reduceCtorEq] at hentry
  all_goals subst hentry
  all_goals simp only [LogEntry.sequence?, reduceCtorEq,
    Option.ite_none_right_eq_some] at hsequence
  all_goals obtain ⟨rfl, -⟩ := hsequence
  all_goals omega

theorem inherited_inOrder : (inherited.node 1).desk.InOrder := by
  rintro session mark (hmark | ⟨⟨-, entry, hentry, hregister⟩, rfl⟩)
  · change none = some mark at hmark
    simp at hmark
  · change inheritedEntries[session - 1]? = some entry at hentry
    rcases session with _ | _ | _ | _ | session
    all_goals simp [inheritedEntries] at hentry
    all_goals subst hentry
    · rfl
    · rfl
    · simp [LogEntry.isRegister] at hregister
    · simp [LogEntry.isRegister] at hregister

/-- Once the entries of the earlier leader are applied, the two commands are in
flight in the order of their sequences. -/
theorem commands_in_order_inherited : inherited.Valid ∧
    (inherited.node 1).desk.InOrder ∧ (inherited.node 1).desk.Placed ∧
    (inherited.node 5).desk.InOrder ∧
    (inherited.node 5).desk.marks 1 = some 2 ∧
    ∃ leadership, (inherited.node 5).leadership = some leadership ∧
      (leadership.sequencer.lane 1).Agrees 2 [(3, 5), (4, 6)] := by
  have htakes : inherited.Takes 1 (.voteResponse 2 (.ok ⟨2, true⟩))
      (.won true) _ := ⟨rfl, rfl⟩
  obtain ⟨hinOrder, hagrees⟩ := Life.commands_in_order inherited_valid htakes
    (Or.inl rfl) inherited_inOrder inherited_placed (fun _ _ _ _ _ _ => rfl)
    (fun _ incident _ hincident =>
      inherited_own incident (List.mem_of_getElem? hincident))
    (show 1 < 5 by decide)
  obtain ⟨leadership, hleadership⟩ :
      ∃ leadership, (inherited.node 5).leadership = some leadership :=
    ⟨_, rfl⟩
  obtain ⟨record, hrecord, hmark⟩ : ∃ record,
      (inherited.node 5).executor.sessions.get? 1 = some record ∧
        record.commandSequence = 2 := ⟨_, rfl, rfl⟩
  have hlane := hagrees leadership hleadership 1 record hrecord
  rw [hmark] at hlane
  exact ⟨inherited_valid, inherited_inOrder, inherited_placed, hinOrder, rfl,
    leadership, hleadership, hlane⟩

/-- A log in which the commands of a session stand before the entry that opens
it. -/
def misplacedEntries : List LogEntry :=
  [⟨1, 1, .command 3 1 0 [1, 7]⟩, ⟨1, 2, .command 3 2 0 [1, 7]⟩,
    ⟨1, 3, .register 7 5000 0⟩]

/-- A cluster of one that begins on such a log. -/
def misplaced : Life MemoryLog Tally where
  start :=
    { member ⟨misplacedEntries, 1, none⟩ .start 1 with
      members := [1]
      term := 1 }
  incidents := [
    .input .electionTimeout,
    .input (.command 1 ⟨3, 1, [1, 7]⟩)]

theorem numbered_misplacedEntries : Numbered misplacedEntries := by decide

theorem misplaced_valid : misplaced.Valid where
  begins := ⟨1, [1], {}, ⟨misplacedEntries, 1, none⟩, .start,
    numbered_misplacedEntries, rfl⟩
  possible := Life.possible_of_inputs (by simp [misplaced])

theorem misplaced_inOrder : (misplaced.node 0).desk.InOrder := by
  rintro session mark (hmark | ⟨⟨hlt, entry, hentry, hregister⟩, rfl⟩)
  · change none = some mark at hmark
    simp at hmark
  · change misplacedEntries[session - 1]? = some entry at hentry
    rcases session with _ | _ | _ | _ | session
    · exact absurd hlt (Nat.not_lt_zero _)
    all_goals simp [misplacedEntries] at hentry
    all_goals subst hentry
    · simp [LogEntry.isRegister] at hregister
    · simp [LogEntry.isRegister] at hregister
    · rfl

/-- The commands of the session are in order when the node wins the election.
They were applied, to no effect, before the session was opened; the sequencer
takes the session to be two commands ahead of what it has applied, and the
first command is refused. -/
theorem commands_in_order_misplaced : misplaced.Valid ∧
    (∃ request after,
      misplaced.Takes 0 .electionTimeout (.election (some request)) after) ∧
    (∀ later, StoresEntries (misplaced.node later).log) ∧
    (misplaced.node 0).desk.InOrder ∧
    (∃ leadership record, (misplaced.node 1).leadership = some leadership ∧
      (misplaced.node 1).executor.sessions.get? 3 = some record ∧
      ¬(leadership.sequencer.lane 3).Agrees record.commandSequence
        ((misplaced.node 1).desk.backlog 3)) ∧
    ∃ after, misplaced.Takes 1 (.command 1 ⟨3, 1, [1, 7]⟩) .none after ∧
      after.answers = [(1, .command (.error .commandError))] := by
  refine ⟨misplaced_valid, ⟨_, _, rfl, rfl⟩, fun _ _ _ _ _ => rfl,
    misplaced_inOrder, ⟨_, _, rfl, rfl, fun hagrees => ?_⟩, _, ⟨rfl, rfl⟩, rfl⟩
  exact hagrees.sequenced.elim (fun hsome => by cases hsome)
    (fun hnone => by cases hnone.1)

end Witness

end SessionRaft
