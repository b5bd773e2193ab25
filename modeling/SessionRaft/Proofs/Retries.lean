/-
Retries at a leader.  A command whose entry is in the log and was not applied
is not appended again: the client that submits it once more waits for that
entry, unless an append of a command of its session has failed since the leader
began to lead.
-/
import SessionRaft.Proofs.Fates
import SessionRaft.Proofs.Lives
import SessionRaft.Proofs.MatchingLogs

namespace SessionRaft

open FaithfulLog

/-- The entries that a message carries name only sessions opened before. -/
def Envelope.Backed (envelope : Envelope) : Prop :=
  ∀ request, envelope.packet = .append request →
    ∀ entry ∈ request.entries, entry.Behind

section Turning

variable {fails : SessionId → Nat → Prop} {input : Input}
  {before after : Desk}

theorem Turns.backed (hfounded : before.Founded) (hbacked : before.Backed)
    (hturns : Turns fails input before after)
    (hinput : ∀ request, input = .append request →
      ∀ entry ∈ request.entries, entry.Behind) : after.Backed := by
  induction hturns with
  | refl => exact hbacked
  | tail hearlier hturn ih =>
      exact hturn.backed (Turns.founded hfounded hearlier) ih hinput

theorem Turns.covered {good : SessionId → Nat → Prop}
    (hfounded : before.Founded) (hbacked : before.Backed)
    (hcovered : before.Covered good) (hturns : Turns fails input before after)
    (hinput : ∀ request, input = .append request →
      ∀ entry ∈ request.entries, entry.Behind)
    (hgood : ∀ session term, good session term → ¬fails session term) :
    after.Covered good := by
  induction hturns with
  | refl => exact hcovered
  | @tail middle last hearlier hturn ih =>
      have hmiddle : middle.Founded := Turns.founded hfounded hearlier
      have hplaced : middle.Placed :=
        (Turns.backed hfounded hbacked hearlier hinput).placed hmiddle
      exact hturn.covered hmiddle hplaced ih hgood

end Turning

namespace Node

variable {L σ : Type} [LogStore L] {node : Node L σ}
  {session sequence index : Nat}

/-- An entry that is not applied carries a command. -/
def Carries (node : Node L σ) (session sequence index : Nat) : Prop :=
  node.lastApplied < index ∧ ∃ entry,
    LogStore.get? node.log index = some entry ∧
      entry.sequence? session = some sequence

/-- A client has come to wait for an entry; nothing was appended, sent or
answered. -/
structure Waits (before after : Node L σ) (index : Nat) (ticket : Ticket) :
    Prop where
  log : after.log = before.log
  outbox : after.outbox = before.outbox
  answers : after.answers = before.answers
  waiters : after.waiters = before.waiters.insert index
    (before.waiters.getD index [] ++ [.command ticket])

variable [FaithfulLog L]

theorem carries_iff (hlog : Sound node.log) :
    node.Carries session sequence index ↔
      (sequence, index) ∈ node.desk.backlog session := by
  rw [Desk.mem_backlog_iff (numbered hlog)]
  constructor
  · rintro ⟨hlt, entry, hentry, hsequence⟩
    obtain ⟨place, rfl⟩ : ∃ place, index = place + 1 := ⟨index - 1, by omega⟩
    rw [get?_succ hlog] at hentry
    exact ⟨place, entry, Nat.le_of_lt_succ hlt, hentry, hsequence, rfl⟩
  · rintro ⟨place, entry, hle, hentry, hsequence, rfl⟩
    refine ⟨Nat.lt_succ_of_le hle, entry, ?_, hsequence⟩
    rw [get?_succ hlog]
    exact hentry

/-- Whoever submits a command that the lane of its session knows waits for the
last entry that holds it. -/
theorem submitCommand_waits [StateMachine σ] (hproper : node.Proper)
    {leadership : Leadership} (hleadership : node.leadership = some leadership)
    {record : Session}
    (hrecord : node.executor.sessions.get? session = some record)
    (hcovers : (leadership.sequencer.lane session).Covers
      record.commandSequence (node.desk.backlog session))
    (hcarries : node.Carries session sequence index)
    (hnew : record.commandSequence < sequence) (ticket : Ticket)
    (payload : Bytes) :
    ∃ after last, node.submitCommand ticket ⟨session, sequence, payload⟩ =
        .ok after ∧
      node.Carries session sequence last ∧
      (∀ other, node.Carries session sequence other → other ≤ last) ∧
      node.Waits after last ticket := by
  have hrow := (carries_iff hproper.sound).mp hcarries
  obtain ⟨last, hlast, -⟩ := hcovers.complete sequence index hrow hnew
  obtain ⟨top, htop, hle⟩ := hcovers.reached sequence index hrow hnew
  have hrole := hproper.leads (by simp [hleadership])
  have hlane : (leadership.sequencer.lane session).submit
      record.commandSequence ⟨⟨session, sequence, payload⟩, [ticket]⟩ = _ :=
    Lane.submit_of_inFlight htop hle hlast
  have hsubmit : ∃ sequencer,
      node.submitCommand ticket ⟨session, sequence, payload⟩ =
        .ok (await { node with
          leadership := some { leadership with sequencer := sequencer } } last
          [.command ticket]) := by
    simp only [submitCommand, hrole, ne_eq, not_true_eq_false, ↓reduceIte,
      hrecord, Nat.not_le_of_lt hnew, hleadership, Sequencer.submit, hlane]
    exact ⟨_, rfl⟩
  obtain ⟨sequencer, hsubmit⟩ := hsubmit
  refine ⟨_, last, hsubmit, (carries_iff hproper.sound).mpr
    (hcovers.sound _ _ hlast), fun other hother => ?_, rfl, rfl, rfl, rfl⟩
  obtain ⟨found, hfound, hbound⟩ := hcovers.complete sequence other
    ((carries_iff hproper.sound).mp hother) hnew
  rw [hlast, Option.some.injEq] at hfound
  exact hfound ▸ hbound

end Node

namespace Run

variable {L σ : Type} [LogStore L] [FaithfulLog L] [StateMachine σ]
  {run : Run L σ}

/-- Before a time a command of a session was refused in a term because it
could not be stored. -/
def Loses (run : Run L σ) (last : Nat) (id : NodeId) (session : SessionId)
    (term : Nat) : Prop :=
  ∃ time ticket request output after, time < last ∧
    run.Takes time id (.command ticket request) output after ∧
    request.session = session ∧ (run.node time id).term = term ∧ after.Refused

/-- A node that was given entries was sent them. -/
theorem Valid.append_sent (hvalid : run.Valid) {time : Nat} {id : NodeId}
    {request : AppendRequest} {output : Output} {after : Node L σ}
    (htakes : run.Takes time id (.append request) output after) :
    ∃ sender, ⟨sender, id, .append request⟩ ∈ (run.network time).sent := by
  obtain ⟨_, -, -, -, -, hbrings⟩ := hvalid.takes htakes
  rcases hbrings with hlocal | ⟨⟨sender, receiver, packet⟩, hsent, rfl, heq⟩
  · simp [Input.isLocal] at hlocal
  · cases packet <;> simp only [Envelope.input, reduceCtorEq,
      Input.append.injEq] at heq
    subst heq
    exact ⟨sender, hsent⟩

omit [StateMachine σ] in
/-- What a node sends off is backed where its desk is. -/
theorem backed_of_posted {node : Node L σ} (hbacked : node.desk.Backed)
    {envelope : Envelope} (hposted : envelope ∈ node.standing.posted) :
    envelope.Backed := by
  obtain ⟨sender, receiver, packet⟩ := envelope
  rintro request rfl entry hentry
  rcases Network.mail_of_mem_posted hposted with
    ⟨_, hvote⟩ | ⟨given, hgiven, hmail⟩
  · simp at hvote
  · obtain rfl := Packet.append.inj hgiven
    exact hbacked.posted entry (List.mem_flatMap.mpr
      ⟨_, (List.mem_filter.mp hmail).1, hentry⟩)

/-- No answer carries entries. -/
theorem backed_of_reply {delivered reply : Envelope} {output : Output}
    (hreply : delivered.reply? output = some reply) : reply.Backed := by
  rintro request hpacket
  unfold Envelope.reply? at hreply
  split at hreply <;>
    simp only [Option.some.injEq, reduceCtorEq] at hreply
  all_goals
    subst hreply
    simp at hpacket

/-- What a node makes of an input of a network whose messages are backed. -/
theorem Valid.takes_backed (hvalid : run.Valid) {time : Nat} {id : NodeId}
    {input : Input} {output : Output} {after : Node L σ}
    (hbacked : (run.node time id).desk.Backed)
    (hsent : ∀ envelope ∈ (run.network time).sent, envelope.Backed)
    (htakes : run.Takes time id input output after) :
    after.desk.Backed ∧ ∀ request, input = .append request →
      ∀ entry ∈ request.entries, entry.Behind := by
  obtain ⟨_, -, -, -, hid, -⟩ := hvalid.takes htakes
  have hproper := hvalid.proper time hid
  have hinput : ∀ request, input = .append request →
      ∀ entry ∈ request.entries, entry.Behind := by
    rintro request rfl
    obtain ⟨sender, hgiven⟩ := hvalid.append_sent htakes
    exact hsent _ hgiven request rfl
  have hturns : Turns (fun _ _ => True) input (run.node time id).desk
      after.desk := hproper.turns htakes.2 (fun _ _ _ _ _ => trivial)
  exact ⟨hturns.backed hproper.founded hbacked hinput, hinput⟩

/-- Every command, in a log or under way, stands behind the place at which its
session was opened. -/
theorem Valid.backed (hvalid : run.Valid) (hempty : run.BeginsEmpty)
    (time : Nat) :
    (∀ id ∈ run.members, (run.node time id).desk.Backed) ∧
      ∀ envelope ∈ (run.network time).sent, envelope.Backed := by
  -- A log takes entries from messages and a message takes them from a log, so
  -- neither half goes through the induction alone.
  induction time with
  | zero =>
      refine ⟨fun id hid => ?_, fun envelope hsent => ?_⟩
      · obtain ⟨_, log, _, hlog, hstart⟩ := hvalid.begins id hid
        have hnil : (run.node 0 id).desk.entries = [] := by
          refine List.eq_nil_of_length_eq_zero ?_
          exact (lastIndex_eq_length (hvalid.proper 0 hid).sound).symm.trans
            (hempty id hid)
        have hposted : (run.node 0 id).desk.posted = [] :=
          congrArg Desk.posted (Node.start_desk hlog hstart)
        exact ⟨by simp [hnil], by simp [hposted]⟩
      · rw [network_zero, hvalid.silent] at hsent
        simp at hsent
  | succ time ih =>
      obtain ⟨hnodes, hsent⟩ := ih
      refine ⟨fun id hid => ?_, fun envelope hlater => ?_⟩
      · have hbacked := hnodes id hid
        rcases hvalid.undergoes time hid with
          hsame | ⟨happening, incident, hhappening, hincident, hundergoes⟩
        · rw [hsame]
          exact hbacked
        · generalize run.node (time + 1) id = next at hundergoes ⊢
          cases hundergoes with
          | overflow _ => exact hbacked
          | taken hstep =>
              have hinput : run.happenings[time]?.bind Happening.input? = _ :=
                Option.bind_eq_some_iff.mpr
                  ⟨_, hhappening, Happening.input?_eq hincident⟩
              have hafter :=
                (hvalid.takes_backed hbacked hsent ⟨hinput, hstep⟩).1
              exact ⟨hafter.entries, fun _ hposted => by
                simp [Node.desk, Node.take] at hposted⟩
          | refit _ hmemory =>
              rw [(Node.refit_same hmemory).2]
              exact hbacked
          | unfit => exact hbacked
          | restarted hlog hmemory hstart =>
              rw [Node.start_desk hlog hstart]
              simp only [entries, hmemory]
              exact ⟨hbacked.entries, fun _ hposted => by simp at hposted⟩
      · cases hvalid.fares time envelope.sender with
        | idle _ hold => exact hsent envelope (hold envelope hlater rfl)
        | restarted _ hsame => exact hsent envelope (hsame ▸ hlater)
        | taken htakes _ hnew =>
            obtain ⟨_, -, -, -, hsender, -⟩ := hvalid.takes htakes
            rcases hnew envelope hlater with
              hold | hposted | ⟨_, -, -, hreply⟩
            · exact hsent envelope hold
            · exact backed_of_posted (hvalid.takes_backed
                (hnodes _ hsender) hsent htakes).1 hposted
            · exact backed_of_reply hreply

/-- The lanes of the sessions of which a leader has lost nothing know what
stands in its log. -/
theorem Valid.covered (hvalid : run.Valid) (hempty : run.BeginsEmpty)
    {id : NodeId} (hid : id ∈ run.members) (last : Nat) {time : Nat}
    (hle : time ≤ last) :
    (run.node time id).desk.Covered
      (fun session term => ¬run.Loses last id session term) := by
  -- What is lost by `last` does not change with `time`.
  induction time with
  | zero =>
      obtain ⟨_, _, _, hlog, hstart⟩ := hvalid.begins id hid
      have hnone : (run.node 0 id).desk.lanes = none :=
        congrArg Desk.lanes (Node.start_desk hlog hstart)
      exact fun lanes hlanes => by simp [hnone] at hlanes
  | succ time ih =>
      have hcovered := ih (Nat.le_of_succ_le hle)
      rcases hvalid.undergoes time hid with
        hsame | ⟨happening, incident, hhappening, hincident, hundergoes⟩
      · rw [hsame]
        exact hcovered
      · generalize run.node (time + 1) id = next at hundergoes ⊢
        cases hundergoes with
        | overflow _ => exact hcovered
        | @taken input output after hstep =>
            have hproper := hvalid.proper time hid
            obtain ⟨hnodes, hsent⟩ := hvalid.backed hempty time
            have hbacked := hnodes id hid
            have htakes : run.Takes time id input output after :=
              ⟨Option.bind_eq_some_iff.mpr
                ⟨_, hhappening, Happening.input?_eq hincident⟩, hstep⟩
            have hturns : Turns (run.Loses last id) input
                (run.node time id).desk after.desk :=
              hproper.turns hstep (by
                rintro ticket request rfl hrefused -
                exact ⟨time, ticket, request, output, after, hle, htakes, rfl,
                  rfl, hrefused⟩)
            have hafter : after.desk.Covered _ := hturns.covered
              hproper.founded hbacked hcovered
              (hvalid.takes_backed hbacked hsent htakes).2
              (fun _ _ hgood => hgood)
            exact hafter
        | refit _ hmemory =>
            rw [(Node.refit_same hmemory).2]
            exact hcovered
        | unfit => exact hcovered
        | restarted hlog _ hstart =>
            rw [Node.start_desk hlog hstart]
            exact fun lanes hlanes => by simp at hlanes

/-- A command that is submitted again while an entry that holds it is not
applied is not appended again: the client waits for the last such entry, or is
told the outcome at once if an earlier one was applied.  So it is as long as
every command of the session could be stored in the term. -/
theorem retry_joins (hvalid : run.Valid) (hempty : run.BeginsEmpty)
    {time : Nat} {id : NodeId} (hid : id ∈ run.members)
    {leadership : Leadership}
    (hleadership : (run.node time id).leadership = some leadership)
    {session sequence index : Nat} {record : Session}
    (hrecord : (run.node time id).executor.sessions.get? session = some record)
    (hcarries : (run.node time id).Carries session sequence index)
    (hkept : ¬run.Loses time id session (run.node time id).term)
    (ticket : Ticket) (payload : Bytes) :
    ∃ after, (run.node time id).submitCommand ticket
        ⟨session, sequence, payload⟩ = .ok after ∧
      (record.commandSequence < sequence → ∃ last,
        (run.node time id).Carries session sequence last ∧
        (∀ other, (run.node time id).Carries session sequence other →
          other ≤ last) ∧
        (run.node time id).Waits after last ticket) ∧
      (sequence ≤ record.commandSequence →
        after = (run.node time id).answer ticket
          (.command (record.cachedResult sequence))) := by
  have hproper := hvalid.proper time hid
  by_cases happlied : sequence ≤ record.commandSequence
  · refine ⟨_, ?_, fun hnew => absurd happlied (Nat.not_le_of_lt hnew),
      fun _ => rfl⟩
    have hrole := hproper.leads (by simp [hleadership])
    simp only [Node.submitCommand, hrole, ne_eq, not_true_eq_false, ↓reduceIte,
      hrecord, happlied]
    rfl
  · have hcovers := hvalid.covered hempty hid time (Nat.le_refl time) _
      (Node.desk_lanes hleadership) session _ hkept
      (Or.inl (Node.desk_marks hrecord))
    obtain ⟨after, last, hsubmit, hlast, hbound, hwaits⟩ :=
      Node.submitCommand_waits hproper hleadership hrecord hcovers hcarries
        (Nat.lt_of_not_le happlied) ticket payload
    exact ⟨after, hsubmit, fun _ => ⟨last, hlast, hbound, hwaits⟩,
      fun hle => absurd hle happlied⟩

end Run

namespace Witness

/-- A log in memory whose appends may fail. -/
def storage (entries : List LogEntry) (term : Nat) (votedFor : Option NodeId)
    (faults : Faults) : Faulty MemoryLog := ⟨⟨entries, term, votedFor⟩, faults⟩

/-- What the leader has in its log once the first command is appended. -/
def pendingEntries : List LogEntry :=
  [⟨1, 1, .noOp⟩, ⟨1, 2, .register 7 60000 0⟩, ⟨1, 3, .command 2 1 0 [1, 7]⟩]

/-- What happens until the leader has appended the first command of a
session. -/
def leadIn : List (Happening (Faulty MemoryLog) Tally) := [
  .input 1 .electionTimeout,
  .delivery ⟨1, 2, .vote ⟨1, 1, 0, 0⟩⟩,
  .delivery ⟨2, 1, .voteResponse (.ok ⟨1, true⟩)⟩,
  .input 1 (.register 1 ⟨7, 60000⟩),
  .delivery ⟨1, 2, .append ⟨1, 1, 0, 0, openingEntries, 0, 2⟩⟩,
  .delivery ⟨2, 1, .appendResponse (.ok ⟨1, true, 2, 2⟩)⟩,
  .input 1 (.command 2 ⟨2, 1, [1, 7]⟩)]

/-- A run in which the append of the second command fails, and the first one is
submitted again. -/
def retried : Run (Faulty MemoryLog) Tally where
  members := [1, 2, 3]
  start := { nodes := member (storage [] 0 none .none) .start, sent := [] }
  happenings := leadIn ++ [
    .refit 1 (storage pendingEntries 1 (some 1) { append := some 0 }),
    .input 1 (.command 3 ⟨2, 2, [1, 7]⟩),
    .refit 1 (storage pendingEntries 1 (some 1) .none),
    .input 1 (.command 4 ⟨2, 1, [1, 7]⟩)]

theorem numbered_pendingEntries : Numbered pendingEntries := by decide

theorem retried_valid : retried.Valid where
  distinct := by decide
  begins := fun id _ => ⟨{}, storage [] 0 none .none, .start,
    ⟨rfl, rfl, rfl, numbered_nil⟩, rfl⟩
  silent := rfl
  possible time happening hhappening := by
    rcases time with _ | _ | _ | _ | _ | _ | _ | _ | _ | _ | _ | time
    all_goals simp only [retried, leadIn, List.cons_append, List.nil_append,
      List.getElem?_cons_succ, List.getElem?_cons_zero, List.getElem?_nil,
      Option.some.injEq, reduceCtorEq] at hhappening
    all_goals subst hhappening
    all_goals first
      | exact ⟨by decide, by decide⟩
      | exact ⟨by decide, ⟨rfl, rfl, rfl, numbered_pendingEntries⟩, rfl⟩

/-- The first command could be stored. -/
theorem retried_keeps : ¬retried.Loses 7 1 2 1 := by
  rintro ⟨time, ticket, request, output, after, hlt, ⟨hgiven, hstep⟩, -, -,
    waiting, hrefused⟩
  obtain ⟨quiet, hquiet, hanswers⟩ : ∃ quiet,
      (retried.node 6 1).step (.command 2 ⟨2, 1, [1, 7]⟩) =
        .ok (.none, quiet) ∧ quiet.answers = [] := ⟨_, rfl, rfl⟩
  rcases time with _ | _ | _ | _ | _ | _ | _ | time
  case _ | _ | _ | _ | _ | _ =>
      simp [retried, leadIn, Happening.input?, Envelope.input] at hgiven
  · simp only [retried, leadIn] at hgiven
    cases hgiven
    rw [hquiet] at hstep
    cases hstep
    rw [hanswers] at hrefused
    simp at hrefused
  · omega

/-- Submitted again before anything has failed, the first command waits for its
entry. -/
theorem retry_joins_pending : retried.Valid ∧ retried.BeginsEmpty ∧
    (retried.node 7 1).Carries 2 1 3 ∧ ∃ after,
      (retried.node 7 1).submitCommand 4 ⟨2, 1, [1, 7]⟩ = .ok after ∧
        (retried.node 7 1).Waits after 3 4 := by
  obtain ⟨leadership, hleadership⟩ :
      ∃ leadership, (retried.node 7 1).leadership = some leadership :=
    ⟨_, rfl⟩
  obtain ⟨record, hrecord, hmark⟩ : ∃ record,
      (retried.node 7 1).executor.sessions.get? 2 = some record ∧
        record.commandSequence = 0 := ⟨_, rfl, rfl⟩
  have hcarries : (retried.node 7 1).Carries 2 1 3 :=
    ⟨by decide, _, rfl, rfl⟩
  obtain ⟨after, hsubmit, hwaits, -⟩ := Run.retry_joins retried_valid
    (fun _ _ => rfl) (by decide) hleadership hrecord hcarries retried_keeps 4
    [1, 7]
  obtain ⟨last, ⟨-, entry, hentry, -⟩, hbound, hlast⟩ :=
    hwaits (by rw [hmark]; exact Nat.zero_lt_one)
  -- The log ends with the entry.
  obtain rfl : last = 3 := by
    refine Nat.le_antisymm ?_ (hbound 3 hcarries)
    by_contra hgt
    have hnone : LogStore.get? (retried.node 7 1).log last = none := by
      obtain ⟨past, rfl⟩ : ∃ past, last = past + 4 := ⟨last - 4, by omega⟩
      rfl
    rw [hnone] at hentry
    simp at hentry
  exact ⟨retried_valid, fun _ _ => rfl, hcarries, after, hsubmit, hlast⟩

/-- Once an append of the second command has failed, the first one is appended
a second time, though its entry is still in the log. -/
theorem retry_joins_failed : retried.Valid ∧ retried.BeginsEmpty ∧
    (retried.node 10 1).isLeader = true ∧
    (retried.node 10 1).executor.sessions.contains 2 = true ∧
    (retried.node 10 1).Carries 2 1 3 ∧
    ∃ after, (retried.node 10 1).submitCommand 4 ⟨2, 1, [1, 7]⟩ = .ok after ∧
      LogStore.lastIndex after.log = 4 ∧ after.Carries 2 1 4 :=
  ⟨retried_valid, fun _ _ => rfl, rfl, rfl, ⟨by decide, _, rfl, rfl⟩, _, rfl,
    rfl, by decide, _, rfl, rfl⟩

end Witness

end SessionRaft
