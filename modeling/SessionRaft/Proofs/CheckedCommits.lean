/-
Committing and applying in machine words.  A number that does not fit its word
leaves no result here.  All those that are counted up on the way of an entry
into the executor fit, if the number of events does in the end and if what is
committed is in the log.  How many members or votes a list in memory holds needs
no check.
-/
import SessionRaft.Proofs.EventStreams
import SessionRaft.Proofs.Lives

namespace SessionRaft

/-- The machine word that follows on another. -/
def wordAfter? (word : Nat) : Option Nat :=
  if word < wordMax then some (word + 1) else none

/-- The machine word on which another follows. -/
def wordBefore? (word : Nat) : Option Nat :=
  if 0 < word then some (word - 1) else none

/-- The number of the next event.  Events are counted in signed words. -/
def eventAfter? (number : Nat) : Option Nat :=
  if number + 1 < signedBound then some (number + 1) else none

theorem wordAfter?_eq {word : Nat} (hfits : word < wordMax) :
    wordAfter? word = some (word + 1) := if_pos hfits

theorem wordBefore?_eq {word : Nat} (hpositive : 0 < word) :
    wordBefore? word = some (word - 1) := if_pos hpositive

theorem eventAfter?_eq {number : Nat} (hfits : number + 1 < signedBound) :
    eventAfter? number = some (number + 1) := if_pos hfits

/-! ### The events of the sessions -/

namespace SessionTable

def checkedPublish (table : SessionTable) (id : SessionId) (payload : Bytes) :
    Option SessionTable :=
  match table.get? id with
  | none => some table
  | some session => do
      let version ← eventAfter? table.eventVersion
      let sequence ← eventAfter? session.eventSequence
      return ⟨table.sessions.insert id { session with
        eventSequence := sequence
        events := session.events ++ [⟨version, sequence, payload⟩] }, version⟩

/-- No session has had more events than there were of all. -/
def Counted (table : SessionTable) : Prop :=
  ∀ id session, table.get? id = some session →
    session.eventSequence ≤ table.eventVersion

/-- There were at least as many events, and they are counted as before. -/
structure Onward (before after : SessionTable) : Prop where
  version : before.eventVersion ≤ after.eventVersion
  counted : before.Counted → after.Counted

variable {table before middle after : SessionTable}

theorem Onward.refl (table : SessionTable) : Onward table table :=
  ⟨Nat.le_refl _, id⟩

theorem Onward.trans (hfirst : Onward before middle)
    (hsecond : Onward middle after) : Onward before after :=
  ⟨Nat.le_trans hfirst.version hsecond.version,
    fun hcounted => hsecond.counted (hfirst.counted hcounted)⟩

/-- Sessions may be closed or change, if that leaves their events counted. -/
theorem onward_of_eventSequence
    (hversion : after.eventVersion = before.eventVersion)
    (hsessions : ∀ id session, after.get? id = some session →
      session.eventSequence = 0 ∨ ∃ earlier, before.get? id = some earlier ∧
        session.eventSequence = earlier.eventSequence) :
    Onward before after := by
  refine ⟨Nat.le_of_eq hversion.symm, fun hcounted id session hget => ?_⟩
  rcases hsessions id session hget with hzero | ⟨earlier, hearlier, heq⟩
  · rw [hzero]
    exact Nat.zero_le _
  · rw [heq, hversion]
    exact hcounted id earlier hearlier

theorem onward_update (table : SessionTable) (id : SessionId)
    {f : Session → Session}
    (hf : ∀ session, (f session).eventSequence = session.eventSequence) :
    Onward table (table.update id f) := by
  refine onward_of_eventSequence rfl (fun other session hget => Or.inr ?_)
  rw [get?_update] at hget
  split at hget
  · obtain ⟨earlier, hearlier, rfl⟩ := Option.map_eq_some_iff.mp hget
    exact ⟨earlier, hearlier, hf earlier⟩
  · exact ⟨session, hget, rfl⟩

theorem onward_expire (table : SessionTable) (now : Nat) :
    Onward table (table.expire now) := by
  refine onward_of_eventSequence rfl (fun id session hget => Or.inr ?_)
  rw [get?_expire, Option.filter_eq_some_iff] at hget
  exact ⟨session, hget.1, rfl⟩

theorem onward_remove (table : SessionTable) (id : SessionId) :
    Onward table (table.remove id) := by
  refine onward_of_eventSequence rfl (fun other session hget => Or.inr ?_)
  rw [get?_remove, Option.ite_none_left_eq_some] at hget
  exact ⟨session, hget.2, rfl⟩

theorem onward_register (table : SessionTable) {session : Session}
    (hfresh : session.eventSequence = 0) :
    Onward table (table.register session) := by
  refine onward_of_eventSequence rfl (fun id record hget => ?_)
  rw [get?_register] at hget
  split at hget
  · obtain rfl := Option.some.inj hget
    exact Or.inl hfresh
  · exact Or.inr ⟨record, hget, rfl⟩

theorem onward_publish (table : SessionTable) (id : SessionId)
    (payload : Bytes) : Onward table (table.publish id payload).1 := by
  unfold publish
  split
  · exact .refl table
  · rename_i session hsession
    refine ⟨Nat.le_succ _, fun hcounted other record hget => ?_⟩
    change (table.sessions.insert id _).get? other = some record at hget
    rw [Table.get?_insert] at hget
    split at hget
    · obtain rfl := Option.some.inj hget
      exact Nat.succ_le_succ (hcounted id session hsession)
    · exact Nat.le_succ_of_le (hcounted other record hget)

theorem checkedPublish_eq (hcounted : table.Counted) {id : SessionId}
    {payload : Bytes}
    (hfits : (table.publish id payload).1.eventVersion < signedBound) :
    table.checkedPublish id payload = some (table.publish id payload).1 := by
  unfold checkedPublish
  cases hget : table.get? id with
  | none => simp only [publish, hget]
  | some session =>
      have hle := hcounted id session hget
      simp only [publish, hget] at hfits ⊢
      rw [eventAfter?_eq hfits, eventAfter?_eq (by omega)]
      rfl

end SessionTable

namespace Executor

variable {σ : Type}

def checkedPublishAll (sessions : SessionTable) :
    List (SessionId × Bytes) → Option SessionTable
  | [] => some sessions
  | (recipient, payload) :: events => do
      checkedPublishAll (← sessions.checkedPublish recipient payload) events

theorem onward_publishAll (table : SessionTable)
    (events : List (SessionId × Bytes)) :
    table.Onward (publishAll table events) := by
  induction events generalizing table with
  | nil => exact .refl table
  | cons event events ih =>
      exact (table.onward_publish event.1 event.2).trans (ih _)

theorem checkedPublishAll_eq {table : SessionTable}
    (hcounted : table.Counted) {events : List (SessionId × Bytes)}
    (hfits : (publishAll table events).eventVersion < signedBound) :
    checkedPublishAll table events = some (publishAll table events) := by
  induction events generalizing table with
  | nil => rfl
  | cons event events ih =>
      obtain ⟨recipient, payload⟩ := event
      have honward := onward_publishAll (table.publish recipient payload).1
        events
      have hpublish : table.checkedPublish recipient payload =
          some (table.publish recipient payload).1 :=
        SessionTable.checkedPublish_eq hcounted
          (Nat.lt_of_le_of_lt honward.version hfits)
      rw [checkedPublishAll, hpublish]
      exact ih ((table.onward_publish recipient payload).counted hcounted) hfits

variable [StateMachine σ]

def checkedRun (executor : Executor σ) (commit : Commit) :
    Option (Executor σ × CommandResponse) := do
  let sessions :=
    executor.sessions.update commit.session (·.touch commit.timestamp)
  let effect := StateMachine.apply executor.machine commit
  let result : CommandResponse :=
    match effect.output with
    | some output => .ok ⟨commit.index, output⟩
    | none => .error .applicationError
  let sessions ← checkedPublishAll sessions effect.events
  return (⟨effect.state,
    sessions.update commit.session (·.recordResult commit.sequence result)⟩,
    result)

def checkedApplyCommand (executor : Executor σ) (commit : Commit) :
    Option (Executor σ × CommandResponse) :=
  match executor.sessions.get? commit.session with
  | none => some (executor, .error .unknownSession)
  | some session =>
      if commit.sequence ≤ session.commandSequence then
        some (executor, session.cachedResult commit.sequence)
      else executor.checkedRun commit

def checkedApply (executor : Executor σ) (entry : LogEntry) :
    Option (Executor σ × Applied) :=
  match entry.operation with
  | .command session sequence timestamp payload => do
      let (executor, result) ← executor.checkedApplyCommand
        ⟨entry.index, session, sequence, timestamp, payload⟩
      return (executor, .command session sequence result)
  | _ => some (executor.apply entry)

variable {executor : Executor σ}

theorem onward_run (executor : Executor σ) (commit : Commit) :
    executor.sessions.Onward (executor.run commit).1.sessions :=
  ((executor.sessions.onward_update commit.session
      (f := (·.touch commit.timestamp)) (fun _ => rfl)).trans
    (onward_publishAll _ _)).trans
    (SessionTable.onward_update _ commit.session
      (f := (·.recordResult commit.sequence (executor.run commit).2))
      (fun _ => rfl))

theorem onward_applyCommand (executor : Executor σ) (commit : Commit) :
    executor.sessions.Onward (executor.applyCommand commit).1.sessions := by
  unfold applyCommand
  split
  · exact .refl _
  · split
    · exact .refl _
    · exact executor.onward_run commit

omit [StateMachine σ] in
theorem acknowledge_eventSequence (session : Session) (reported : Int) :
    (session.acknowledge reported).eventSequence = session.eventSequence := by
  unfold Session.acknowledge
  split <;> rfl

omit [StateMachine σ] in
theorem onward_keepAlive (executor : Executor σ) (session : SessionId)
    (commandSequence : Nat) (reported : Int) (timestamp : Nat) :
    executor.sessions.Onward (executor.keepAlive session commandSequence
      reported timestamp).1.sessions := by
  unfold keepAlive
  split
  · exact executor.sessions.onward_update _
      (fun _ => acknowledge_eventSequence _ _)
  · exact .refl _

omit [StateMachine σ] in
theorem onward_unregister (executor : Executor σ) (session : SessionId) :
    executor.sessions.Onward (executor.unregister session).1.sessions := by
  unfold unregister
  split
  · exact executor.sessions.onward_remove _
  · exact .refl _

theorem onward_apply (executor : Executor σ) (entry : LogEntry) :
    executor.sessions.Onward (executor.apply entry).1.sessions := by
  cases hoperation : entry.operation <;> simp only [apply, hoperation]
  case noOp => exact .refl _
  case register => exact executor.sessions.onward_register rfl
  case keepAlive => exact executor.onward_keepAlive _ _ _ _
  case unregister => exact executor.onward_unregister _
  case command => exact executor.onward_applyCommand _

omit [StateMachine σ] in
theorem onward_lapse (executor : Executor σ) (operation : Operation) :
    executor.sessions.Onward (executor.lapse operation).sessions := by
  unfold lapse
  split
  · exact executor.sessions.onward_expire _
  · exact .refl _

theorem onward_commit (executor : Executor σ) (entry : LogEntry) :
    executor.sessions.Onward (executor.commit entry).1.sessions :=
  (executor.onward_lapse entry.operation).trans (onward_apply _ entry)

/-- Whatever is committed, the events stay counted. -/
theorem Commits.onward {start executor : Executor σ} {entries : List LogEntry}
    (hcommits : start.Commits entries executor) :
    start.sessions.Onward executor.sessions := by
  induction hcommits with
  | none => exact .refl _
  | commit entry _ ih => exact ih.trans (onward_commit _ entry)
  | @acknowledge _ executor session sequence _ ih =>
      exact ih.trans (executor.sessions.onward_update session
        (fun record => acknowledge_eventSequence record sequence))

theorem checkedRun_eq (hcounted : executor.sessions.Counted) {commit : Commit}
    (hfits : (executor.run commit).1.sessions.eventVersion < signedBound) :
    executor.checkedRun commit = some (executor.run commit) := by
  unfold checkedRun
  dsimp only
  rw [checkedPublishAll_eq ((executor.sessions.onward_update commit.session
    (f := (·.touch commit.timestamp)) (fun _ => rfl)).counted hcounted) hfits]
  rfl

theorem checkedApplyCommand_eq (hcounted : executor.sessions.Counted)
    {commit : Commit}
    (hfits :
      (executor.applyCommand commit).1.sessions.eventVersion < signedBound) :
    executor.checkedApplyCommand commit =
      some (executor.applyCommand commit) := by
  unfold checkedApplyCommand
  cases hget : executor.sessions.get? commit.session with
  | none => simp only [applyCommand, hget]
  | some session =>
      simp only [applyCommand, hget] at hfits ⊢
      split
      · rfl
      · rename_i hnew
        rw [if_neg hnew] at hfits
        exact checkedRun_eq hcounted hfits

theorem checkedApply_eq (hcounted : executor.sessions.Counted)
    {entry : LogEntry}
    (hfits : (executor.apply entry).1.sessions.eventVersion < signedBound) :
    executor.checkedApply entry = some (executor.apply entry) := by
  unfold checkedApply
  split
  · rename_i session sequence timestamp payload hoperation
    simp only [apply, hoperation] at hfits ⊢
    rw [checkedApplyCommand_eq hcounted hfits]
    rfl
  · rfl

end Executor

/-! ### Committing and applying -/

namespace Node

open FaithfulLog

variable {L σ : Type} [LogStore L] [StateMachine σ]

def checkedApplyEntry (node : Node L σ) (entry : LogEntry) :
    Option (Node L σ) := do
  let node := node.expireBefore entry.operation
  let (executor, applied) ← node.executor.checkedApply entry
  return ({ node with executor := executor }.settle entry.operation
    applied).complete entry.index applied

def checkedApplyNext (node : Node L σ) : Nat → Option (Node L σ)
  | 0 => some node
  | count + 1 => do
      let index ← wordAfter? node.lastApplied
      match LogStore.get? node.log index with
      | none => return node
      | some entry =>
          (← { node with lastApplied := index }.checkedApplyEntry
            entry).checkedApplyNext count

def checkedApplyCommitted (node : Node L σ) : Option (Node L σ) := do
  let node ← node.checkedApplyNext (node.commitIndex - node.lastApplied)
  return node.serveQueries.publishEvents

/-- Commit what a quorum holds.  It is looked for behind the commit index. -/
def checkedAdvanceCommit (node : Node L σ) : Option (Bool × Node L σ) :=
  match node.leadership with
  | none => some (false, node)
  | some leadership => do
      let _ ← wordAfter? node.commitIndex
      match node.commitTarget? leadership with
      | none => return (false, node)
      | some target =>
          return (true,
            ← { node with commitIndex := target }.checkedApplyCommitted)

def checkedFollowCommit (node : Node L σ) (target : Nat) :
    Option (Node L σ) :=
  if node.commitIndex < target then
    { node with commitIndex := target }.checkedApplyCommitted
  else some node

/-- What was applied is committed, what is committed is in the log, and there
is room in the log for one more entry. -/
structure Roomy (node : Node L σ) : Prop where
  counted : node.executor.sessions.Counted
  applied : node.lastApplied ≤ node.commitIndex
  committed : node.commitIndex ≤ LogStore.lastIndex node.log
  log : LogStore.lastIndex node.log < wordMax

variable [FaithfulLog L] {node : Node L σ}

theorem onward_applyEntry (node : Node L σ) (entry : LogEntry) :
    node.executor.sessions.Onward
      (node.applyEntry entry).executor.sessions := by
  have hexecutor : (node.applyEntry entry).executor =
      (node.executor.commit entry).1 :=
    congrArg Standing.executor (lapsed_applyEntry node entry).standing
  rw [hexecutor]
  exact node.executor.onward_commit entry

theorem onward_applyNext (node : Node L σ) (count : Nat) :
    node.executor.sessions.Onward
      (node.applyNext count).executor.sessions :=
  applyNext_induction
    (fun after => node.executor.sessions.Onward after.executor.sessions) node
    count (.refl _)
    (fun middle entry honward _ => honward.trans (onward_applyEntry
      { middle with lastApplied := middle.lastApplied + 1 } entry))

theorem checkedApplyEntry_eq (node : Node L σ)
    (hcounted : node.executor.sessions.Counted) {entry : LogEntry}
    (hfits : (node.applyEntry entry).executor.sessions.eventVersion <
      signedBound) :
    node.checkedApplyEntry entry = some (node.applyEntry entry) := by
  have hexecutor : (node.expireBefore entry.operation).executor =
      node.executor.lapse entry.operation :=
    congrArg Standing.executor
      (lapsed_expireBefore node entry.operation).standing
  have happlied : (node.applyEntry entry).executor =
      ((node.expireBefore entry.operation).executor.apply entry).1 := by
    rw [hexecutor]
    exact congrArg Standing.executor (lapsed_applyEntry node entry).standing
  have hlapsed : (node.expireBefore entry.operation).executor.sessions.Counted
      := by
    rw [hexecutor]
    exact (node.executor.onward_lapse entry.operation).counted hcounted
  rw [happlied] at hfits
  unfold checkedApplyEntry
  dsimp only
  rw [Executor.checkedApply_eq hlapsed hfits]
  rfl

theorem checkedApplyNext_eq {count : Nat}
    (hcounted : node.executor.sessions.Counted)
    (hword : node.lastApplied + count ≤ wordMax)
    (hfits : (node.applyNext count).executor.sessions.eventVersion <
      signedBound) :
    node.checkedApplyNext count = some (node.applyNext count) := by
  induction count generalizing node with
  | zero => rfl
  | succ count ih =>
      unfold checkedApplyNext
      rw [wordAfter?_eq (by omega)]
      simp only [applyNext, Option.bind_eq_bind, Option.bind_some] at hfits ⊢
      cases hget : LogStore.get? node.log (node.lastApplied + 1) with
      | none => rfl
      | some entry =>
          simp only [hget] at hfits
          have happly := onward_applyEntry
            { node with lastApplied := node.lastApplied + 1 } entry
          have hnext := onward_applyNext
            (applyEntry { node with lastApplied := node.lastApplied + 1 } entry)
            count
          have hlast : (applyEntry
              { node with lastApplied := node.lastApplied + 1 }
              entry).lastApplied = node.lastApplied + 1 :=
            congrArg Standing.lastApplied (lapsed_applyEntry _ entry).standing
          have hentry := checkedApplyEntry_eq
            { node with lastApplied := node.lastApplied + 1 } hcounted
            (Nat.lt_of_le_of_lt hnext.version hfits)
          simp only [hentry, Option.bind_some]
          exact ih (happly.counted hcounted) (by omega) hfits

theorem checkedApplyCommitted_eq (node : Node L σ)
    (hcounted : node.executor.sessions.Counted)
    (happlied : node.lastApplied ≤ wordMax)
    (hcommitted : node.commitIndex ≤ wordMax)
    (hfits : node.applyCommitted.executor.sessions.eventVersion <
      signedBound) :
    node.checkedApplyCommitted = some node.applyCommitted := by
  have hexecutor : node.applyCommitted.executor = (node.applyNext
      (node.commitIndex - node.lastApplied)).executor :=
    congrArg Standing.executor (quiet_publishEvents _).standing
  rw [hexecutor] at hfits
  unfold checkedApplyCommitted
  rw [checkedApplyNext_eq hcounted (by omega) hfits]
  rfl

theorem Roomy.checkedAdvanceCommit (hroomy : node.Roomy)
    (hfits : node.advanceCommit.2.executor.sessions.eventVersion <
      signedBound) :
    node.checkedAdvanceCommit = some node.advanceCommit := by
  obtain ⟨hcounted, happlied, hcommitted, hlog⟩ := hroomy
  unfold Node.checkedAdvanceCommit
  split
  · rename_i hleadership
    simp [advanceCommit, hleadership]
  · rename_i leadership hleadership
    rw [wordAfter?_eq (by omega)]
    cases htarget : node.commitTarget? leadership with
    | none => simp [advanceCommit, hleadership, htarget]
    | some target =>
        obtain ⟨-, hle, -⟩ := commitTarget?_spec htarget
        have hfound : node.leadership.bind node.commitTarget? =
            some target := by rw [hleadership, Option.bind_some, htarget]
        simp only [advanceCommit, hfound] at hfits ⊢
        have happly := checkedApplyCommitted_eq
          { node with commitIndex := target } hcounted (by dsimp only; omega)
          (by dsimp only; omega) hfits
        simp only [happly]
        rfl

theorem Roomy.checkedFollowCommit (hroomy : node.Roomy) {target : Nat}
    (htarget : target ≤ LogStore.lastIndex node.log)
    (hfits : (node.followCommit target).executor.sessions.eventVersion <
      signedBound) :
    node.checkedFollowCommit target = some (node.followCommit target) := by
  obtain ⟨hcounted, happlied, hcommitted, hlog⟩ := hroomy
  unfold Node.checkedFollowCommit followCommit at *
  split
  · rename_i hlt
    rw [if_pos hlt] at hfits
    exact checkedApplyCommitted_eq _ hcounted (by dsimp only; omega)
      (by dsimp only; omega) hfits
  · rfl

end Node

end SessionRaft
