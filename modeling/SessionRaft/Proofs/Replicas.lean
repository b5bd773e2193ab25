/-
What the log decides of the state of a replica.  A leader takes note of events
that a client has received before the log says so; nothing but the
acknowledgments and the queues of events depends on that, so that replicas
which applied the same entries agree on everything else.
-/
import Mathlib.Data.List.Induction
import SessionRaft.ByteProgram
import SessionRaft.Proofs.EventStreams
import SessionRaft.Proofs.Lives

namespace SessionRaft

theorem Numbered.init {entries : List LogEntry} {entry : LogEntry}
    (hnumbered : Numbered (entries ++ [entry])) : Numbered entries := by
  intro place other hother
  obtain ⟨hplace, -⟩ := List.getElem?_eq_some_iff.mp hother
  exact hnumbered place other (by rwa [List.getElem?_append_left hplace])

theorem numbered_take {entries : List LogEntry} (hnumbered : Numbered entries)
    (count : Nat) : Numbered (entries.take count) := by
  intro place entry hentry
  rw [List.getElem?_take, Option.ite_none_right_eq_some] at hentry
  exact hnumbered place entry hentry.2

namespace Session

/-- A session without what its client has acknowledged of its events. -/
def logged (session : Session) : Session :=
  { session with eventAck := 0, ackedVersion := 0, events := [] }

theorem logged_eq_iff {left right : Session} : left.logged = right.logged ↔
    left.id = right.id ∧ left.client = right.client ∧
      left.timeout = right.timeout ∧
      left.lastKeepAlive = right.lastKeepAlive ∧
      left.commandSequence = right.commandSequence ∧
      left.results = right.results ∧
      left.eventSequence = right.eventSequence := by
  cases left
  cases right
  simp [logged]

@[simp] theorem logged_acknowledge (session : Session) (reported : Int) :
    (session.acknowledge reported).logged = session.logged := by
  unfold acknowledge
  split <;> rfl

variable {left right : Session}

theorem logged_touch (hsame : left.logged = right.logged) (timestamp : Nat) :
    (left.touch timestamp).logged = (right.touch timestamp).logged := by
  simp_all [logged_eq_iff, touch]

theorem logged_recordResult (hsame : left.logged = right.logged)
    (sequence : Nat) (result : CommandResponse) :
    (left.recordResult sequence result).logged =
      (right.recordResult sequence result).logged := by
  simp_all [logged_eq_iff, recordResult]

theorem logged_releaseResults (hsame : left.logged = right.logged)
    (upTo : Nat) :
    (left.releaseResults upTo).logged = (right.releaseResults upTo).logged := by
  simp_all [logged_eq_iff, releaseResults]

theorem logged_pushEvent (hsame : left.logged = right.logged) (version : Nat)
    (payload : Bytes) :
    (left.pushEvent version payload).1.logged =
        (right.pushEvent version payload).1.logged ∧
      (left.pushEvent version payload).2 =
        (right.pushEvent version payload).2 := by
  simp_all [logged_eq_iff, pushEvent]

theorem isExpired_eq (hsame : left.logged = right.logged) (now : Nat) :
    left.isExpired now = right.isExpired now := by
  obtain ⟨-, -, htimeout, hkeepAlive, -⟩ := logged_eq_iff.mp hsame
  have hdeadline : left.deadline = right.deadline := by
    rw [deadline, deadline, htimeout, hkeepAlive]
  rw [isExpired, isExpired, hdeadline]

end Session

/-- What two replicas have in common of a session. -/
structure Session.Agrees (left right : Session) : Prop where
  id : left.id = right.id
  client : left.client = right.client
  timeout : left.timeout = right.timeout
  lastKeepAlive : left.lastKeepAlive = right.lastKeepAlive
  commandSequence : left.commandSequence = right.commandSequence
  results : left.results = right.results
  eventSequence : left.eventSequence = right.eventSequence
  events : ∀ event ∈ left.events, ∀ other ∈ right.events,
    event.sequence = other.sequence →
      event.version = other.version ∧ event.payload = other.payload

/-- Queues that are parts of one stream hold the same events. -/
theorem Session.Agrees.of_streams {left right : Session} {stream : List Event}
    (hsame : left.logged = right.logged) (hleft : left.Streams stream)
    (hright : right.Streams stream) : left.Agrees right := by
  obtain ⟨hid, hclient, htimeout, hkeepAlive, hsequence, hresults, hevents⟩ :=
    Session.logged_eq_iff.mp hsame
  refine ⟨hid, hclient, htimeout, hkeepAlive, hsequence, hresults, hevents, ?_⟩
  intro event hevent other hother hnumber
  rw [hleft.queued] at hevent
  rw [hright.queued] at hother
  have hfirst := (hleft.getElem?_of_mem (List.mem_of_mem_drop hevent)).2
  have hsecond := (hright.getElem?_of_mem (List.mem_of_mem_drop hother)).2
  rw [hnumber, hsecond, Option.some.injEq] at hfirst
  exact ⟨by rw [hfirst], by rw [hfirst]⟩

namespace SessionTable

/-- The open sessions without what their clients have acknowledged. -/
def logged (table : SessionTable) : SessionTable :=
  { table with sessions := table.sessions.map Session.logged }

variable {left right : SessionTable}

theorem get?_logged (table : SessionTable) (id : SessionId) :
    table.logged.get? id = (table.get? id).map Session.logged :=
  Table.get?_map Session.logged table.sessions id

/-- Tables agree on what is logged if their counters and all their look-ups
do. -/
theorem logged_eq_iff : left.logged = right.logged ↔
    left.eventVersion = right.eventVersion ∧ ∀ id,
      (left.get? id).map Session.logged = (right.get? id).map Session.logged := by
  constructor
  · intro hsame
    have hversion : left.logged.eventVersion = right.logged.eventVersion :=
      congrArg SessionTable.eventVersion hsame
    refine ⟨hversion, fun id => ?_⟩
    rw [← get?_logged, ← get?_logged, hsame]
  · rintro ⟨hversion, hget⟩
    have hsessions : left.sessions.map Session.logged =
        right.sessions.map Session.logged := by
      refine Table.ext (fun id => ?_)
      rw [Table.get?_map, Table.get?_map]
      exact hget id
    rw [logged, logged, hsessions, hversion]

/-- A session is open in both tables, with the same logged state, or in
neither. -/
theorem get?_cases (hsame : left.logged = right.logged) (id : SessionId) :
    (left.get? id = none ∧ right.get? id = none) ∨
      ∃ first second : Session, left.get? id = some first ∧
        right.get? id = some second ∧ first.logged = second.logged := by
  have hget := (logged_eq_iff.mp hsame).2 id
  cases hleft : left.get? id with
  | none =>
      rw [hleft, Option.map_none, eq_comm, Option.map_eq_none_iff] at hget
      exact Or.inl ⟨rfl, hget⟩
  | some first =>
      rw [hleft, Option.map_some, eq_comm, Option.map_eq_some_iff] at hget
      obtain ⟨second, hright, hrecord⟩ := hget
      exact Or.inr ⟨first, second, rfl, hright, hrecord.symm⟩

theorem contains_eq (hsame : left.logged = right.logged) (id : SessionId) :
    left.contains id = right.contains id := by
  change (left.get? id).isSome = (right.get? id).isSome
  rcases get?_cases hsame id with ⟨hleft, hright⟩ | ⟨_, _, hleft, hright, -⟩
  all_goals rw [hleft, hright]
  rfl

theorem logged_expire (hsame : left.logged = right.logged) (now : Nat) :
    (left.expire now).logged = (right.expire now).logged := by
  refine logged_eq_iff.mpr ⟨(logged_eq_iff.mp hsame).1, fun id => ?_⟩
  rw [get?_expire, get?_expire]
  rcases get?_cases hsame id with
    ⟨hleft, hright⟩ | ⟨first, second, hleft, hright, hrecord⟩
  · rw [hleft, hright]
  · rw [hleft, hright, Option.filter_some, Option.filter_some,
      Session.isExpired_eq hrecord]
    split
    · exact congrArg some hrecord
    · rfl

theorem logged_update (hsame : left.logged = right.logged) (id : SessionId)
    {f g : Session → Session} (hchange : ∀ first second : Session,
      first.logged = second.logged → (f first).logged = (g second).logged) :
    (left.update id f).logged = (right.update id g).logged := by
  refine logged_eq_iff.mpr ⟨(logged_eq_iff.mp hsame).1, fun other => ?_⟩
  rw [get?_update, get?_update]
  split
  · rcases get?_cases hsame other with
      ⟨hleft, hright⟩ | ⟨first, second, hleft, hright, hrecord⟩
    · rw [hleft, hright]
      rfl
    · rw [hleft, hright]
      exact congrArg some (hchange first second hrecord)
  · exact (logged_eq_iff.mp hsame).2 other

theorem logged_register (hsame : left.logged = right.logged)
    (session : Session) :
    (left.register session).logged = (right.register session).logged := by
  refine logged_eq_iff.mpr ⟨(logged_eq_iff.mp hsame).1, fun id => ?_⟩
  rw [get?_register, get?_register]
  split
  · rfl
  · exact (logged_eq_iff.mp hsame).2 id

theorem logged_remove (hsame : left.logged = right.logged) (id : SessionId) :
    (left.remove id).logged = (right.remove id).logged := by
  refine logged_eq_iff.mpr ⟨(logged_eq_iff.mp hsame).1, fun other => ?_⟩
  rw [get?_remove, get?_remove]
  split
  · rfl
  · exact (logged_eq_iff.mp hsame).2 other

theorem logged_publish (hsame : left.logged = right.logged) (id : SessionId)
    (payload : Bytes) :
    (left.publish id payload).1.logged = (right.publish id payload).1.logged ∧
      (left.publish id payload).2 = (right.publish id payload).2 := by
  have hversion := (logged_eq_iff.mp hsame).1
  unfold publish
  rcases get?_cases hsame id with
    ⟨hleft, hright⟩ | ⟨first, second, hleft, hright, hrecord⟩
  · rw [hleft, hright]
    exact ⟨hsame, rfl⟩
  · rw [hleft, hright]
    obtain ⟨hpushed, hevent⟩ := Session.logged_pushEvent hrecord
      (left.eventVersion + 1) payload
    simp only [← hversion, hevent, and_true]
    refine logged_eq_iff.mpr ⟨rfl, fun other => ?_⟩
    simp only [get?, Table.get?_insert]
    split
    · exact congrArg some hpushed
    · exact (logged_eq_iff.mp hsame).2 other

theorem issued_eq (hsame : left.logged = right.logged) (session : SessionId)
    (events : List (SessionId × Bytes)) :
    left.issued session events = right.issued session events := by
  induction events generalizing left right with
  | nil => rfl
  | cons event events ih =>
      obtain ⟨hnext, hevent⟩ := logged_publish hsame event.1 event.2
      simp only [issued, ih hnext, hevent]

end SessionTable

namespace Executor

variable {σ : Type} {left right : Executor σ}

/-- Executors agree on everything but what clients have acknowledged. -/
structure Concur (left right : Executor σ) : Prop where
  machine : left.machine = right.machine
  sessions : left.sessions.logged = right.sessions.logged

theorem Concur.refl (executor : Executor σ) : Concur executor executor :=
  ⟨rfl, rfl⟩

theorem Concur.acknowledge (hconcur : Concur left right) (session : SessionId)
    (sequence : Int) : Concur (left.acknowledge session sequence) right := by
  refine ⟨hconcur.machine, ?_⟩
  rw [← hconcur.sessions]
  refine SessionTable.logged_eq_iff.mpr ⟨rfl, fun id => ?_⟩
  simp only [Executor.acknowledge, SessionTable.get?_update]
  split
  · cases left.sessions.get? id with
    | none => rfl
    | some record => exact congrArg some (record.logged_acknowledge sequence)
  · rfl

theorem Concur.lapse (hconcur : Concur left right) (operation : Operation) :
    Concur (left.lapse operation) (right.lapse operation) := by
  unfold Executor.lapse
  split
  · exact ⟨hconcur.machine, SessionTable.logged_expire hconcur.sessions _⟩
  · exact hconcur

theorem logged_publishAll (events : List (SessionId × Bytes))
    {left right : SessionTable} (hsame : left.logged = right.logged) :
    (publishAll left events).logged = (publishAll right events).logged := by
  induction events generalizing left right with
  | nil => exact hsame
  | cons event events ih =>
      exact ih (SessionTable.logged_publish hsame event.1 event.2).1

theorem Concur.touched (hconcur : Concur left right) (session : SessionId)
    (timestamp : Nat) :
    (left.sessions.update session (·.touch timestamp)).logged =
      (right.sessions.update session (·.touch timestamp)).logged :=
  SessionTable.logged_update hconcur.sessions session
    (fun _ _ hrecord => Session.logged_touch hrecord timestamp)

variable [StateMachine σ]

theorem Concur.run (hconcur : Concur left right) (commit : Commit) :
    Concur (left.run commit).1 (right.run commit).1 ∧
      (left.run commit).2 = (right.run commit).2 := by
  have hpublished := logged_publishAll
    (StateMachine.apply left.machine commit).events
    (hconcur.touched commit.session commit.timestamp)
  have hrecorded := SessionTable.logged_update hpublished commit.session
    (fun _ _ hrecord => Session.logged_recordResult hrecord commit.sequence
      (left.run commit).2)
  unfold Executor.run at hrecorded ⊢
  rw [← hconcur.machine]
  exact ⟨⟨rfl, hrecorded⟩, rfl⟩

theorem Concur.applyCommand (hconcur : Concur left right) (commit : Commit) :
    Concur (left.applyCommand commit).1 (right.applyCommand commit).1 ∧
      (left.applyCommand commit).2 = (right.applyCommand commit).2 := by
  unfold Executor.applyCommand
  rcases SessionTable.get?_cases hconcur.sessions commit.session with
    ⟨hleft, hright⟩ | ⟨first, second, hleft, hright, hrecord⟩
  · rw [hleft, hright]
    exact ⟨hconcur, rfl⟩
  · obtain ⟨-, -, -, -, hsequence, hresults, -⟩ :=
      Session.logged_eq_iff.mp hrecord
    rw [hleft, hright]
    simp only [hsequence, Session.cachedResult, hresults]
    split
    · exact ⟨hconcur, rfl⟩
    · exact hconcur.run commit

/-- Committing an entry does not depend on what is acknowledged. -/
theorem Concur.commit (hconcur : Concur left right) (entry : LogEntry) :
    Concur (left.commit entry).1 (right.commit entry).1 ∧
      (left.commit entry).2 = (right.commit entry).2 := by
  have hlapsed := hconcur.lapse entry.operation
  unfold Executor.commit
  generalize left.lapse entry.operation = left at hlapsed ⊢
  generalize right.lapse entry.operation = right at hlapsed ⊢
  obtain ⟨hmachine, hsessions⟩ := hlapsed
  unfold Executor.apply
  cases entry.operation with
  | noOp => exact ⟨⟨hmachine, hsessions⟩, rfl⟩
  | register client timeout timestamp =>
      exact ⟨⟨hmachine, SessionTable.logged_register hsessions _⟩, rfl⟩
  | keepAlive session commandSequence eventSequence timestamp =>
      simp only [keepAlive, SessionTable.contains_eq hsessions session]
      split
      · refine ⟨⟨hmachine, SessionTable.logged_update hsessions session
          (fun first second hrecord => ?_)⟩, rfl⟩
        rw [Session.logged_acknowledge, Session.logged_acknowledge]
        exact Session.logged_releaseResults
          (Session.logged_touch hrecord timestamp) commandSequence
      · exact ⟨⟨hmachine, hsessions⟩, rfl⟩
  | unregister session timestamp =>
      simp only [unregister, SessionTable.contains_eq hsessions session]
      split
      · exact ⟨⟨hmachine, SessionTable.logged_remove hsessions session⟩, rfl⟩
      · exact ⟨⟨hmachine, hsessions⟩, rfl⟩
  | command session sequence timestamp payload =>
      obtain ⟨happlied, hresult⟩ := Concur.applyCommand
        ⟨hmachine, hsessions⟩
        ⟨entry.index, session, sequence, timestamp, payload⟩
      exact ⟨happlied, congrArg (Applied.command session sequence) hresult⟩

/-- Which events a session gets does not depend on what is acknowledged. -/
theorem Concur.issued_eq (hconcur : Concur left right) (session : SessionId)
    (entry : LogEntry) :
    left.issued session entry = right.issued session entry := by
  have hlapsed := hconcur.lapse entry.operation
  unfold issued
  dsimp only
  generalize left.lapse entry.operation = left at hlapsed ⊢
  generalize right.lapse entry.operation = right at hlapsed ⊢
  cases entry.operation with
  | command sender sequence timestamp payload =>
      simp only
      rcases SessionTable.get?_cases hlapsed.sessions sender with
        ⟨hleft, hright⟩ | ⟨first, second, hleft, hright, hrecord⟩
      · rw [hleft, hright]
      · obtain ⟨-, -, -, -, hsequence, -, -⟩ :=
          Session.logged_eq_iff.mp hrecord
        rw [hleft, hright]
        simp only [hsequence, runIssued, hlapsed.machine,
          SessionTable.issued_eq (hlapsed.touched sender timestamp)]
  | _ => rfl

/-- The state after entries were committed and nothing was acknowledged but by
them. -/
def replay (executor : Executor σ) : List LogEntry → Executor σ
  | [] => executor
  | entry :: entries => (executor.commit entry).1.replay entries

theorem replay_append (executor : Executor σ) (first second : List LogEntry) :
    executor.replay (first ++ second) =
      (executor.replay first).replay second := by
  induction first generalizing executor with
  | nil => rfl
  | cons entry first ih => exact ih _

theorem stream_append (executor : Executor σ) (session : SessionId)
    (first second : List LogEntry) :
    executor.stream session (first ++ second) =
      executor.stream session first ++
        (executor.replay first).stream session second := by
  induction first generalizing executor with
  | nil => rfl
  | cons entry first ih =>
      rw [List.cons_append, stream, stream, ih, List.append_assoc, replay]

variable {start executor : Executor σ} {entries : List LogEntry}

/-- What clients acknowledge in between makes no difference to the rest. -/
theorem Commits.concur (hcommits : start.Commits entries executor) :
    Concur executor (start.replay entries) := by
  induction hcommits with
  | none => exact .refl start
  | commit entry _ ih =>
      rw [replay_append]
      exact (ih.commit entry).1
  | acknowledge session sequence _ ih => exact ih.acknowledge session sequence

omit [StateMachine σ] in
theorem get?_start (machine : σ) (id : SessionId) :
    (Executor.start machine).sessions.get? id = none := rfl

theorem commits_replay (start : Executor σ) (entries : List LogEntry) :
    start.Commits entries (start.replay entries) := by
  induction entries using List.reverseRecOn with
  | nil => exact .none
  | append_singleton entries entry ih =>
      rw [replay_append]
      exact ih.commit entry

/-- A session that is not open gets no events. -/
theorem issued_closed {session : SessionId}
    (hclosed : executor.sessions.get? session = none) (entry : LogEntry) :
    executor.issued session entry = [] := by
  have hlapsed : (executor.lapse entry.operation).sessions.get? session =
      none :=
    (executor.idles_lapse entry.operation).closed hclosed
  have htouched : ∀ sender timestamp,
      ((executor.lapse entry.operation).sessions.update sender
        (·.touch timestamp)).get? session = none := by
    intro sender timestamp
    rw [SessionTable.get?_update, hlapsed]
    split <;> rfl
  unfold issued
  dsimp only
  split
  · split
    · rfl
    · split
      · rfl
      · exact SessionTable.issued_closed (htouched _ _) _
  · rfl

section Numbered

variable {machine : σ}

/-- Every open session was opened by the entry of its number. -/
theorem Commits.open_le (hnumbered : Numbered entries)
    (hcommits : (Executor.start machine).Commits entries executor) :
    ∀ id record, executor.sessions.get? id = some record →
      id ≤ entries.length := by
  induction hcommits with
  | none => exact fun id record hget => by simp [get?_start] at hget
  | @commit entries executor entry _ ih =>
      intro id record hget
      rw [List.length_append, List.length_singleton]
      rcases executor.commit_carries entry hget with
        ⟨rfl, -⟩ | ⟨earlier, hearlier, -⟩
      · exact Nat.le_of_eq (hnumbered entries.length entry (by simp))
      · exact Nat.le_succ_of_le (ih hnumbered.init id earlier hearlier)
  | acknowledge session sequence _ ih =>
      intro id record hget
      simp only [Executor.acknowledge, SessionTable.get?_update] at hget
      split at hget
      · obtain ⟨earlier, hearlier, -⟩ := Option.map_eq_some_iff.mp hget
        exact ih hnumbered id earlier hearlier
      · exact ih hnumbered id record hget

theorem replay_unopened {id : SessionId} (hnumbered : Numbered entries)
    (hid : entries.length < id) :
    ((Executor.start machine).replay entries).sessions.get? id = none := by
  cases hget : ((Executor.start machine).replay entries).sessions.get? id with
  | none => rfl
  | some record =>
      have hle := (commits_replay
        (Executor.start machine) entries).open_le hnumbered id record hget
      exact absurd hle (Nat.not_le_of_lt hid)

/-- A session that is not opened yet has got no events. -/
theorem stream_unopened {id : SessionId} (hnumbered : Numbered entries)
    (hid : entries.length < id) :
    (Executor.start machine).stream id entries = [] := by
  induction entries using List.reverseRecOn with
  | nil => rfl
  | append_singleton entries entry ih =>
      rw [List.length_append, List.length_singleton] at hid
      have hlt : entries.length < id := by omega
      rw [stream_append, ih hnumbered.init hlt, stream,
        issued_closed (replay_unopened hnumbered.init hlt), stream]
      rfl

/-- The queue of a session holds what is not acknowledged of the stream that
the committed entries make. -/
theorem Commits.streams (hnumbered : Numbered entries)
    (hcommits : (Executor.start machine).Commits entries executor) :
    ∀ id record, executor.sessions.get? id = some record →
      record.Streams ((Executor.start machine).stream id entries) := by
  induction hcommits with
  | none => exact fun id record hget => by simp [get?_start] at hget
  | @commit entries executor entry hearlier ih =>
      intro id record hget
      rw [stream_append, stream, stream, List.append_nil]
      rcases executor.commit_carries entry hget with
        ⟨rfl, -, -, hstreams⟩ | ⟨earlier, hopen, hcarries⟩
      · have hindex : entry.index = entries.length + 1 :=
          hnumbered entries.length entry (by simp)
        have hlt : entries.length < entry.index := by omega
        rw [stream_unopened hnumbered.init hlt,
          issued_closed (replay_unopened hnumbered.init hlt)]
        exact hstreams
      · rw [← hearlier.concur.issued_eq]
        exact hcarries.streams _ (ih hnumbered.init id earlier hopen)
  | acknowledge session sequence _ ih =>
      intro id record hget
      simp only [Executor.acknowledge, SessionTable.get?_update] at hget
      split at hget
      · obtain ⟨earlier, hearlier, rfl⟩ := Option.map_eq_some_iff.mp hget
        exact (ih hnumbered id earlier hearlier).acknowledge sequence
      · exact ih hnumbered id record hget

end Numbered

/-- What two replicas have in common. -/
structure Agrees (left right : Executor σ) : Prop where
  machine : left.machine = right.machine
  eventVersion : left.sessions.eventVersion = right.sessions.eventVersion
  opened : ∀ id, left.sessions.contains id = right.sessions.contains id
  sessions : ∀ id first second, left.sessions.get? id = some first →
    right.sessions.get? id = some second → first.Agrees second

/-- Replicas that commit the same entries agree, whatever clients acknowledge
to either of them in between. -/
theorem Commits.agrees {machine : σ} (hnumbered : Numbered entries)
    (hleft : (Executor.start machine).Commits entries left)
    (hright : (Executor.start machine).Commits entries right) :
    left.Agrees right := by
  have hsessions : left.sessions.logged = right.sessions.logged :=
    hleft.concur.sessions.trans hright.concur.sessions.symm
  refine ⟨hleft.concur.machine.trans hright.concur.machine.symm,
    (SessionTable.logged_eq_iff.mp hsessions).1,
    SessionTable.contains_eq hsessions, ?_⟩
  intro id first second hfirst hsecond
  have hrecord : first.logged = second.logged := by
    have hget := (SessionTable.logged_eq_iff.mp hsessions).2 id
    rw [hfirst, hsecond] at hget
    exact Option.some.inj hget
  exact .of_streams hrecord (hleft.streams hnumbered id first hfirst)
    (hright.streams hnumbered id second hsecond)

end Executor

namespace Life

open FaithfulLog

variable {L K σ : Type} [LogStore L] [FaithfulLog L] [LogStore K]
  [FaithfulLog K] [StateMachine σ]

/-- Whenever the node starts, it starts with this state machine. -/
structure Runs (life : Life L σ) (machine : σ) : Prop where
  begins : life.start.executor = .start machine
  restarts : ∀ config log other,
    Incident.restart config log other ∈ life.incidents → other = machine

/-- At all times the state of a node is what its applied entries make of it. -/
theorem Valid.commits {life : Life L σ} (hvalid : life.Valid) {machine : σ}
    (hruns : life.Runs machine) (time : Nat) :
    (Executor.start machine).Commits
      ((entries (life.node time).log).take (life.node time).lastApplied)
      (life.node time).executor := by
  have hfresh : ∀ {id : NodeId} {members : List NodeId} {config : Config}
      {log : L} {node : Node L σ}, Sound log →
      Node.start id members config log machine = .ok node →
      (Executor.start machine).Commits
        ((entries node.log).take node.lastApplied) node.executor := by
    intro id members config log node hlog hstart
    have hstanding := (Network.start_standing hlog hstart).2
    rw [show node.lastApplied = 0 from
        congrArg Standing.lastApplied hstanding,
      show node.executor = .start machine from
        congrArg Standing.executor hstanding, List.take_zero]
    exact .none
  induction time with
  | zero =>
      obtain ⟨id, members, config, log, other, hlog, hstart⟩ := hvalid.begins
      have hstanding := (Network.start_standing hlog hstart).2
      have hexecutor : life.start.executor = .start other :=
        congrArg Standing.executor hstanding
      rw [hruns.begins] at hexecutor
      obtain rfl : machine = other := congrArg Executor.machine hexecutor
      exact hfresh hlog hstart
  | succ time ih =>
      cases hincident : life.incidents[time]? with
      | none =>
          rw [node_succ_of_end hincident]
          exact ih
      | some incident =>
          have hproper := hvalid.proper time
          have hundergoes := (life.node time).undergoes
            (hvalid.possible time incident hincident)
          rw [Life.node_succ hincident]
          generalize (life.node time).undergo incident = next
            at hundergoes ⊢
          cases hundergoes with
          | overflow _ => exact ih
          | taken hstep =>
              have hmoves := hproper.moves hstep
              have happlied := (hmoves.settled hproper.settled).2.take_applied
                hproper.settled
              have hcommits := ih.trans (hmoves.commits hproper.settled)
              exact happlied.symm ▸ hcommits
          | refit _ hmemory =>
              have hsame : entries _ = entries (life.node time).log :=
                congrArg MemoryLog.entries hmemory
              simp only [hsame]
              exact ih
          | unfit => exact ih
          | restarted hlog _ hstart =>
              obtain rfl := hruns.restarts _ _ _ (List.mem_of_getElem? hincident)
              exact hfresh hlog hstart

/-- Two nodes with the same state machine that have applied the same entries
agree, whatever else happened to either of them. -/
theorem replicas_agree {first : Life L σ} {second : Life K σ}
    (hfirst : first.Valid) (hsecond : second.Valid) {machine : σ}
    (hfirstRuns : first.Runs machine) (hsecondRuns : second.Runs machine)
    {time other : Nat}
    (happlied : (first.node time).lastApplied =
      (second.node other).lastApplied)
    (hsame : ∀ index, 0 < index → index ≤ (first.node time).lastApplied →
      LogStore.get? (first.node time).log index =
        LogStore.get? (second.node other).log index) :
    (first.node time).executor.Agrees (second.node other).executor := by
  have hlog := (hfirst.proper time).sound
  have hotherLog := (hsecond.proper other).sound
  have hentries : (entries (first.node time).log).take
      (first.node time).lastApplied =
      (entries (second.node other).log).take
        (second.node other).lastApplied := by
    refine List.ext_getElem? (fun place => ?_)
    rw [List.getElem?_take, List.getElem?_take, ← happlied]
    split
    · rename_i hplace
      have hget := hsame (place + 1) (Nat.succ_pos place) hplace
      rwa [get?_succ hlog, get?_succ hotherLog] at hget
    · rfl
  have hcommits := hsecond.commits hsecondRuns other
  rw [← hentries] at hcommits
  exact (hfirst.commits hfirstRuns time).agrees (numbered_take (numbered hlog) _)
    hcommits

end Life

namespace Witness

/-- A leader whose client reports an event before the log says so. -/
def reported : Life MemoryLog Tally where
  start := member .empty .start 1
  incidents := [
    .input .electionTimeout,
    .input (.voteResponse 2 (.ok ⟨1, true⟩)),
    .input (.register 1 ⟨7, 0⟩),
    .input (.appendResponse 2 (.ok ⟨1, true, 2, 2⟩)),
    .input (.command 2 ⟨2, 1, [2, 9]⟩),
    .input (.appendResponse 2 (.ok ⟨1, true, 3, 3⟩)),
    .input (.publish ⟨2, 1⟩)]

/-- A follower that is sent the same entries at once. -/
def copied : Life MemoryLog Tally where
  start := member .empty .start 2
  incidents := [.input (.append ⟨1, 1, 0, 0, [⟨1, 1, .noOp⟩,
    ⟨1, 2, .register 7 5000 0⟩, ⟨1, 3, .command 2 1 0 [2, 9]⟩], 3, 1⟩)]

theorem reported_valid : reported.Valid where
  begins := ⟨1, [1, 2, 3], {}, .empty, .start, numbered_nil, rfl⟩
  possible := Life.possible_of_inputs (by simp [reported])

theorem copied_valid : copied.Valid where
  begins := ⟨2, [1, 2, 3], {}, .empty, .start, numbered_nil, rfl⟩
  possible := Life.possible_of_inputs (by simp [copied])

theorem reported_runs : reported.Runs .start :=
  ⟨rfl, fun _ _ _ hrestart => by simp [reported] at hrestart⟩

theorem copied_runs : copied.Runs .start :=
  ⟨rfl, fun _ _ _ hrestart => by simp [copied] at hrestart⟩

/-- The leader has dropped the event that the follower still holds, and they
agree. -/
theorem replicas_agree_reported : reported.Valid ∧ copied.Valid ∧
    reported.Runs .start ∧ copied.Runs .start ∧
    (reported.node 7).lastApplied = 3 ∧ (copied.node 1).lastApplied = 3 ∧
    ((reported.node 7).executor.sessions.get? 2).map (·.events) = some [] ∧
    ((copied.node 1).executor.sessions.get? 2).map (·.events) =
      some [⟨1, 1, [9, 0]⟩] ∧
    (reported.node 7).executor.Agrees (copied.node 1).executor := by
  refine ⟨reported_valid, copied_valid, reported_runs, copied_runs, rfl, rfl,
    rfl, rfl, Life.replicas_agree reported_valid copied_valid reported_runs
      copied_runs rfl (fun index hpos hle => ?_)⟩
  have hle : index ≤ 3 := hle
  obtain rfl | rfl | rfl : index = 1 ∨ index = 2 ∨ index = 3 := by omega
  all_goals rfl

end Witness

end SessionRaft
