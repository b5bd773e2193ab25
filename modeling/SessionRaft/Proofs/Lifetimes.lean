/-
How long a session stays open.  Every entry with a timestamp closes the
sessions whose deadline lies before it, and only then is it applied; what
moves a deadline is the entry that opens the session, its keep-alives and those
of its commands that are run.  So the log alone says at which entries a session
is open, and what comes too late for it finds it closed.
-/
import SessionRaft.Proofs.Replicas

namespace SessionRaft

/-! ### Leases -/

/-- What of a session decides how long it stays open. -/
structure Lease where
  timeout : Nat
  /-- The latest timestamp at which the session was refreshed. -/
  lastSign : Nat

namespace Lease

/-- The last moment at which the session is still open. -/
def deadline (lease : Lease) : Nat := min (lease.lastSign + lease.timeout) wordMax

/-- Refresh it. -/
def touch (lease : Lease) (timestamp : Nat) : Lease :=
  { lease with lastSign := max lease.lastSign timestamp }

@[simp] theorem touch_zero (lease : Lease) : lease.touch 0 = lease := by
  rw [touch, Nat.max_zero]

end Lease

namespace Session

/-- How long a session stays open. -/
def lease (session : Session) : Lease := ⟨session.timeout, session.lastKeepAlive⟩

@[simp] theorem lease_touch (session : Session) (timestamp : Nat) :
    (session.touch timestamp).lease = session.lease.touch timestamp := rfl

@[simp] theorem lease_recordResult (session : Session) (sequence : Nat)
    (result : CommandResponse) :
    (session.recordResult sequence result).lease = session.lease := rfl

@[simp] theorem lease_releaseResults (session : Session) (upTo : Nat) :
    (session.releaseResults upTo).lease = session.lease := rfl

@[simp] theorem lease_acknowledge (session : Session) (reported : Int) :
    (session.acknowledge reported).lease = session.lease := by
  unfold acknowledge
  split <;> rfl

@[simp] theorem lease_pushEvent (session : Session) (version : Nat)
    (payload : Bytes) :
    (session.pushEvent version payload).1.lease = session.lease := rfl

end Session

namespace SessionTable

def lease? (table : SessionTable) (id : SessionId) : Option Lease :=
  (table.get? id).map Session.lease

theorem contains_iff_lease? (table : SessionTable) (id : SessionId) :
    table.contains id = true ↔ (table.lease? id).isSome = true := by
  rw [lease?, Option.isSome_map]
  rfl

theorem lease?_of_closed {table : SessionTable} {id : SessionId}
    (hclosed : ¬table.contains id = true) : table.lease? id = none := by
  rwa [contains_iff_lease?, Bool.not_eq_true, Option.isSome_eq_false_iff,
    Option.isNone_iff_eq_none] at hclosed

theorem lease?_update (table : SessionTable) (id other : SessionId)
    {f : Session → Session} (g : Lease → Lease)
    (hchange : ∀ session, (f session).lease = g session.lease) :
    (table.update id f).lease? other =
      if other = id then (table.lease? other).map g else table.lease? other := by
  rw [lease?, lease?, get?_update]
  split
  · cases table.get? other with
    | none => rfl
    | some session => exact congrArg some (hchange session)
  · rfl

theorem lease?_update_of_same (table : SessionTable) (id other : SessionId)
    {f : Session → Session} (hsame : ∀ session, (f session).lease = session.lease) :
    (table.update id f).lease? other = table.lease? other := by
  rw [lease?_update table id other (fun lease => lease) hsame, Option.map_id',
    ite_self]

theorem lease?_publish (table : SessionTable) (id other : SessionId)
    (payload : Bytes) :
    (table.publish id payload).1.lease? other = table.lease? other := by
  unfold publish
  cases hget : table.get? id with
  | none => rfl
  | some session =>
      simp only [lease?, get?, Table.get?_insert]
      split
      · rename_i hother
        rw [hother]
        change _ = (table.get? id).map Session.lease
        rw [hget]
        exact congrArg some (session.lease_pushEvent _ payload)
      · rfl

theorem lease?_expire (table : SessionTable) (now : Nat) (id : SessionId) :
    (table.expire now).lease? id =
      (table.lease? id).filter (fun lease => decide (now ≤ lease.deadline)) := by
  rw [lease?, lease?, get?_expire]
  cases table.get? id with
  | none => rfl
  | some session =>
      have hexpired : (!session.isExpired now) =
          decide (now ≤ session.lease.deadline) := by
        rw [Session.isExpired, ← decide_not]
        exact decide_eq_decide.mpr Nat.not_lt
      simp only [Option.map_some, Option.filter_some, hexpired]
      split <;> rfl

theorem lease?_remove (table : SessionTable) (id other : SessionId) :
    (table.remove id).lease? other =
      if other = id then none else table.lease? other := by
  rw [lease?, lease?, get?_remove]
  split <;> rfl

theorem lease?_register (table : SessionTable) (session : Session)
    (id : SessionId) : (table.register session).lease? id =
      if id = session.id then some session.lease else table.lease? id := by
  rw [lease?, lease?, get?_register]
  split <;> rfl

end SessionTable

/-! ### What an entry does to a lease -/

namespace LogEntry

/-- The timestamp with which an entry refreshes a session that is open: it is
the session's keep-alive, or a command of it that is past all that were run. -/
def sign? (entry : LogEntry) (table : SessionTable) (session : SessionId) :
    Option Nat :=
  match table.get? session, entry.operation with
  | some _, .keepAlive id _ _ timestamp =>
      if id = session then some timestamp else none
  | some record, .command id sequence timestamp _ =>
      if id = session ∧ record.commandSequence < sequence then some timestamp
      else none
  | _, _ => none

def unregisters (entry : LogEntry) (session : SessionId) : Bool :=
  match entry.operation with
  | .unregister id _ => decide (id = session)
  | _ => false

end LogEntry

namespace Executor

variable {σ : Type}

theorem lease?_publishAll (table : SessionTable)
    (events : List (SessionId × Bytes)) (id : SessionId) :
    (publishAll table events).lease? id = table.lease? id := by
  induction events generalizing table with
  | nil => rfl
  | cons event events ih =>
      exact (ih _).trans (table.lease?_publish event.1 id event.2)

/-- A session outlasts a timestamp that does not lie beyond its deadline. -/
theorem lease?_lapse_iff (executor : Executor σ) (operation : Operation)
    {id : SessionId} {lease : Lease} :
    (executor.lapse operation).sessions.lease? id = some lease ↔
      executor.sessions.lease? id = some lease ∧
        ∀ timestamp, operation.timestamp? = some timestamp →
          timestamp ≤ lease.deadline := by
  unfold lapse
  cases operation.timestamp? with
  | none => simp
  | some timestamp =>
      simp [expire, SessionTable.lease?_expire, Option.filter_eq_some_iff]

variable [StateMachine σ]

theorem lease?_run (executor : Executor σ) (commit : Commit) (id : SessionId) :
    (executor.run commit).1.sessions.lease? id =
      if id = commit.session then
        (executor.sessions.lease? id).map (·.touch commit.timestamp)
      else executor.sessions.lease? id := by
  change ((publishAll _ _).update commit.session _).lease? id = _
  rw [SessionTable.lease?_update_of_same _ _ _
    (fun session => session.lease_recordResult _ _), lease?_publishAll,
    SessionTable.lease?_update _ _ _ (·.touch commit.timestamp)
      (fun session => session.lease_touch commit.timestamp)]

omit [StateMachine σ] in
theorem lease?_keepAlive (executor : Executor σ) (session : SessionId)
    (upTo : Nat) (reported : Int) (timestamp : Nat) (id : SessionId) :
    (executor.keepAlive session upTo reported timestamp).1.sessions.lease? id =
      if id = session then
        (executor.sessions.lease? id).map (·.touch timestamp)
      else executor.sessions.lease? id := by
  unfold keepAlive
  split
  · refine SessionTable.lease?_update _ _ _ _ (fun record => ?_)
    rw [Session.lease_acknowledge, Session.lease_releaseResults,
      Session.lease_touch]
  · rename_i hclosed
    split
    · rename_i hid
      rw [hid, SessionTable.lease?_of_closed hclosed]
      rfl
    · rfl

omit [StateMachine σ] in
theorem lease?_unregister (executor : Executor σ) (session id : SessionId) :
    (executor.unregister session).1.sessions.lease? id =
      if id = session then none else executor.sessions.lease? id := by
  unfold unregister
  split
  · exact SessionTable.lease?_remove _ _ _
  · rename_i hclosed
    split
    · rename_i hid
      rw [hid, SessionTable.lease?_of_closed hclosed]
    · rfl

/-- A command moves no deadline but that of its own session. -/
theorem lease?_applyCommand_of_ne (executor : Executor σ) {commit : Commit}
    {id : SessionId} (hid : id ≠ commit.session) :
    (executor.applyCommand commit).1.sessions.lease? id =
      executor.sessions.lease? id := by
  unfold applyCommand
  split
  · rfl
  · split
    · rfl
    · rw [lease?_run, if_neg hid]

/-- All that an entry does to the lease of a session that it does not open. -/
theorem lease?_apply (executor : Executor σ) (entry : LogEntry)
    {id : SessionId} (hopens : ∀ client timeout timestamp,
      entry.operation = .register client timeout timestamp → id ≠ entry.index) :
    (executor.apply entry).1.sessions.lease? id =
      if entry.unregisters id = true then none
      else (executor.sessions.lease? id).map (fun lease =>
        lease.touch ((entry.sign? executor.sessions id).getD 0)) := by
  unfold apply LogEntry.unregisters LogEntry.sign?
  cases hoperation : entry.operation with
  | noOp => simp
  | register client timeout timestamp =>
      have hne := hopens client timeout timestamp hoperation
      simp only
      rw [SessionTable.lease?_register, if_neg (by exact hne)]
      simp
  | keepAlive session upTo reported timestamp =>
      simp only
      rw [lease?_keepAlive, SessionTable.lease?]
      cases executor.sessions.get? id with
      | none => simp
      | some record => by_cases hid : id = session <;> simp [hid, eq_comm]
  | unregister session timestamp =>
      simp only
      rw [lease?_unregister]
      by_cases hid : id = session
      · simp [hid]
      · simp [hid, Ne.symm hid]
  | command session sequence timestamp payload =>
      simp only [Bool.false_eq_true, ↓reduceIte]
      by_cases hid : session = id
      · subst hid
        unfold applyCommand
        cases hget : executor.sessions.get? session with
        | none => simp [SessionTable.lease?, hget]
        | some record =>
            by_cases hle : sequence ≤ record.commandSequence
            · have hlt : ¬record.commandSequence < sequence := by omega
              simp [hle, hlt]
            · have hlt : record.commandSequence < sequence := by omega
              simp [hle, hlt, lease?_run]
      · rw [lease?_applyCommand_of_ne executor (Ne.symm hid)]
        cases executor.sessions.get? id <;> simp [hid]

/-- What committing an entry leaves of a session that it does not open. -/
theorem lease?_commit_iff (executor : Executor σ) (entry : LogEntry)
    {id : SessionId} {lease : Lease} (hopens : ∀ client timeout timestamp,
      entry.operation = .register client timeout timestamp → id ≠ entry.index) :
    (executor.commit entry).1.sessions.lease? id = some lease ↔
      ∃ earlier, executor.sessions.lease? id = some earlier ∧
        (∀ timestamp, entry.operation.timestamp? = some timestamp →
          timestamp ≤ earlier.deadline) ∧
        entry.unregisters id = false ∧
        lease = earlier.touch ((entry.sign?
          (executor.lapse entry.operation).sessions id).getD 0) := by
  rw [commit, lease?_apply _ entry hopens]
  cases hunregisters : entry.unregisters id with
  | true => simp
  | false =>
      rw [if_neg Bool.false_ne_true, Option.map_eq_some_iff]
      constructor
      · rintro ⟨earlier, hlapsed, rfl⟩
        obtain ⟨hearlier, hlasts⟩ := (lease?_lapse_iff _ _).mp hlapsed
        exact ⟨earlier, hearlier, hlasts, rfl, rfl⟩
      · rintro ⟨earlier, hearlier, hlasts, -, rfl⟩
        exact ⟨earlier, (lease?_lapse_iff _ _).mpr ⟨hearlier, hlasts⟩, rfl⟩

end Executor

/-! ### Lifetimes -/

/-- A log that is applied to a state machine from the start. -/
structure AppliedLog (σ : Type) where
  machine : σ
  entries : List LogEntry
  numbered : Numbered entries

namespace AppliedLog

variable {σ : Type} [StateMachine σ]

/-- The state after the first entries. -/
def executor (log : AppliedLog σ) (time : Nat) : Executor σ :=
  (Executor.start log.machine).replay (log.entries.take time)

/-- The sessions that the entry at a place finds open, after its timestamp has
closed those that lapsed. -/
def found (log : AppliedLog σ) (place : Nat) (entry : LogEntry) :
    SessionTable :=
  ((log.executor place).lapse entry.operation).sessions

/-- The timestamp with which the entry at a place refreshes a session. -/
def sign? (log : AppliedLog σ) (session : SessionId) (place : Nat) :
    Option Nat :=
  log.entries[place]?.bind (fun entry =>
    entry.sign? (log.found place entry) session)

/-- The largest of the timestamp that opened a session and those with which the
entries in front of a place refreshed it. -/
def lastSign (log : AppliedLog σ) (session : SessionId) (registered : Nat)
    (place : Nat) : Nat :=
  ((List.range' session (place - session)).filterMap
    (log.sign? session)).foldl max registered

/-- The last timestamp with which the entry at a place can find a session
open. -/
def deadline (log : AppliedLog σ) (session : SessionId)
    (timeout registered place : Nat) : Nat :=
  min (log.lastSign session registered place + timeout) wordMax

/-- The entries in front of `time` that follow the session's own come in time
for it, and none closes it. -/
def Endures (log : AppliedLog σ) (session : SessionId)
    (timeout registered time : Nat) : Prop :=
  ∀ place entry, session ≤ place → place < time →
    log.entries[place]? = some entry →
      (∀ timestamp, entry.operation.timestamp? = some timestamp →
        timestamp ≤ log.deadline session timeout registered place) ∧
      ¬(entry.unregisters session = true ∧
        (log.found place entry).contains session = true)

/-- The entry of a session's number is among the first entries and registers
it, and the session endures those that follow. -/
def Lives (log : AppliedLog σ) (session : SessionId) (time : Nat) : Prop :=
  ∃ client timeout registered, 0 < session ∧ session ≤ time ∧
    log.entries[session - 1]?.map (·.operation) =
      some (.register client timeout registered) ∧
    log.Endures session timeout registered time

variable {log : AppliedLog σ} {session : SessionId} {time : Nat}

theorem executor_succ {entry : LogEntry}
    (hentry : log.entries[time]? = some entry) :
    log.executor (time + 1) = ((log.executor time).commit entry).1 := by
  rw [executor, List.take_add_one, hentry, Executor.replay_append]
  rfl

theorem executor_succ_of_end (hend : log.entries[time]? = none) :
    log.executor (time + 1) = log.executor time := by
  rw [executor, executor, List.take_add_one, hend, Option.toList_none,
    List.append_nil]

theorem lastSign_self (registered : Nat) :
    log.lastSign session registered session = registered := by
  rw [lastSign, Nat.sub_self]
  rfl

theorem lastSign_succ (registered : Nat) (hle : session ≤ time) :
    log.lastSign session registered (time + 1) =
      max (log.lastSign session registered time)
        ((log.sign? session time).getD 0) := by
  have hplaces : List.range' session (time + 1 - session) =
      List.range' session (time - session) ++ [time] := by
    rw [Nat.sub_add_comm hle, List.range'_1_concat, Nat.add_sub_of_le hle]
  rw [lastSign, hplaces, List.filterMap_append, List.foldl_append, ← lastSign]
  cases hsign : log.sign? session time <;> simp [hsign]

theorem endures_succ_iff {timeout registered : Nat} (hle : session ≤ time) :
    log.Endures session timeout registered (time + 1) ↔
      log.Endures session timeout registered time ∧
        ∀ entry, log.entries[time]? = some entry →
          (∀ timestamp, entry.operation.timestamp? = some timestamp →
            timestamp ≤ log.deadline session timeout registered time) ∧
          ¬(entry.unregisters session = true ∧
            (log.found time entry).contains session = true) := by
  constructor
  · intro hendures
    exact ⟨fun place entry hfrom hto =>
      hendures place entry hfrom (Nat.lt_succ_of_lt hto),
      fun entry => hendures time entry hle (Nat.lt_succ_self time)⟩
  · rintro ⟨hbefore, hlast⟩ place entry hfrom hto hentry
    rcases Nat.lt_or_eq_of_le (Nat.le_of_lt_succ hto) with hlt | rfl
    · exact hbefore place entry hfrom hlt hentry
    · exact hlast entry hentry

/-- The entry of a session's number opens it. -/
theorem lease?_registered {client timeout registered : Nat}
    (hpos : 0 < session) (hregister : log.entries[session - 1]?.map
      (·.operation) = some (.register client timeout registered)) :
    (log.executor session).sessions.lease? session =
      some ⟨timeout, registered⟩ := by
  obtain ⟨entry, hentry, hoperation⟩ := Option.map_eq_some_iff.mp hregister
  have hindex : entry.index = session := by
    rw [log.numbered _ entry hentry, Nat.sub_add_cancel hpos]
  have hsucc := executor_succ hentry
  rw [Nat.sub_add_cancel hpos] at hsucc
  rw [hsucc, Executor.commit, Executor.apply]
  simp only [hoperation]
  rw [SessionTable.lease?_register, if_pos (by exact hindex.symm)]
  rfl

/-- A session that its entry has registered is open as long as it endures, and
its lease is what the log says. -/
theorem lease?_eq_some_iff {client timeout registered : Nat}
    (hpos : 0 < session) (hregister : log.entries[session - 1]?.map
      (·.operation) = some (.register client timeout registered))
    (hle : session ≤ time) {lease : Lease} :
    (log.executor time).sessions.lease? session = some lease ↔
      log.Endures session timeout registered time ∧
        lease = ⟨timeout, log.lastSign session registered time⟩ := by
  induction hle generalizing lease with
  | refl =>
      have hnone : log.Endures session timeout registered session :=
        fun place _ hfrom hto => absurd hto (Nat.not_lt_of_le hfrom)
      rw [lease?_registered hpos hregister, lastSign_self, Option.some.injEq,
        eq_comm]
      exact (and_iff_right hnone).symm
  | @step time hle ih =>
      rw [endures_succ_iff hle]
      cases hentry : log.entries[time]? with
      | none =>
          rw [executor_succ_of_end hentry, ih, lastSign_succ registered hle]
          simp [sign?, hentry]
      | some entry =>
          have hindex : session ≠ entry.index := by
            rw [log.numbered time entry hentry]
            exact Nat.ne_of_lt (Nat.lt_succ_of_le hle)
          have hsign : log.sign? session time =
              entry.sign? (log.found time entry) session := by
            rw [sign?, hentry, Option.bind_some]
          rw [executor_succ hentry,
            Executor.lease?_commit_iff _ entry (fun _ _ _ _ => hindex),
            lastSign_succ registered hle, hsign]
          constructor
          · rintro ⟨earlier, hearlier, hlasts, hunregisters, rfl⟩
            obtain ⟨hendures, rfl⟩ := ih.mp hearlier
            refine ⟨⟨hendures, fun other hother => ?_⟩, rfl⟩
            obtain rfl := Option.some.inj hother
            exact ⟨hlasts, fun hcloses =>
              Bool.false_ne_true (hunregisters.symm.trans hcloses.1)⟩
          · rintro ⟨⟨hendures, hlast⟩, rfl⟩
            obtain ⟨hlasts, hkeeps⟩ := hlast entry rfl
            have hearlier := ih.mpr ⟨hendures, rfl⟩
            refine ⟨_, hearlier, hlasts, ?_, rfl⟩
            -- The session outlasts the timestamp, so the entry finds it open.
            have hopen : (log.found time entry).contains session = true := by
              rw [SessionTable.contains_iff_lease?, found,
                (Executor.lease?_lapse_iff _ _).mpr ⟨hearlier, hlasts⟩]
              rfl
            exact Bool.eq_false_iff.mpr (fun hunregisters =>
              hkeeps ⟨hunregisters, hopen⟩)

/-- Only the entry of its number opens a session. -/
theorem registered_of_open
    (hopen : (log.executor time).sessions.contains session = true) :
    ∃ client timeout registered, 0 < session ∧ session ≤ time ∧
      log.entries[session - 1]?.map (·.operation) =
        some (.register client timeout registered) := by
  induction time with
  | zero => exact absurd hopen Bool.false_ne_true
  | succ time ih =>
      cases hentry : log.entries[time]? with
      | none =>
          rw [executor_succ_of_end hentry] at hopen
          obtain ⟨client, timeout, registered, hpos, hle, hregister⟩ := ih hopen
          exact ⟨client, timeout, registered, hpos, Nat.le_succ_of_le hle,
            hregister⟩
      | some entry =>
          by_cases hopens : ∃ client timeout registered, entry.operation =
            .register client timeout registered ∧ session = entry.index
          · obtain ⟨client, timeout, registered, hoperation, rfl⟩ := hopens
            rw [log.numbered time entry hentry]
            exact ⟨client, timeout, registered, Nat.succ_pos time,
              Nat.le_refl _, by simp [hentry, hoperation]⟩
          · rw [executor_succ hentry, SessionTable.contains_iff_lease?,
              Option.isSome_iff_exists] at hopen
            obtain ⟨lease, hlease⟩ := hopen
            obtain ⟨earlier, hearlier, -⟩ :=
              (Executor.lease?_commit_iff _ entry
                (fun client timeout registered hoperation hindex =>
                  hopens ⟨client, timeout, registered, hoperation, hindex⟩)).mp
                hlease
            have hbefore :
                (log.executor time).sessions.contains session = true := by
              rw [SessionTable.contains_iff_lease?, hearlier]
              rfl
            obtain ⟨client, timeout, registered, hpos, hle, hregister⟩ :=
              ih hbefore
            exact ⟨client, timeout, registered, hpos, Nat.le_succ_of_le hle,
              hregister⟩

/-- At any time exactly those sessions are open that live then. -/
theorem contains_iff_lives :
    (log.executor time).sessions.contains session = true ↔
      log.Lives session time := by
  constructor
  · intro hopen
    obtain ⟨client, timeout, registered, hpos, hle, hregister⟩ :=
      registered_of_open hopen
    rw [SessionTable.contains_iff_lease?, Option.isSome_iff_exists] at hopen
    obtain ⟨lease, hlease⟩ := hopen
    exact ⟨client, timeout, registered, hpos, hle, hregister,
      ((lease?_eq_some_iff hpos hregister hle).mp hlease).1⟩
  · rintro ⟨client, timeout, registered, hpos, hle, hregister, hendures⟩
    rw [SessionTable.contains_iff_lease?,
      (lease?_eq_some_iff hpos hregister hle).mpr ⟨hendures, rfl⟩]
    rfl

/-- A session that is closed is never open again. -/
theorem Lives.earlier {later : Nat} (hlives : log.Lives session later)
    (hregistered : session ≤ time) (hle : time ≤ later) :
    log.Lives session time := by
  obtain ⟨client, timeout, registered, hpos, -, hregister, hendures⟩ := hlives
  exact ⟨client, timeout, registered, hpos, hregistered, hregister,
    fun place entry hfrom hto =>
      hendures place entry hfrom (Nat.lt_of_lt_of_le hto hle)⟩

/-- A timestamp at a place is too late for a session that is closed there or
has its deadline before it. -/
def Late (log : AppliedLog σ) (session : SessionId)
    (time timestamp : Nat) : Prop :=
  ¬log.Lives session time ∨ ∃ client timeout registered,
    log.entries[session - 1]?.map (·.operation) =
        some (.register client timeout registered) ∧
      log.deadline session timeout registered time < timestamp

/-- An entry that comes too late for a session finds it closed. -/
theorem found_of_late {entry : LogEntry} {timestamp : Nat}
    (htimestamp : entry.operation.timestamp? = some timestamp)
    (hlate : log.Late session time timestamp) :
    (log.found time entry).get? session = none := by
  rw [← Option.map_eq_none_iff (f := Session.lease), Option.eq_none_iff_forall_ne_some]
  intro lease hlease
  obtain ⟨hopen, hlasts⟩ := (Executor.lease?_lapse_iff _ _).mp hlease
  have hlives : log.Lives session time := by
    rw [← contains_iff_lives, SessionTable.contains_iff_lease?, hopen]
    rfl
  obtain hclosed | ⟨client, timeout, registered, hregister, hbeyond⟩ := hlate
  · exact hclosed hlives
  · obtain ⟨-, -, -, hpos, hle, -, -⟩ := hlives
    obtain ⟨-, rfl⟩ := (lease?_eq_some_iff hpos hregister hle).mp hopen
    exact Nat.not_le_of_lt hbeyond (hlasts timestamp htimestamp)

/-- At every replica a session is open exactly as long as it lives in the log;
a keep-alive or a command that comes too late for it is told that the session
is unknown, and a session that is closed stays so. -/
theorem session_lifetime (log : AppliedLog σ) (session : SessionId)
    (time : Nat) {executor : Executor σ}
    (hcommits : (Executor.start log.machine).Commits (log.entries.take time)
      executor) :
    (executor.sessions.contains session = true ↔ log.Lives session time) ∧
      (∀ entry timestamp, log.Late session time timestamp →
        (∀ upTo reported, entry.operation =
            .keepAlive session upTo reported timestamp →
          (executor.commit entry).2 = .keptAlive (.error .unknownSession)) ∧
        ∀ sequence payload, entry.operation =
            .command session sequence timestamp payload →
          (executor.commit entry).2 =
            .command session sequence (.error .unknownSession)) ∧
      ∀ later, session ≤ time → time ≤ later → ¬log.Lives session time →
        ¬log.Lives session later := by
  have hconcur : executor.Concur (log.executor time) := hcommits.concur
  refine ⟨?_, fun entry timestamp hlate => ⟨?_, ?_⟩, ?_⟩
  · rw [SessionTable.contains_eq hconcur.sessions, contains_iff_lives]
  · intro upTo reported hoperation
    have hclosed : (log.found time entry).contains session = false := by
      change ((log.found time entry).get? session).isSome = false
      rw [found_of_late (by rw [hoperation]; rfl) hlate]
      rfl
    rw [found, hoperation] at hclosed
    rw [(hconcur.commit entry).2, Executor.commit, Executor.apply]
    simp only [hoperation, Executor.keepAlive, hclosed]
    rfl
  · intro sequence payload hoperation
    have hclosed := found_of_late (by rw [hoperation]; rfl) hlate
    rw [found, hoperation] at hclosed
    rw [(hconcur.commit entry).2, Executor.commit, Executor.apply]
    simp only [hoperation, Executor.applyCommand, hclosed]
  · exact fun later hregistered hle hclosed hlives =>
      hclosed (hlives.earlier hregistered hle)

end AppliedLog

namespace Witness

/-- A session is registered and refreshed by a command; a clock that runs
behind does no harm, and one keep-alive comes too late. -/
def lapsing : AppliedLog Tally where
  machine := .start
  entries := [⟨1, 1, .register 7 100 50⟩, ⟨1, 2, .command 1 1 120 [1, 7]⟩,
    ⟨2, 3, .keepAlive 1 0 0 60⟩, ⟨2, 4, .keepAlive 1 0 0 221⟩,
    ⟨2, 5, .command 1 2 130 [1, 7]⟩]
  numbered := by decide

theorem session_lifetime_lapsing :
    (Executor.start lapsing.machine).Commits (lapsing.entries.take 3)
        (lapsing.executor 3) ∧
      lapsing.Lives 1 3 ∧ lapsing.Late 1 3 221 ∧
      ((lapsing.executor 3).commit ⟨2, 4, .keepAlive 1 0 0 221⟩).2 =
        .keptAlive (.error .unknownSession) ∧
      ¬lapsing.Lives 1 4 ∧ ¬lapsing.Lives 1 5 := by
  have hcommits : ∀ time, (Executor.start lapsing.machine).Commits
      (lapsing.entries.take time) (lapsing.executor time) :=
    fun time => Executor.commits_replay _ _
  have hlate : lapsing.Late 1 3 221 := .inr ⟨7, 100, 50, rfl, by decide⟩
  obtain ⟨hopen, htold, -⟩ := lapsing.session_lifetime 1 3 (hcommits 3)
  obtain ⟨hclosed, -, hstays⟩ := lapsing.session_lifetime 1 4 (hcommits 4)
  have hgone : ¬lapsing.Lives 1 4 := fun hlives =>
    absurd (hclosed.mpr hlives) (by decide)
  exact ⟨hcommits 3, hopen.mp (by decide), hlate,
    (htold _ 221 hlate).1 0 0 rfl, hgone,
    hstays 5 (by decide) (by decide) hgone⟩

end Witness

end SessionRaft
