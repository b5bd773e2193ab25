/-
What committing an entry does to one session: to the highest sequence that was
applied and to the outcomes that are kept.
-/
import SessionRaft.Proofs.Replay

namespace SessionRaft

/-- The kept outcomes of a session are left alone. -/
structure Session.Keeps (before after : Session) : Prop where
  sequence : after.commandSequence = before.commandSequence
  results : after.results = before.results

namespace Session

theorem keeps_touch (session : Session) (timestamp : Nat) :
    session.Keeps (session.touch timestamp) := ⟨rfl, rfl⟩

theorem keeps_acknowledge (session : Session) (reported : Int) :
    session.Keeps (session.acknowledge reported) := by
  unfold acknowledge
  split <;> exact ⟨rfl, rfl⟩

theorem keeps_pushEvent (session : Session) (version : Nat)
    (payload : Bytes) : session.Keeps (session.pushEvent version payload).1 :=
  ⟨rfl, rfl⟩

end Session

namespace SessionTable

/-- No session is opened, and the kept outcomes of those that stay open are
left alone. -/
def Keeps (before after : SessionTable) : Prop :=
  ∀ id record, after.get? id = some record →
    ∃ earlier, before.get? id = some earlier ∧ earlier.Keeps record

theorem Keeps.refl (table : SessionTable) : table.Keeps table :=
  fun _ record hget => ⟨record, hget, rfl, rfl⟩

theorem Keeps.trans {before middle after : SessionTable}
    (hfirst : before.Keeps middle) (hsecond : middle.Keeps after) :
    before.Keeps after := by
  intro id record hget
  obtain ⟨between, hbetween, hlater⟩ := hsecond id record hget
  obtain ⟨earlier, hearlier, hsooner⟩ := hfirst id between hbetween
  exact ⟨earlier, hearlier, hlater.sequence.trans hsooner.sequence,
    hlater.results.trans hsooner.results⟩

theorem get?_update (table : SessionTable) (id other : SessionId)
    (f : Session → Session) : (table.update id f).get? other =
      if other = id then (table.get? other).map f else table.get? other :=
  table.sessions.get?_modify id other f

theorem keeps_update (table : SessionTable) (id : SessionId)
    {f : Session → Session} (hf : ∀ session : Session, session.Keeps (f session)) :
    table.Keeps (table.update id f) := by
  intro other record hget
  rw [get?_update] at hget
  split at hget
  · obtain ⟨earlier, hearlier, rfl⟩ := Option.map_eq_some_iff.mp hget
    exact ⟨earlier, hearlier, hf earlier⟩
  · exact ⟨record, hget, rfl, rfl⟩

theorem keeps_expire (table : SessionTable) (now : Nat) :
    table.Keeps (table.expire now) := by
  intro id record hget
  have hfilter := table.sessions.get?_filter
    (fun _ session => !session.isExpired now) id
  change (table.sessions.filter _).get? id = some record at hget
  rw [hfilter] at hget
  exact ⟨record, (Option.filter_eq_some_iff.mp hget).1, rfl, rfl⟩

theorem keeps_remove (table : SessionTable) (id : SessionId) :
    table.Keeps (table.remove id) := by
  intro other record hget
  change (table.sessions.erase id).get? other = some record at hget
  rw [Table.get?_erase] at hget
  split at hget
  · simp at hget
  · exact ⟨record, hget, rfl, rfl⟩

theorem get?_register (table : SessionTable) (session : Session)
    (id : SessionId) : (table.register session).get? id =
      if id = session.id then some session else table.get? id :=
  table.sessions.get?_insert session.id id session

theorem keeps_publish (table : SessionTable) (id : SessionId)
    (payload : Bytes) : table.Keeps (table.publish id payload).1 := by
  unfold publish
  split
  · exact .refl table
  · rename_i session hsession
    intro other record hget
    change (table.sessions.insert id _).get? other = some record at hget
    rw [Table.get?_insert] at hget
    split at hget
    · rename_i heq
      obtain rfl := Option.some.inj hget
      exact ⟨session, heq ▸ hsession, session.keeps_pushEvent _ payload⟩
    · exact ⟨record, hget, rfl, rfl⟩

end SessionTable

def LogEntry.releases (entry : LogEntry) (session : SessionId)
    (sequence : Nat) : Bool :=
  match entry.operation with
  | .keepAlive id upTo _ _ => decide (id = session ∧ sequence ≤ upTo)
  | _ => false

namespace Executor

variable {σ : Type}

theorem lapse_machine (executor : Executor σ) (operation : Operation) :
    (executor.lapse operation).machine = executor.machine := by
  unfold lapse
  split <;> rfl

theorem keeps_lapse (executor : Executor σ) (operation : Operation) :
    executor.sessions.Keeps (executor.lapse operation).sessions := by
  unfold lapse
  split
  · exact executor.sessions.keeps_expire _
  · exact .refl _

theorem keeps_publishAll (table : SessionTable)
    (events : List (SessionId × Bytes)) :
    table.Keeps (publishAll table events) := by
  induction events generalizing table with
  | nil => exact .refl table
  | cons event events ih =>
      exact (table.keeps_publish event.1 event.2).trans (ih _)

/-- What becomes of a session that an entry does not open: its outcomes are
kept, but for those that the entry releases. -/
def Thins (entry : LogEntry) (before after : SessionTable) : Prop :=
  ∀ id record, id ≠ entry.index → after.get? id = some record →
    ∃ earlier, before.get? id = some earlier ∧
      record.commandSequence = earlier.commandSequence ∧
      ∀ sequence, record.results.get? sequence =
        if entry.releases id sequence then none
        else earlier.results.get? sequence

theorem thins_of_keeps {entry : LogEntry} {before after : SessionTable}
    (hkeeps : before.Keeps after)
    (hnone : ∀ id sequence, entry.releases id sequence = false) :
    Thins entry before after := by
  intro id record _ hget
  obtain ⟨earlier, hearlier, hsame⟩ := hkeeps id record hget
  refine ⟨earlier, hearlier, hsame.sequence, fun sequence => ?_⟩
  rw [hsame.results, hnone id sequence]
  rfl

variable [StateMachine σ]

theorem run_machine (executor : Executor σ) (commit : Commit) :
    (executor.run commit).1.machine =
      (StateMachine.apply executor.machine commit).state := rfl

/-- What becomes of a session when a command is run. -/
theorem run_session (executor : Executor σ) (commit : Commit) {id : SessionId}
    {record : Session}
    (hget : (executor.run commit).1.sessions.get? id = some record) :
    ∃ earlier, executor.sessions.get? id = some earlier ∧
      if id = commit.session then
        record.commandSequence = max earlier.commandSequence commit.sequence ∧
          record.results = earlier.results.insert commit.sequence
            (executor.run commit).2
      else earlier.Keeps record := by
  have hkeeps := (executor.sessions.keeps_update commit.session
    (fun session => session.keeps_touch commit.timestamp)).trans
      (keeps_publishAll _ (StateMachine.apply executor.machine commit).events)
  simp only [run, SessionTable.get?_update] at hget
  split at hget
  · rename_i heq
    obtain ⟨touched, htouched, rfl⟩ := Option.map_eq_some_iff.mp hget
    obtain ⟨earlier, hearlier, hsame⟩ := hkeeps id touched htouched
    refine ⟨earlier, hearlier, ?_⟩
    rw [if_pos heq]
    simp only [Session.recordResult, hsame.sequence, hsame.results]
    exact ⟨trivial, rfl⟩
  · rename_i hne
    obtain ⟨earlier, hearlier, hsame⟩ := hkeeps id record hget
    refine ⟨earlier, hearlier, ?_⟩
    rw [if_neg hne]
    exact hsame

omit [StateMachine σ] in
/-- Refreshing a session releases the outcomes that its client has received. -/
theorem thins_keepAlive {before : SessionTable} {executor : Executor σ}
    (hkeeps : before.Keeps executor.sessions) {entry : LogEntry}
    {session : SessionId} {upTo timestamp : Nat} {reported : Int}
    (hoperation : entry.operation =
      .keepAlive session upTo reported timestamp) :
    Thins entry before
      (executor.keepAlive session upTo reported timestamp).1.sessions := by
  have hreleases : ∀ id sequence, entry.releases id sequence =
      decide (session = id ∧ sequence ≤ upTo) := by
    intro id sequence
    simp only [LogEntry.releases, hoperation]
  intro id record _ hget
  have hcases : id ≠ session ∧ executor.sessions.get? id = some record ∨
      id = session ∧ ∃ refreshed, executor.sessions.get? id = some refreshed ∧
        ((refreshed.touch timestamp).releaseResults upTo).Keeps record := by
    by_cases heq : id = session
    · refine Or.inr ⟨heq, ?_⟩
      subst heq
      simp only [keepAlive] at hget
      split at hget
      · rw [SessionTable.get?_update, if_pos rfl] at hget
        obtain ⟨refreshed, hrefreshed, rfl⟩ := Option.map_eq_some_iff.mp hget
        exact ⟨refreshed, hrefreshed, Session.keeps_acknowledge _ reported⟩
      · rename_i hclosed
        exact absurd (Option.isSome_iff_exists.mpr ⟨record, hget⟩) hclosed
    · refine Or.inl ⟨heq, ?_⟩
      simp only [keepAlive] at hget
      split at hget
      · rwa [SessionTable.get?_update, if_neg heq] at hget
      · exact hget
  rcases hcases with ⟨hne, hsame⟩ | ⟨rfl, refreshed, hrefreshed, hreleased⟩
  · obtain ⟨earlier, hearlier, hkept⟩ := hkeeps id record hsame
    refine ⟨earlier, hearlier, hkept.sequence, fun sequence => ?_⟩
    rw [hreleases, hkept.results]
    simp [Ne.symm hne]
  · obtain ⟨earlier, hearlier, hkept⟩ := hkeeps id refreshed hrefreshed
    refine ⟨earlier, hearlier, hreleased.sequence.trans hkept.sequence,
      fun sequence => ?_⟩
    rw [hreleases, hreleased.results, ← hkept.results]
    simp only [Session.releaseResults, Session.touch, Table.get?_above]
    by_cases hle : sequence ≤ upTo
    · simp [hle, Nat.not_lt_of_le hle]
    · simp [hle, Nat.lt_of_not_le hle]

/-- What committing an entry comes to: a command is run that is past all that
its session has run, or the state machine is left alone. -/
theorem commit_cases (executor : Executor σ) (entry : LogEntry) :
    (∃ session sequence timestamp payload record,
      entry.operation = .command session sequence timestamp payload ∧
      (executor.lapse entry.operation).sessions.get? session = some record ∧
      record.commandSequence < sequence ∧
      executor.commit entry =
        (((executor.lapse entry.operation).run
            ⟨entry.index, session, sequence, timestamp, payload⟩).1,
          .command session sequence ((executor.lapse entry.operation).run
            ⟨entry.index, session, sequence, timestamp, payload⟩).2)) ∨
    ((executor.commit entry).1.machine = executor.machine ∧
      Thins entry executor.sessions (executor.commit entry).1.sessions) := by
  have hmachine := executor.lapse_machine entry.operation
  have hlapse := executor.keeps_lapse entry.operation
  unfold commit apply
  generalize executor.lapse entry.operation = lapsed at hmachine hlapse ⊢
  cases hoperation : entry.operation with
  | noOp =>
      refine Or.inr ⟨hmachine, thins_of_keeps hlapse (fun _ _ => ?_)⟩
      simp [LogEntry.releases, hoperation]
  | register client timeout timestamp =>
      refine Or.inr ⟨hmachine, fun id record hne hget => ?_⟩
      simp only [SessionTable.get?_register] at hget
      rw [if_neg (by exact hne)] at hget
      exact thins_of_keeps hlapse (fun _ _ => by
        simp [LogEntry.releases, hoperation]) id record hne hget
  | keepAlive session upTo reported timestamp =>
      refine Or.inr ⟨?_, thins_keepAlive hlapse hoperation⟩
      simp only [keepAlive]
      split <;> exact hmachine
  | unregister session timestamp =>
      refine Or.inr ⟨?_, thins_of_keeps (hlapse.trans ?_) (fun _ _ => ?_)⟩
      · simp only [unregister]
        split <;> exact hmachine
      · simp only [unregister]
        split
        · exact lapsed.sessions.keeps_remove session
        · exact .refl _
      · simp [LogEntry.releases, hoperation]
  | command session sequence timestamp payload =>
      simp only [applyCommand]
      have hquiet : Thins entry executor.sessions lapsed.sessions :=
        thins_of_keeps hlapse (fun _ _ => by
          simp [LogEntry.releases, hoperation])
      cases hget : lapsed.sessions.get? session with
      | none => exact Or.inr ⟨hmachine, hquiet⟩
      | some record =>
          by_cases hle : sequence ≤ record.commandSequence
          · simp only [hle, ↓reduceIte]
            exact Or.inr ⟨hmachine, hquiet⟩
          · simp only [hle, ↓reduceIte]
            exact Or.inl ⟨session, sequence, timestamp, payload, record, rfl,
              hget, by omega, rfl⟩

/-- What becomes of a session that an entry does not open: outcomes are kept,
but for those that the entry releases. -/
theorem commit_session (executor : Executor σ) (entry : LogEntry)
    {id : SessionId} {record : Session} (hne : id ≠ entry.index)
    (hget : (executor.commit entry).1.sessions.get? id = some record) :
    ∃ earlier, executor.sessions.get? id = some earlier ∧
      earlier.commandSequence ≤ record.commandSequence ∧
      ∀ sequence ≤ earlier.commandSequence, record.results.get? sequence =
        if entry.releases id sequence then none
        else earlier.results.get? sequence := by
  rcases executor.commit_cases entry with
    ⟨session, sequence, timestamp, payload, opened, hoperation, hopen, hlt,
      hcommit⟩ | ⟨-, hthins⟩
  · rw [hcommit] at hget
    obtain ⟨lapsed, hlapsed, hran⟩ := run_session _ _ hget
    obtain ⟨earlier, hearlier, hkept⟩ :=
      executor.keeps_lapse entry.operation id lapsed hlapsed
    have hreleases : ∀ other, entry.releases id other = false := by
      intro other
      simp [LogEntry.releases, hoperation]
    refine ⟨earlier, hearlier, ?_⟩
    simp only [hreleases]
    split at hran
    · rename_i heq
      obtain rfl := heq
      obtain rfl := Option.some.inj (hlapsed.symm.trans hopen)
      obtain ⟨hsequence, hresults⟩ := hran
      rw [hkept.sequence] at hlt hsequence
      refine ⟨by omega, fun other hother => ?_⟩
      have hother : other ≠ sequence := by omega
      rw [hresults, Table.get?_insert, if_neg hother, hkept.results]
      rfl
    · rw [hran.sequence, hran.results, hkept.sequence, hkept.results]
      exact ⟨Nat.le_refl _, fun _ _ => rfl⟩
  · obtain ⟨earlier, hearlier, hsequence, hresults⟩ := hthins id record hne hget
    exact ⟨earlier, hearlier, Nat.le_of_eq hsequence.symm,
      fun sequence _ => hresults sequence⟩

end Executor

end SessionRaft
