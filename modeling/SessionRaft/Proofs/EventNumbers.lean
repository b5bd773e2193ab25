/-
The numbers of events.  A table of sessions is opened, published to,
acknowledged, expired and applied to in any order; the journal lists every
event that was given to a session on the way.  A session numbers the events of
its life from 1, the table dates all of them, and the acknowledgment parts a
session's events into those that it has seen and those that are queued.
-/
import SessionRaft.Proofs.EventStreams

namespace SessionRaft

/-- What can happen to a table of sessions and the state machine behind it. -/
inductive Occurrence where
  /-- A session is opened that has got nothing yet. -/
  | register (id : SessionId) (client timeout timestamp : Nat)
  | publish (recipient : SessionId) (payload : Bytes)
  | acknowledge (session : SessionId) (reported : Int)
  | apply (entry : LogEntry)
  | expire (now : Nat)
  | remove (session : SessionId)

/-- The session whose life begins with an occurrence. -/
def Occurrence.opens? : Occurrence → Option SessionId
  | .register id _ _ _ => some id
  | .apply ⟨_, index, .register _ _ _⟩ => some index
  | _ => none

/-! ### The acknowledgment of a session -/

namespace Session

theorem lastVersion_append (fallback : Nat) (events more : List Event) :
    lastVersion fallback (events ++ more) =
      lastVersion (lastVersion fallback events) more :=
  List.foldl_append

/-- The last version is that of the last event. -/
theorem lastVersion_concat (fallback : Nat) (events : List Event)
    (event : Event) :
    lastVersion fallback (events ++ [event]) = event.version := by
  rw [lastVersion_append]
  rfl

/-- The events of a session's life form the stream, and the acknowledgment is
dated by the last event that it passes. -/
structure Follows (session : Session) (stream : List Event) : Prop
    extends session.Streams stream where
  dated : session.ackedVersion =
    lastVersion 0 (stream.take session.eventAck)

/-- What concerns no event. -/
structure Spares (before after : Session) : Prop where
  id : after.id = before.id
  sequence : after.eventSequence = before.eventSequence
  acked : after.eventAck = before.eventAck
  version : after.ackedVersion = before.ackedVersion
  events : after.events = before.events

/-- Taking a numbered list as long as its numbers are no larger than a number
takes as many elements. -/
theorem takeWhile_numbered {events : List Event} {first count upTo : Nat}
    (hnumbered : events.map Event.sequence = List.range' (first + 1) count) :
    events.takeWhile (fun event => decide (event.sequence ≤ upTo)) =
      events.take (upTo - first) := by
  have hsplit := events.takeWhile_append_dropWhile
    (p := fun event => decide (event.sequence ≤ upTo))
  rw [dropWhile_numbered hnumbered] at hsplit
  exact List.append_cancel_right
    (hsplit.trans (List.take_append_drop _ _).symm)

namespace Follows

variable {session changed : Session} {stream : List Event}

theorem start (id : SessionId) (client timeout timestamp : Nat) :
    (Session.start id client timeout timestamp).Follows [] :=
  ⟨.start id client timeout timestamp, rfl⟩

theorem spared (hfollows : session.Follows stream)
    (hspares : session.Spares changed) : changed.Follows stream := by
  refine ⟨hfollows.toStreams.congr hspares.sequence hspares.acked
    hspares.events, ?_⟩
  rw [hspares.version, hspares.acked]
  exact hfollows.dated

theorem pushEvent (hfollows : session.Follows stream) (version : Nat)
    (payload : Bytes) : (session.pushEvent version payload).1.Follows
      (stream ++ [(session.pushEvent version payload).2]) := by
  refine ⟨hfollows.toStreams.pushEvent version payload, ?_⟩
  have hlength : session.eventAck ≤ stream.length :=
    hfollows.length_eq.symm ▸ hfollows.acked
  change session.ackedVersion = lastVersion 0
    ((stream ++ [_]).take session.eventAck)
  rw [List.take_append_of_le_length hlength]
  exact hfollows.dated

theorem acknowledge (hfollows : session.Follows stream) (reported : Int) :
    (session.acknowledge reported).Follows stream := by
  refine ⟨hfollows.toStreams.acknowledge reported, ?_⟩
  unfold Session.acknowledge
  split
  · rename_i hadvances
    have hadvances := of_decide_eq_true hadvances
    -- What the report passes stands behind what was passed before.
    have hpassed : stream.take (session.reach reported).toNat =
        stream.take session.eventAck ++ session.events.take
          ((session.reach reported).toNat - session.eventAck) := by
      rw [hfollows.queued, ← List.take_add]
      congr 1
      omega
    dsimp only
    rw [takeWhile_numbered hfollows.pending, hpassed, lastVersion_append,
      ← hfollows.dated]
  · exact hfollows.dated

end Follows

/-- The numbers of a session to which a stream of events was given, while the
latest event of its table has a version. -/
structure Numbers (session : Session) (stream : List Event)
    (latest : Nat) : Prop where
  numbered : stream.map Event.sequence = List.range' 1 session.eventSequence
  counted : session.eventSequence ≤ latest
  acked : session.eventAck ≤ session.eventSequence
  queued : session.events = stream.drop session.eventAck
  pending : session.events.map Event.sequence =
    List.range' (session.eventAck + 1)
      (session.eventSequence - session.eventAck)
  rising : session.events.Pairwise (·.version < ·.version)
  dated : ∀ event ∈ session.events,
    session.ackedVersion < event.version ∧ event.version ≤ latest
  /-- The acknowledgment is dated by the event that it has reached. -/
  reached : 0 < session.eventAck → ∃ event ∈ stream,
    event.sequence = session.eventAck ∧ event.version = session.ackedVersion
  unacked : session.eventAck = 0 → session.ackedVersion = 0

/-- The acknowledgment has reached an event, unless nothing is acknowledged. -/
theorem Follows.reached {session : Session} {stream : List Event}
    (hfollows : session.Follows stream) (hacked : 0 < session.eventAck) :
    ∃ event ∈ stream.take session.eventAck,
      event.sequence = session.eventAck ∧
        event.version = session.ackedVersion := by
  obtain ⟨place, hplace⟩ := Nat.exists_eq_add_one.mpr hacked
  have hlt : place < stream.length := by
    have hlength := hfollows.length_eq
    have hle := hfollows.acked
    omega
  have htake : stream.take session.eventAck =
      stream.take place ++ [stream[place]] := by
    rw [hplace, List.take_append_getElem hlt]
  refine ⟨stream[place], ?_, ?_, ?_⟩
  · rw [htake]
    exact List.mem_append_right _ (List.mem_singleton_self _)
  · rw [hplace]
    exact hfollows.getElem?_sequence (List.getElem?_eq_getElem hlt)
  · rw [hfollows.dated, htake, lastVersion_concat]

/-- Events that are dated in their order date the acknowledgment. -/
theorem Follows.numbers {session : Session} {stream : List Event}
    {latest : Nat} (hfollows : session.Follows stream)
    (hrising : stream.Pairwise (·.version < ·.version))
    (hwithin : ∀ event ∈ stream, 0 < event.version ∧ event.version ≤ latest)
    (hcount : stream.length ≤ latest) : session.Numbers stream latest where
  numbered := hfollows.numbered
  counted := hfollows.length_eq ▸ hcount
  acked := hfollows.acked
  queued := hfollows.queued
  pending := hfollows.pending
  rising := hfollows.queued ▸ hrising.sublist (List.drop_sublist _ _)
  unacked hzero := by
    rw [hfollows.dated, hzero]
    rfl
  reached hacked := by
    obtain ⟨event, hevent, hnumbers⟩ := hfollows.reached hacked
    exact ⟨event, List.mem_of_mem_take hevent, hnumbers⟩
  dated event hevent := by
    rw [hfollows.queued] at hevent
    obtain ⟨hpositive, hle⟩ := hwithin event (List.mem_of_mem_drop hevent)
    refine ⟨?_, hle⟩
    rcases Nat.eq_zero_or_pos session.eventAck with hzero | hacked
    · rw [hfollows.dated, hzero]
      exact hpositive
    · obtain ⟨reached, hreached, -, hversion⟩ := hfollows.reached hacked
      rw [← List.take_append_drop session.eventAck stream,
        List.pairwise_append] at hrising
      exact hversion ▸ hrising.2.2 reached hreached event hevent

/-- A report counts if and only if it moves the acknowledgment, which every
report past the acknowledgment does as long as an event is there to be
acknowledged.  It moves the acknowledgment to what was reported, but no further
than to the last event. -/
theorem advances_iff (session : Session) (reported : Int) :
    (session.advances reported = true ↔
      session.eventAck < (session.acknowledge reported).eventAck) ∧
    (session.advances reported = true ↔
      (session.eventAck : Int) < min reported session.eventSequence) ∧
    (session.advances reported = true →
      ((session.acknowledge reported).eventAck : Int) =
        min reported session.eventSequence) ∧
    (session.advances reported = false →
      session.acknowledge reported = session) := by
  unfold acknowledge
  cases hadvances : session.advances reported with
  | false =>
      have hstays := of_decide_eq_false hadvances
      simp only [reach] at hstays
      simp [hstays]
  | true =>
      have hmoves := of_decide_eq_true hadvances
      simp only [reach] at hmoves
      simp only [reach, ↓reduceIte, true_iff, true_implies, Bool.true_eq_false,
        false_implies, and_true]
      omega

end Session

/-! ### What becomes of a table -/

namespace SessionTable

def eventsOf (id : SessionId) (given : List (SessionId × Event)) :
    List Event :=
  given.filterMap (fun row => if row.1 = id then some row.2 else none)

theorem eventsOf_append (id : SessionId)
    (given more : List (SessionId × Event)) :
    eventsOf id (given ++ more) = eventsOf id given ++ eventsOf id more :=
  List.filterMap_append

theorem eventsOf_sublist (id : SessionId) (given : List (SessionId × Event)) :
    (eventsOf id given).Sublist (given.map (·.2)) := by
  induction given with
  | nil => exact .slnil
  | cons row given ih =>
      obtain ⟨recipient, event⟩ := row
      by_cases heq : recipient = id
      · simpa [eventsOf, heq] using ih
      · simpa [eventsOf, heq] using ih.cons event

theorem mem_eventsOf {id : SessionId} {given : List (SessionId × Event)}
    {event : Event} : event ∈ eventsOf id given ↔ (id, event) ∈ given := by
  simp [eventsOf, List.mem_filterMap]

/-- Publishing to an open session queues the payload under the next number of
the session and the next version of the table. -/
theorem publish_queues {table : SessionTable} {id : SessionId}
    {session : Session} (hopen : table.get? id = some session)
    (payload : Bytes) :
    let event : Event :=
      ⟨table.eventVersion + 1, session.eventSequence + 1, payload⟩
    (table.publish id payload).2 = some event ∧
      (table.publish id payload).1.get? id = some
        { session with
          eventSequence := session.eventSequence + 1
          events := session.events ++ [event] } := by
  simp only [publish, hopen]
  exact ⟨rfl, (table.sessions.get?_insert id id _).trans (if_pos rfl)⟩

/-- The event that publishing gives, and the session that gets it. -/
def gift (table : SessionTable) (recipient : SessionId) (payload : Bytes) :
    List (SessionId × Event) :=
  (table.publish recipient payload).2.toList.map (recipient, ·)

/-- A table goes on without opening a session.  The list has the events that
are given on the way. -/
inductive Goes : SessionTable → List (SessionId × Event) → SessionTable → Prop
    where
  | stay (table : SessionTable) : Goes table [] table
  | trans {before middle after : SessionTable}
      {given more : List (SessionId × Event)} (hfirst : Goes before given middle)
      (hsecond : Goes middle more after) : Goes before (given ++ more) after
  | update (table : SessionTable) (id : SessionId) {f : Session → Session}
      (hspares : ∀ session : Session, session.Spares (f session)) :
      Goes table [] (table.update id f)
  | acknowledge (table : SessionTable) (id : SessionId) (reported : Int)
      {f : Session → Session}
      (hspares : ∀ session : Session, session.Spares (f session)) :
      Goes table []
        (table.update id (fun session => (f session).acknowledge reported))
  | close (table : SessionTable) (keep : Nat → Session → Bool) :
      Goes table [] { table with sessions := table.sessions.filter keep }
  | publish (table : SessionTable) (recipient : SessionId) (payload : Bytes) :
      Goes table (table.gift recipient payload)
        (table.publish recipient payload).1

/-- Every open session has its identity, and has the stream of its life. -/
def Follows (table : SessionTable) (streams : SessionId → List Event) : Prop :=
  ∀ id session, table.get? id = some session →
    session.id = id ∧ session.Follows (streams id)

variable {before after table : SessionTable}
  {given : List (SessionId × Event)} {streams : SessionId → List Event}

theorem Follows.update (hfollows : table.Follows streams) (id : SessionId)
    {f : Session → Session}
    (hid : ∀ session : Session, (f session).id = session.id)
    (hf : ∀ (session : Session) stream, session.Follows stream →
      (f session).Follows stream) : (table.update id f).Follows streams := by
  intro other record hget
  rw [get?_update] at hget
  split at hget
  · obtain ⟨earlier, hearlier, rfl⟩ := Option.map_eq_some_iff.mp hget
    obtain ⟨hother, hstream⟩ := hfollows other earlier hearlier
    exact ⟨(hid earlier).trans hother, hf earlier _ hstream⟩
  · exact hfollows other record hget

/-- Sessions go on with the events that they are given. -/
theorem Goes.follows (hgoes : before.Goes given after)
    (hfollows : before.Follows streams) :
    after.Follows (fun id => streams id ++ eventsOf id given) := by
  induction hgoes generalizing streams with
  | stay _ => simpa [eventsOf] using hfollows
  | trans _ _ ihFirst ihSecond =>
      simpa only [eventsOf_append, List.append_assoc] using
        ihSecond (ihFirst hfollows)
  | update _ id hspares =>
      simpa [eventsOf] using hfollows.update id (fun session =>
        (hspares session).id) (fun session _ hstream =>
          hstream.spared (hspares session))
  | acknowledge _ id reported hspares =>
      simpa [eventsOf] using hfollows.update id (fun session =>
        ((Session.carries_acknowledge _ reported).id).trans
          (hspares session).id) (fun session _ hstream =>
            (hstream.spared (hspares session)).acknowledge reported)
  | close table keep =>
      intro id record hget
      have hfilter : (table.get? id).filter (keep id) = some record :=
        (table.sessions.get?_filter keep id).symm.trans hget
      simpa [eventsOf] using hfollows id record
        (Option.filter_eq_some_iff.mp hfilter).1
  | publish table recipient payload =>
      intro id record hget
      unfold gift
      unfold SessionTable.publish at hget ⊢
      split at hget
      · simpa [eventsOf] using hfollows id record hget
      · rename_i session hsession
        change (table.sessions.insert recipient _).get? id = some record at hget
        rw [Table.get?_insert] at hget
        split at hget
        · rename_i heq
          subst heq
          obtain rfl := Option.some.inj hget
          obtain ⟨hid, hstream⟩ := hfollows id session hsession
          refine ⟨hid, ?_⟩
          simpa [eventsOf] using hstream.pushEvent _ payload
        · rename_i hne
          simpa [eventsOf, Ne.symm hne] using hfollows id record hget

/-- A session that is open was open, and its acknowledgment has not moved
back. -/
theorem Goes.forward (hgoes : before.Goes given after) {id : SessionId}
    {later : Session} (hlater : after.get? id = some later) :
    ∃ earlier : Session, before.get? id = some earlier ∧
      earlier.eventAck ≤ later.eventAck := by
  have hidles : ∀ {table changed : SessionTable}, table.Idles changed →
      ∀ {later}, changed.get? id = some later →
        ∃ earlier : Session, table.get? id = some earlier ∧
          earlier.eventAck ≤ later.eventAck := by
    intro table changed hidles later hlater
    obtain ⟨earlier, hearlier, hcarries⟩ := hidles id later hlater
    exact ⟨earlier, hearlier, hcarries.forward⟩
  induction hgoes generalizing later with
  | stay _ => exact ⟨later, hlater, Nat.le_refl _⟩
  | trans _ _ ihFirst ihSecond =>
      obtain ⟨between, hbetween, hle⟩ := ihSecond hlater
      obtain ⟨earlier, hearlier, hbefore⟩ := ihFirst hbetween
      exact ⟨earlier, hearlier, Nat.le_trans hbefore hle⟩
  | update table other hspares =>
      exact hidles (table.idles_update other (fun session =>
        have hspared := hspares session
        .of_eq hspared.id hspared.sequence hspared.acked hspared.events)) hlater
  | acknowledge table other reported hspares =>
      rw [get?_update] at hlater
      split at hlater
      · obtain ⟨earlier, hearlier, rfl⟩ := Option.map_eq_some_iff.mp hlater
        exact ⟨earlier, hearlier, (hspares earlier).acked ▸
          (Session.carries_acknowledge _ reported).forward⟩
      · exact ⟨later, hlater, Nat.le_refl _⟩
  | close table keep =>
      have hfilter : (table.get? id).filter (keep id) = some later :=
        (table.sessions.get?_filter keep id).symm.trans hlater
      exact ⟨later, (Option.filter_eq_some_iff.mp hfilter).1, Nat.le_refl _⟩
  | publish table recipient payload =>
      obtain ⟨earlier, hearlier, hcarries⟩ :=
        table.carries_publish recipient payload id later hlater
      exact ⟨earlier, hearlier, hcarries.forward⟩

/-- The events that are given are dated on from the last one. -/
theorem Goes.versions (hgoes : before.Goes given after) :
    after.eventVersion = before.eventVersion + given.length ∧
      given.map (·.2.version) =
        List.range' (before.eventVersion + 1) given.length := by
  induction hgoes with
  | stay _ | update _ _ _ | acknowledge _ _ _ _ | close _ _ => exact ⟨rfl, rfl⟩
  | @trans before _ _ given more _ _ ihFirst ihSecond =>
      obtain ⟨hmiddle, hgiven⟩ := ihFirst
      obtain ⟨hafter, hmore⟩ := ihSecond
      constructor
      · rw [hafter, hmiddle, List.length_append]
        omega
      · rw [List.map_append, hgiven, hmore, hmiddle, List.length_append,
          show before.eventVersion + given.length + 1 =
            before.eventVersion + 1 + given.length by omega,
          List.range'_append_1]
  | publish table recipient payload =>
      unfold gift SessionTable.publish
      split <;> exact ⟨rfl, rfl⟩

theorem get?_open (table : SessionTable) (id client timeout timestamp : Nat)
    (other : SessionId) :
    (table.register (.start id client timeout timestamp)).get? other =
      if other = id then some (.start id client timeout timestamp)
      else table.get? other :=
  table.get?_register _ other

theorem Follows.register (hfollows : table.Follows streams) (id : SessionId)
    (client timeout timestamp : Nat) :
    (table.register (.start id client timeout timestamp)).Follows
      (fun other => if other = id then [] else streams other) := by
  intro other record hget
  rw [get?_open] at hget
  by_cases heq : other = id
  · subst heq
    rw [if_pos rfl] at hget
    obtain rfl := Option.some.inj hget
    simp only [↓reduceIte]
    exact ⟨rfl, .start _ _ _ _⟩
  · rw [if_neg heq] at hget
    simp only [if_neg heq]
    exact hfollows other record hget

end SessionTable

/-! ### What becomes of an executor -/

namespace Executor

variable {σ : Type}

open SessionTable (Goes)

/-- The events that are given while events are published in their order. -/
def gifts (table : SessionTable) :
    List (SessionId × Bytes) → List (SessionId × Event)
  | [] => []
  | (recipient, payload) :: events =>
      table.gift recipient payload ++
        gifts (table.publish recipient payload).1 events

theorem goes_publishAll (table : SessionTable)
    (events : List (SessionId × Bytes)) :
    table.Goes (gifts table events) (publishAll table events) := by
  induction events generalizing table with
  | nil => exact .stay table
  | cons event events ih =>
      exact (Goes.publish table event.1 event.2).trans (ih _)

theorem goes_keepAlive (executor : Executor σ) (session : SessionId)
    (commandSequence : Nat) (reported : Int) (timestamp : Nat) :
    executor.sessions.Goes [] (executor.keepAlive session commandSequence
      reported timestamp).1.sessions := by
  unfold keepAlive
  split
  · exact .acknowledge _ session reported
      (f := fun record => (record.touch timestamp).releaseResults
        commandSequence) (fun _ => ⟨rfl, rfl, rfl, rfl, rfl⟩)
  · exact .stay _

variable [StateMachine σ]

def runGifts (executor : Executor σ) (commit : Commit) :
    List (SessionId × Event) :=
  gifts (executor.sessions.update commit.session (·.touch commit.timestamp))
    (StateMachine.apply executor.machine commit).events

def applyGifts (executor : Executor σ) (entry : LogEntry) :
    List (SessionId × Event) :=
  match entry.operation with
  | .command session sequence timestamp payload =>
      match executor.sessions.get? session with
      | none => []
      | some record =>
          if sequence ≤ record.commandSequence then []
          else executor.runGifts
            ⟨entry.index, session, sequence, timestamp, payload⟩
  | _ => []

/-- What becomes of an executor. -/
def meet (executor : Executor σ) : Occurrence → Executor σ
  | .register id client timeout timestamp =>
      { executor with
        sessions := executor.sessions.register
          (.start id client timeout timestamp) }
  | .publish recipient payload =>
      { executor with
        sessions := (executor.sessions.publish recipient payload).1 }
  | .acknowledge session reported =>
      { executor with
        sessions := executor.sessions.update session
          (·.acknowledge reported) }
  | .apply entry => (executor.apply entry).1
  | .expire now => executor.expire now
  | .remove session =>
      { executor with sessions := executor.sessions.remove session }

/-- The events that are given in an occurrence. -/
def given (executor : Executor σ) : Occurrence → List (SessionId × Event)
  | .publish recipient payload => executor.sessions.gift recipient payload
  | .apply entry => executor.applyGifts entry
  | _ => []

theorem goes_run (executor : Executor σ) (commit : Commit) :
    executor.sessions.Goes (executor.runGifts commit)
      (executor.run commit).1.sessions := by
  have htouched : executor.sessions.Goes [] (executor.sessions.update
      commit.session (·.touch commit.timestamp)) :=
    .update _ _ (fun _ => ⟨rfl, rfl, rfl, rfl, rfl⟩)
  have hrecorded := Goes.update (publishAll (executor.sessions.update
    commit.session (·.touch commit.timestamp))
    (StateMachine.apply executor.machine commit).events) commit.session
    (f := (·.recordResult commit.sequence (executor.run commit).2))
    (fun _ => ⟨rfl, rfl, rfl, rfl, rfl⟩)
  have hgoes := (htouched.trans (goes_publishAll _ _)).trans hrecorded
  rw [List.nil_append, List.append_nil] at hgoes
  exact hgoes

theorem goes_applyCommand (executor : Executor σ) (index : Nat)
    (session : SessionId) (sequence timestamp : Nat) (payload : Bytes)
    {term : Nat} :
    executor.sessions.Goes (executor.applyGifts
        ⟨term, index, .command session sequence timestamp payload⟩)
      (executor.applyCommand
        ⟨index, session, sequence, timestamp, payload⟩).1.sessions := by
  cases hget : executor.sessions.get? session with
  | none =>
      simp only [applyCommand, applyGifts, hget]
      exact .stay _
  | some record =>
      simp only [applyCommand, applyGifts, hget]
      split
      · exact .stay _
      · exact executor.goes_run _

/-- An occurrence opens a session, or the table goes on. -/
theorem meet_cases (executor : Executor σ) (occurrence : Occurrence) :
    (∃ id client timeout timestamp, occurrence.opens? = some id ∧
      executor.given occurrence = [] ∧
      (executor.meet occurrence).sessions = executor.sessions.register
        (.start id client timeout timestamp)) ∨
    (occurrence.opens? = none ∧
      executor.sessions.Goes (executor.given occurrence)
        (executor.meet occurrence).sessions) := by
  cases occurrence with
  | register id client timeout timestamp =>
      exact Or.inl ⟨id, client, timeout, timestamp, rfl, rfl, rfl⟩
  | publish recipient payload =>
      exact Or.inr ⟨rfl, .publish _ recipient payload⟩
  | acknowledge session reported =>
      exact Or.inr ⟨rfl, .acknowledge _ session reported
        (f := fun record => record) (fun _ => ⟨rfl, rfl, rfl, rfl, rfl⟩)⟩
  | expire now => exact Or.inr ⟨rfl, .close _ _⟩
  | remove session => exact Or.inr ⟨rfl, .close _ _⟩
  | apply entry =>
      obtain ⟨term, index, operation⟩ := entry
      cases operation with
      | noOp => exact Or.inr ⟨rfl, .stay _⟩
      | register client timeout timestamp =>
          exact Or.inl ⟨index, client, timeout, timestamp, rfl, rfl, rfl⟩
      | keepAlive session commandSequence reported timestamp =>
          exact Or.inr ⟨rfl, executor.goes_keepAlive _ _ _ _⟩
      | unregister session timestamp =>
          refine Or.inr ⟨rfl, ?_⟩
          change executor.sessions.Goes []
            (executor.unregister session).1.sessions
          unfold unregister
          split
          · exact .close _ _
          · exact .stay _
      | command session sequence timestamp payload =>
          exact Or.inr ⟨rfl, executor.goes_applyCommand _ _ _ _ _⟩

end Executor

/-! ### Histories -/

/-- A state machine without sessions, and all that happens then. -/
structure SessionHistory (σ : Type) where
  machine : σ
  occurrences : List Occurrence

namespace SessionHistory

variable {σ : Type} [StateMachine σ]

/-- The executor after the first occurrences, as many as `time`. -/
def executor (history : SessionHistory σ) (time : Nat) : Executor σ :=
  (history.occurrences.take time).foldl Executor.meet (.start history.machine)

def table (history : SessionHistory σ) (time : Nat) : SessionTable :=
  (history.executor time).sessions

/-- All events that were given until a time, and the sessions that got them. -/
def journal (history : SessionHistory σ) : Nat → List (SessionId × Event)
  | 0 => []
  | time + 1 =>
      match history.occurrences[time]? with
      | none => history.journal time
      | some occurrence =>
          history.journal time ++ (history.executor time).given occurrence

/-- The events that a session was given until a time, in the life that it has
then. -/
def stream (history : SessionHistory σ) (id : SessionId) : Nat → List Event
  | 0 => []
  | time + 1 =>
      match history.occurrences[time]? with
      | none => history.stream id time
      | some occurrence =>
          if occurrence.opens? = some id then []
          else history.stream id time ++
            SessionTable.eventsOf id ((history.executor time).given occurrence)

theorem executor_succ {history : SessionHistory σ} {time : Nat}
    {occurrence : Occurrence}
    (hoccurrence : history.occurrences[time]? = some occurrence) :
    history.executor (time + 1) =
      (history.executor time).meet occurrence := by
  rw [executor, List.take_add_one, hoccurrence, List.foldl_append]
  rfl

theorem executor_succ_of_end {history : SessionHistory σ} {time : Nat}
    (hend : history.occurrences[time]? = none) :
    history.executor (time + 1) = history.executor time := by
  rw [executor, executor, List.take_add_one, hend]
  simp

theorem follows_stream (history : SessionHistory σ) (time : Nat) :
    (history.table time).Follows (history.stream · time) := by
  induction time with
  | zero => exact fun _ _ hget => nomatch hget
  | succ time ih =>
      cases hoccurrence : history.occurrences[time]? with
      | none =>
          simp only [table, executor_succ_of_end hoccurrence, stream,
            hoccurrence]
          exact ih
      | some occurrence =>
          simp only [table, executor_succ hoccurrence, stream, hoccurrence]
          rcases (history.executor time).meet_cases occurrence with
            ⟨id, client, timeout, timestamp, hopens, hnone, hsessions⟩ |
              ⟨hopens, hgoes⟩
          · rw [hsessions, hopens, hnone]
            have hregistered := ih.register id client timeout timestamp
            simpa [SessionTable.eventsOf, table, eq_comm] using hregistered
          · simpa [hopens] using hgoes.follows ih

/-- Events are dated in the order in which they are given. -/
theorem journal_versions (history : SessionHistory σ) (time : Nat) :
    (history.table time).eventVersion = (history.journal time).length ∧
      (history.journal time).map (·.2.version) =
        List.range' 1 (history.journal time).length := by
  induction time with
  | zero => exact ⟨rfl, rfl⟩
  | succ time ih =>
      obtain ⟨hversion, hjournal⟩ := ih
      cases hoccurrence : history.occurrences[time]? with
      | none =>
          simp only [table, executor_succ_of_end hoccurrence, journal,
            hoccurrence]
          exact ⟨hversion, hjournal⟩
      | some occurrence =>
          simp only [table, executor_succ hoccurrence, journal, hoccurrence]
          rcases (history.executor time).meet_cases occurrence with
            ⟨_, _, _, _, -, hnone, hsessions⟩ | ⟨-, hgoes⟩
          · rw [hsessions, hnone, List.append_nil]
            exact ⟨hversion, hjournal⟩
          · obtain ⟨hafter, hgiven⟩ := hgoes.versions
            change _ = (history.table time).eventVersion + _ at hafter
            change _ = List.range' ((history.table time).eventVersion + 1) _
              at hgiven
            rw [hversion] at hafter hgiven
            rw [hafter, List.length_append, List.map_append, hjournal, hgiven,
              Nat.add_comm _ 1, List.range'_append_1]
            exact ⟨rfl, rfl⟩

/-- The stream of a session stands in the journal. -/
theorem stream_suffix (history : SessionHistory σ) (id : SessionId)
    (time : Nat) : history.stream id time <:+
      SessionTable.eventsOf id (history.journal time) := by
  induction time with
  | zero => exact List.suffix_refl []
  | succ time ih =>
      simp only [stream, journal]
      split
      · exact ih
      · rw [SessionTable.eventsOf_append]
        split
        · exact List.nil_suffix
        · obtain ⟨before, hbefore⟩ := ih
          exact ⟨before, by rw [← List.append_assoc, hbefore]⟩

/-- Within a life a session's acknowledgment moves forward. -/
theorem ack_forward (history : SessionHistory σ) {first time : Nat}
    (hle : first ≤ time) {id : SessionId} {earlier later : Session}
    (hearlier : (history.table first).get? id = some earlier)
    (hlater : (history.table time).get? id = some later)
    (hlife : ∀ between occurrence, first ≤ between → between < time →
      history.occurrences[between]? = some occurrence →
      occurrence.opens? ≠ some id) :
    earlier.eventAck ≤ later.eventAck := by
  induction hle generalizing later with
  | refl =>
      obtain rfl := Option.some.inj (hearlier.symm.trans hlater)
      exact Nat.le_refl _
  | @step time hle ih =>
      have hsooner := fun between occurrence hfirst hbefore =>
        hlife between occurrence hfirst (Nat.lt_succ_of_lt hbefore)
      cases hoccurrence : history.occurrences[time]? with
      | none =>
          rw [table, executor_succ_of_end hoccurrence] at hlater
          exact ih hlater hsooner
      | some occurrence =>
          rw [table, executor_succ hoccurrence] at hlater
          have hnot := hlife time occurrence hle (Nat.lt_succ_self time)
            hoccurrence
          rcases (history.executor time).meet_cases occurrence with
            ⟨opened, _, _, _, hopens, -, hsessions⟩ | ⟨-, hgoes⟩
          · have hother : id ≠ opened := fun heq => hnot (heq ▸ hopens)
            rw [hsessions, SessionTable.get?_open, if_neg hother] at hlater
            exact ih hlater hsooner
          · obtain ⟨between, hbetween, hforward⟩ := hgoes.forward hlater
            exact Nat.le_trans (ih hbetween hsooner) hforward

/-- Every event that a session was given is in the journal, and no version is
given twice. -/
theorem stream_dated (history : SessionHistory σ) (id : SessionId)
    (time : Nat) :
    (history.stream id time).Pairwise (·.version < ·.version) ∧
      (∀ event ∈ history.stream id time, 0 < event.version ∧
        event.version ≤ (history.table time).eventVersion) ∧
      (history.stream id time).length ≤
        (history.table time).eventVersion := by
  obtain ⟨hversion, hjournal⟩ := history.journal_versions time
  have hsublist : (history.stream id time).Sublist
      ((history.journal time).map (·.2)) :=
    (history.stream_suffix id time).sublist.trans
      (SessionTable.eventsOf_sublist id _)
  have hversions : ((history.journal time).map (·.2)).map Event.version =
      List.range' 1 (history.journal time).length := by
    rw [List.map_map]
    exact hjournal
  refine ⟨?_, fun event hevent => ?_, ?_⟩
  · refine List.Pairwise.sublist hsublist ?_
    rw [← List.pairwise_map (f := Event.version), hversions]
    exact List.pairwise_lt_range'
  · have hmem : event.version ∈
        List.range' 1 (history.journal time).length := by
      rw [← hversions]
      exact List.mem_map_of_mem (hsublist.mem hevent)
    rw [List.mem_range'_1] at hmem
    omega
  · have hlength := hsublist.length_le
    rw [List.length_map] at hlength
    omega

/-- Whatever happens to a table of sessions, its events stay in step: the
events of every life are numbered from 1 and no version is given twice, those
past the acknowledgment are queued, the acknowledgment is dated by the event
that it has reached, it never moves back, and a report counts if and only if
it moves it.  Every open session gets an event when it is published to, and its
acknowledgment moves whenever a report reaches past it to an event. -/
theorem events_in_step (history : SessionHistory σ) (time : Nat) :
    (∀ id session, (history.table time).get? id = some session →
      session.Numbers (history.stream id time)
          (history.table time).eventVersion ∧
        (∀ event ∈ history.stream id time,
          (id, event) ∈ history.journal time) ∧
        (∀ payload,
          let event : Event := ⟨(history.table time).eventVersion + 1,
            session.eventSequence + 1, payload⟩
          ((history.table time).publish id payload).2 = some event ∧
            ((history.table time).publish id payload).1.get? id = some
              { session with
                eventSequence := session.eventSequence + 1
                events := session.events ++ [event] }) ∧
        ∀ reported,
          (session.advances reported = true ↔
            session.eventAck < (session.acknowledge reported).eventAck) ∧
          (session.advances reported = true ↔
            (session.eventAck : Int) < min reported session.eventSequence) ∧
          (session.advances reported = true →
            ((session.acknowledge reported).eventAck : Int) =
              min reported session.eventSequence) ∧
          (session.advances reported = false →
            session.acknowledge reported = session)) ∧
    ((history.journal time).map (·.2.version)).Nodup ∧
    (history.journal time).length = (history.table time).eventVersion ∧
    ∀ first ≤ time, ∀ id (earlier later : Session),
      (history.table first).get? id = some earlier →
      (history.table time).get? id = some later →
      (∀ between occurrence, first ≤ between → between < time →
        history.occurrences[between]? = some occurrence →
        occurrence.opens? ≠ some id) →
      earlier.eventAck ≤ later.eventAck := by
  obtain ⟨hversion, hjournal⟩ := history.journal_versions time
  refine ⟨fun id session hget =>
      ⟨?_, fun event hevent => ?_, SessionTable.publish_queues hget,
        session.advances_iff⟩, ?_, hversion.symm,
    fun first hle id earlier later => history.ack_forward hle⟩
  · obtain ⟨hrising, hwithin, hcount⟩ := history.stream_dated id time
    exact (history.follows_stream time id session hget).2.numbers hrising
      hwithin hcount
  · exact SessionTable.mem_eventsOf.mp
      ((history.stream_suffix id time).mem hevent)
  · rw [hjournal]
    exact List.nodup_range'

end SessionHistory

end SessionRaft
