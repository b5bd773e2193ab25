/-
The events of a session.  All events that the state machine ever published to
a session form a stream, numbered from 1; what the session has queued is the
rest of the stream behind the acknowledgment.
-/
import SessionRaft.Proofs.Sessions

namespace SessionRaft

/-- All events published to the session form the stream, and those past the
acknowledgment are queued. -/
structure Session.Streams (session : Session) (stream : List Event) : Prop where
  numbered : stream.map Event.sequence = List.range' 1 session.eventSequence
  acked : session.eventAck ≤ session.eventSequence
  queued : session.events = stream.drop session.eventAck

/-- Dropping a numbered list up to a number drops as many elements. -/
theorem dropWhile_numbered {events : List Event} {first count upTo : Nat}
    (hnumbered : events.map Event.sequence = List.range' (first + 1) count) :
    events.dropWhile (fun event => decide (event.sequence ≤ upTo)) =
      events.drop (upTo - first) := by
  induction events generalizing first count with
  | nil => simp
  | cons event events ih =>
      cases count with
      | zero => simp at hnumbered
      | succ count =>
          simp only [List.map_cons, List.range'_succ, List.cons.injEq]
            at hnumbered
          obtain ⟨hfirst, hrest⟩ := hnumbered
          by_cases hle : event.sequence ≤ upTo
          · have hsplit : upTo - first = upTo - (first + 1) + 1 := by omega
            rw [List.dropWhile_cons_of_pos (by simpa using hle), ih hrest,
              hsplit, List.drop_succ_cons]
          · have hzero : upTo - first = 0 := by omega
            rw [List.dropWhile_cons_of_neg (by simpa using hle), hzero,
              List.drop_zero]

/-- Numbers that follow on each other rise. -/
theorem rising_of_numbered {events : List Event} {first count : Nat}
    (hnumbered : events.map Event.sequence = List.range' first count) :
    events.Pairwise (·.sequence < ·.sequence) := by
  rw [← List.pairwise_map (f := Event.sequence), hnumbered]
  exact List.pairwise_lt_range'

namespace Session.Streams

variable {session : Session} {stream : List Event}

theorem length_eq (hstreams : session.Streams stream) :
    stream.length = session.eventSequence := by
  have hlength := congrArg List.length hstreams.numbered
  rwa [List.length_map, List.length_range'] at hlength

theorem getElem?_sequence (hstreams : session.Streams stream) {place : Nat}
    {event : Event} (hevent : stream[place]? = some event) :
    event.sequence = place + 1 := by
  obtain ⟨hplace, hget⟩ := List.getElem?_eq_some_iff.mp hevent
  have hmap := congrArg (fun sequences => sequences[place]?) hstreams.numbered
  rw [hstreams.length_eq] at hplace
  simp only [List.getElem?_map, hevent, Option.map_some,
    List.getElem?_range' hplace, Option.some.injEq] at hmap
  omega

/-- An event of the stream stands where its number says. -/
theorem getElem?_of_mem (hstreams : session.Streams stream) {event : Event}
    (hevent : event ∈ stream) :
    0 < event.sequence ∧ stream[event.sequence - 1]? = some event := by
  obtain ⟨place, hplace⟩ := List.mem_iff_getElem?.mp hevent
  have hsequence := hstreams.getElem?_sequence hplace
  rw [hsequence]
  exact ⟨Nat.succ_pos place, hplace⟩

/-- The queued events are numbered on from the acknowledgment. -/
theorem pending (hstreams : session.Streams stream) :
    session.events.map Event.sequence = List.range' (session.eventAck + 1)
      (session.eventSequence - session.eventAck) := by
  rw [hstreams.queued, List.map_drop, hstreams.numbered, List.drop_range',
    Nat.mul_one, Nat.add_comm]

theorem start (id : SessionId) (client timeout timestamp : Nat) :
    (Session.start id client timeout timestamp).Streams [] :=
  ⟨rfl, Nat.le_refl 0, rfl⟩

/-- What does not concern events leaves the stream alone. -/
theorem congr {changed : Session} (hstreams : session.Streams stream)
    (hsequence : changed.eventSequence = session.eventSequence)
    (hacked : changed.eventAck = session.eventAck)
    (hevents : changed.events = session.events) : changed.Streams stream := by
  obtain ⟨hnumbered, hle, hqueued⟩ := hstreams
  exact ⟨by rw [hsequence, hnumbered], by rw [hacked, hsequence]; exact hle,
    by rw [hevents, hacked, hqueued]⟩

theorem acknowledge (hstreams : session.Streams stream) (reported : Int) :
    (session.acknowledge reported).Streams stream := by
  unfold Session.acknowledge
  split
  · rename_i hadvances
    have hadvances := of_decide_eq_true hadvances
    simp only [reach] at hadvances
    have hreach : (session.reach reported).toNat ≤ session.eventSequence := by
      simp only [reach]
      omega
    have hforward : session.eventAck ≤ (session.reach reported).toNat := by
      simp only [reach]
      omega
    refine ⟨hstreams.numbered, hreach, ?_⟩
    simp only
    rw [dropWhile_numbered hstreams.pending, hstreams.queued, List.drop_drop,
      Nat.add_sub_cancel' hforward]
  · exact hstreams

theorem pushEvent (hstreams : session.Streams stream) (version : Nat)
    (payload : Bytes) : (session.pushEvent version payload).1.Streams
      (stream ++ [(session.pushEvent version payload).2]) := by
  refine ⟨?_, Nat.le_succ_of_le hstreams.acked, ?_⟩
  · simp only [Session.pushEvent, List.map_append, hstreams.numbered,
      List.map_cons, List.map_nil, List.range'_concat, Nat.one_mul,
      Nat.add_comm 1]
  · simp only [Session.pushEvent]
    rw [hstreams.queued, List.drop_append_of_le_length
      (hstreams.length_eq.symm ▸ hstreams.acked)]

end Session.Streams

/-- A session goes on: its stream grows by the events issued to it, and its
acknowledgment moves at most to one of the reports. -/
structure Session.Carries (issued : List Event) (reports : List Int)
    (before after : Session) : Prop where
  id : after.id = before.id
  forward : before.eventAck ≤ after.eventAck
  reported : after.eventAck = before.eventAck ∨
    ∃ report ∈ reports, (after.eventAck : Int) ≤ report
  streams : ∀ stream, before.Streams stream → after.Streams (stream ++ issued)

namespace Session

variable {before middle after : Session}

/-- What concerns neither events nor acknowledgments. -/
theorem Carries.of_eq (hid : after.id = before.id)
    (hsequence : after.eventSequence = before.eventSequence)
    (hacked : after.eventAck = before.eventAck)
    (hevents : after.events = before.events) : before.Carries [] [] after where
  id := hid
  forward := Nat.le_of_eq hacked.symm
  reported := Or.inl hacked
  streams stream hstreams := by
    rw [List.append_nil]
    exact hstreams.congr hsequence hacked hevents

theorem Carries.refl (session : Session) : session.Carries [] [] session :=
  .of_eq rfl rfl rfl rfl

theorem Carries.trans {issued more : List Event} {reports others : List Int}
    (hfirst : before.Carries issued reports middle)
    (hsecond : middle.Carries more others after) :
    before.Carries (issued ++ more) (reports ++ others) after where
  id := hsecond.id.trans hfirst.id
  forward := Nat.le_trans hfirst.forward hsecond.forward
  reported := by
    rcases hsecond.reported with heq | ⟨report, hreport, hle⟩
    · rcases hfirst.reported with hsame | ⟨report, hreport, hle⟩
      · exact Or.inl (heq.trans hsame)
      · exact Or.inr ⟨report, List.mem_append_left _ hreport, heq ▸ hle⟩
    · exact Or.inr ⟨report, List.mem_append_right _ hreport, hle⟩
  streams stream hstreams := by
    rw [← List.append_assoc]
    exact hsecond.streams _ (hfirst.streams stream hstreams)

theorem carries_acknowledge (session : Session) (reported : Int) :
    session.Carries [] [reported] (session.acknowledge reported) := by
  have hstreams : ∀ stream, session.Streams stream →
      (session.acknowledge reported).Streams (stream ++ []) :=
    fun stream hstreams =>
      (List.append_nil stream).symm ▸ hstreams.acknowledge reported
  by_cases hadvances : session.advances reported = true
  · have hacked : (session.acknowledge reported).eventAck =
        (session.reach reported).toNat := by
      simp only [acknowledge, hadvances, ↓reduceIte]
    have hid : (session.acknowledge reported).id = session.id := by
      simp only [acknowledge, hadvances, ↓reduceIte]
    have hreach := of_decide_eq_true hadvances
    simp only [reach] at hreach hacked
    constructor
    · exact hid
    · omega
    · exact Or.inr ⟨reported, List.mem_singleton_self _, by omega⟩
    · exact hstreams
  · have hstays : session.acknowledge reported = session :=
      if_neg hadvances
    rw [hstays] at hstreams ⊢
    exact ⟨rfl, Nat.le_refl _, Or.inl rfl, hstreams⟩

theorem carries_pushEvent (session : Session) (version : Nat)
    (payload : Bytes) : session.Carries [(session.pushEvent version payload).2]
      [] (session.pushEvent version payload).1 :=
  ⟨rfl, Nat.le_refl _, Or.inl rfl,
    fun _ hstreams => hstreams.pushEvent version payload⟩

end Session

/-- What an entry reports of the events that a client has received. -/
def LogEntry.reports (session : SessionId) (entry : LogEntry) : List Int :=
  match entry.operation with
  | .keepAlive other _ reported _ => if other = session then [reported] else []
  | _ => []

namespace SessionTable

/-- The events that a session gets while events are published. -/
def issued (table : SessionTable) (session : SessionId) :
    List (SessionId × Bytes) → List Event
  | [] => []
  | (recipient, payload) :: events =>
      (if recipient = session then (table.publish recipient payload).2.toList
        else []) ++ (table.publish recipient payload).1.issued session events

/-- No session is opened, and those that stay open go on. -/
def Carries (issued : SessionId → List Event) (reports : SessionId → List Int)
    (before after : SessionTable) : Prop :=
  ∀ id record, after.get? id = some record →
    ∃ earlier : Session, before.get? id = some earlier ∧
      earlier.Carries (issued id) (reports id) record

/-- No session is opened, and no event or acknowledgment concerns one. -/
abbrev Idles (before after : SessionTable) : Prop :=
  Carries (fun _ => []) (fun _ => []) before after

variable {before middle after : SessionTable}

theorem Idles.refl (table : SessionTable) : table.Idles table :=
  fun _ record hget => ⟨record, hget, .refl record⟩

theorem Carries.trans {issued more : SessionId → List Event}
    {reports others : SessionId → List Int}
    (hfirst : Carries issued reports before middle)
    (hsecond : Carries more others middle after) :
    Carries (fun id => issued id ++ more id)
      (fun id => reports id ++ others id) before after := by
  intro id record hget
  obtain ⟨between, hbetween, hlater⟩ := hsecond id record hget
  obtain ⟨earlier, hearlier, hsooner⟩ := hfirst id between hbetween
  exact ⟨earlier, hearlier, hsooner.trans hlater⟩

theorem idles_update (table : SessionTable) (id : SessionId)
    {f : Session → Session}
    (hf : ∀ session : Session, session.Carries [] [] (f session)) :
    table.Idles (table.update id f) := by
  intro other record hget
  rw [get?_update] at hget
  split at hget
  · obtain ⟨earlier, hearlier, rfl⟩ := Option.map_eq_some_iff.mp hget
    exact ⟨earlier, hearlier, hf earlier⟩
  · exact ⟨record, hget, .refl record⟩

theorem get?_expire (table : SessionTable) (now : Nat) (id : SessionId) :
    (table.expire now).get? id =
      (table.get? id).filter (fun session => !session.isExpired now) :=
  Table.get?_filter (fun _ session => !Session.isExpired session now)
    table.sessions id

theorem get?_remove (table : SessionTable) (id other : SessionId) :
    (table.remove id).get? other =
      if other = id then none else table.get? other :=
  table.sessions.get?_erase id other

theorem idles_expire (table : SessionTable) (now : Nat) :
    table.Idles (table.expire now) := by
  intro id record hget
  rw [get?_expire, Option.filter_eq_some_iff] at hget
  exact ⟨record, hget.1, .refl record⟩

theorem idles_remove (table : SessionTable) (id : SessionId) :
    table.Idles (table.remove id) := by
  intro other record hget
  rw [get?_remove, Option.ite_none_left_eq_some] at hget
  exact ⟨record, hget.2, .refl record⟩

theorem carries_publish (table : SessionTable) (id : SessionId)
    (payload : Bytes) :
    Carries (fun other => if id = other
      then (table.publish id payload).2.toList else []) (fun _ => []) table
      (table.publish id payload).1 := by
  intro other record hget
  unfold publish at hget ⊢
  split at hget
  · refine ⟨record, hget, ?_⟩
    simpa using Session.Carries.refl record
  · rename_i session hsession
    change (table.sessions.insert id _).get? other = some record at hget
    rw [Table.get?_insert] at hget
    split at hget
    · rename_i heq
      subst heq
      obtain rfl := Option.some.inj hget
      refine ⟨session, hsession, ?_⟩
      simpa using session.carries_pushEvent _ payload
    · rename_i hne
      refine ⟨record, hget, ?_⟩
      simpa [Ne.symm hne] using Session.Carries.refl record

/-- A session that stays open was open. -/
theorem Carries.closed {issued : SessionId → List Event}
    {reports : SessionId → List Int} (hcarries : Carries issued reports before
      after) {id : SessionId} (hclosed : before.get? id = none) :
    after.get? id = none := by
  cases hget : after.get? id with
  | none => rfl
  | some record =>
      obtain ⟨_, hearlier, -⟩ := hcarries id record hget
      simp [hclosed] at hearlier

/-- A session that is not open gets no events. -/
theorem issued_closed {table : SessionTable} {session : SessionId}
    (hclosed : table.get? session = none) (events : List (SessionId × Bytes)) :
    table.issued session events = [] := by
  induction events generalizing table with
  | nil => rfl
  | cons event events ih =>
      obtain ⟨recipient, payload⟩ := event
      have hstays := (table.carries_publish recipient payload).closed hclosed
      simp only [issued, ih hstays, List.append_nil]
      split
      · rename_i heq
        subst heq
        simp [publish, hclosed]
      · rfl

end SessionTable

namespace Executor

variable {σ : Type}

theorem carries_publishAll (table : SessionTable)
    (events : List (SessionId × Bytes)) :
    SessionTable.Carries (fun id => table.issued id events) (fun _ => []) table
      (publishAll table events) := by
  induction events generalizing table with
  | nil => exact SessionTable.Idles.refl table
  | cons event events ih =>
      exact (table.carries_publish event.1 event.2).trans (ih _)

theorem idles_lapse (executor : Executor σ) (operation : Operation) :
    executor.sessions.Idles (executor.lapse operation).sessions := by
  unfold lapse
  split
  · exact executor.sessions.idles_expire _
  · exact .refl _

theorem carries_keepAlive (executor : Executor σ) (session : SessionId)
    (commandSequence : Nat) (reported : Int) (timestamp : Nat) :
    SessionTable.Carries (fun _ => [])
      (fun id => if session = id then [reported] else []) executor.sessions
      (executor.keepAlive session commandSequence reported
        timestamp).1.sessions := by
  intro id record hget
  unfold keepAlive at hget
  split at hget
  · rw [SessionTable.get?_update] at hget
    split at hget
    · rename_i heq
      subst heq
      obtain ⟨earlier, hearlier, rfl⟩ := Option.map_eq_some_iff.mp hget
      simp only [↓reduceIte]
      have hreleased : earlier.Carries [] [] ((earlier.touch
          timestamp).releaseResults commandSequence) := .of_eq rfl rfl rfl rfl
      exact ⟨earlier, hearlier, hreleased.trans (Session.carries_acknowledge _ _)⟩
    · rename_i hne
      simp only [if_neg (Ne.symm hne)]
      exact ⟨record, hget, .refl record⟩
  · rename_i hclosed
    have hne : session ≠ id := by
      rintro rfl
      exact hclosed (Option.isSome_iff_exists.mpr ⟨record, hget⟩)
    simp only [if_neg hne]
    exact ⟨record, hget, .refl record⟩

variable [StateMachine σ]

def runIssued (executor : Executor σ) (session : SessionId) (commit : Commit) :
    List Event :=
  (executor.sessions.update commit.session
    (·.touch commit.timestamp)).issued session
    (StateMachine.apply executor.machine commit).events

/-- The events that a session gets while an entry is committed. -/
def issued (executor : Executor σ) (session : SessionId) (entry : LogEntry) :
    List Event :=
  let executor := executor.lapse entry.operation
  match entry.operation with
  | .command sender sequence timestamp payload =>
      match executor.sessions.get? sender with
      | none => []
      | some record =>
          if sequence ≤ record.commandSequence then []
          else executor.runIssued session
            ⟨entry.index, sender, sequence, timestamp, payload⟩
  | _ => []

/-- All events that a session gets while entries are committed. -/
def stream (executor : Executor σ) (session : SessionId) :
    List LogEntry → List Event
  | [] => []
  | entry :: entries =>
      executor.issued session entry ++
        (executor.commit entry).1.stream session entries

theorem carries_run (executor : Executor σ) (commit : Commit) :
    SessionTable.Carries (fun id => executor.runIssued id commit) (fun _ => [])
      executor.sessions (executor.run commit).1.sessions := by
  have htouched := executor.sessions.idles_update commit.session
    (f := (·.touch commit.timestamp)) (fun _ => .of_eq rfl rfl rfl rfl)
  have hpublished := carries_publishAll
    (executor.sessions.update commit.session (·.touch commit.timestamp))
    (StateMachine.apply executor.machine commit).events
  have hrecorded := SessionTable.idles_update
    (publishAll (executor.sessions.update commit.session
      (·.touch commit.timestamp))
      (StateMachine.apply executor.machine commit).events) commit.session
    (f := (·.recordResult commit.sequence (executor.run commit).2))
    (fun _ => .of_eq rfl rfl rfl rfl)
  have hcarries := (htouched.trans hpublished).trans hrecorded
  simp only [List.nil_append, List.append_nil] at hcarries
  exact hcarries

/-- An entry carries the sessions that it does not open on, and a session that
it opens has got no events. -/
theorem commit_carries (executor : Executor σ) (entry : LogEntry)
    {id : SessionId} {record : Session}
    (hget : (executor.commit entry).1.sessions.get? id = some record) :
    (id = entry.index ∧ record.id = id ∧ record.eventAck = 0 ∧
      record.Streams []) ∨
      ∃ earlier : Session, executor.sessions.get? id = some earlier ∧
        earlier.Carries (executor.issued id entry) (entry.reports id)
          record := by
  have hlapsed := executor.idles_lapse entry.operation
  have hquiet : ∀ after : SessionTable,
      (executor.lapse entry.operation).sessions.Idles after →
      executor.issued id entry = [] → entry.reports id = [] →
      after.get? id = some record →
      ∃ earlier : Session, executor.sessions.get? id = some earlier ∧
        earlier.Carries (executor.issued id entry) (entry.reports id)
          record := by
    intro after hafter hnone hreports hrecord
    rw [hnone, hreports]
    exact hlapsed.trans hafter id record hrecord
  simp only [commit, apply] at hget
  cases hoperation : entry.operation with
  | noOp =>
      rw [hoperation] at hget hquiet
      exact Or.inr (hquiet _ (.refl _) (by simp [issued, hoperation])
        (by simp [LogEntry.reports, hoperation]) hget)
  | register client timeout timestamp =>
      rw [hoperation] at hget hquiet
      simp only [SessionTable.get?_register] at hget
      split at hget
      · rename_i heq
        obtain rfl := Option.some.inj hget
        exact Or.inl ⟨heq, heq.symm, rfl, .start _ _ _ _⟩
      · exact Or.inr (hquiet _ (.refl _) (by simp [issued, hoperation])
          (by simp [LogEntry.reports, hoperation]) hget)
  | keepAlive session commandSequence reported timestamp =>
      rw [hoperation] at hget hlapsed
      have hkept := hlapsed.trans (carries_keepAlive _ session commandSequence
        reported timestamp) id record hget
      simp only [List.nil_append] at hkept
      simp only [issued, LogEntry.reports, hoperation]
      exact Or.inr hkept
  | unregister session timestamp =>
      rw [hoperation] at hget hquiet
      refine Or.inr (hquiet _ ?_ (by simp [issued, hoperation])
        (by simp [LogEntry.reports, hoperation]) hget)
      simp only [unregister]
      split
      · exact SessionTable.idles_remove _ session
      · exact .refl _
  | command sender sequence timestamp payload =>
      simp only [hoperation, applyCommand] at hget
      rw [hoperation] at hquiet hlapsed
      have hreports : entry.reports id = [] := by
        simp [LogEntry.reports, hoperation]
      cases hopen : (executor.lapse
          (.command sender sequence timestamp payload)).sessions.get? sender with
      | none =>
          rw [hopen] at hget
          exact Or.inr (hquiet _ (.refl _)
            (by simp [issued, hoperation, hopen]) hreports hget)
      | some opened =>
          rw [hopen] at hget
          by_cases hle : sequence ≤ opened.commandSequence
          · simp only [hle, ↓reduceIte] at hget
            exact Or.inr (hquiet _ (.refl _)
              (by simp [issued, hoperation, hopen, hle]) hreports hget)
          · simp only [hle, ↓reduceIte] at hget
            have hran := hlapsed.trans (carries_run _ _) id record hget
            simp only [List.nil_append] at hran
            rw [hreports]
            simp only [issued, hoperation, hopen, hle, ↓reduceIte]
            exact Or.inr hran

end Executor

end SessionRaft
