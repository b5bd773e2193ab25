/-
What a node sends to the clients of its sessions.  It sends events of the
stream and nothing else, and it sends all that a session has queued once the
publisher was moved back to the acknowledgment.
-/
import SessionRaft.Proofs.CommitPipeline
import SessionRaft.Proofs.Replicas

namespace SessionRaft

/-- What the client gets to see of an event. -/
def Event.message (event : Event) : PublishResponse × Bytes :=
  (.ok event.label, event.payload)

/-- What a message tells the client of a session. -/
def Outbound.message? (session : SessionId) :
    Outbound → Option (PublishResponse × Bytes)
  | publish recipient response payload =>
      if recipient = session then some (response, payload) else none
  | _ => none

@[simp] theorem Outbound.message?_delivery (recipient session : SessionId)
    (event : Event) : (Publisher.delivery recipient event).message? session =
      if recipient = session then some event.message else none := rfl

def Outbound.isFor (session : SessionId) (outbound : Outbound) : Bool :=
  (outbound.message? session).isSome

theorem Outbound.isFor_delivery (recipient session : SessionId)
    (event : Event) : (Publisher.delivery recipient event).isFor session =
      decide (recipient = session) := by
  by_cases heq : recipient = session <;> simp [isFor, heq]

theorem Table.keys_nodup {α : Type} (table : Table α) :
    table.keys.Nodup := by
  rw [keys, List.Nodup, List.pairwise_map]
  exact table.ascending.imp (fun hlt => Nat.ne_of_lt hlt)

theorem Table.mem_values_iff {α : Type} {table : Table α} {value : α} :
    value ∈ table.values ↔ ∃ key, table.get? key = some value := by
  simp only [values, List.mem_map, Prod.exists, exists_eq_right,
    get?_eq_some_iff]

namespace Publisher

variable {publisher : Publisher} {session : Session}

/-- Only queued events are sent. -/
theorem mem_sendPast {recipient : SessionId} {cursor : Int}
    {events : List Event} {message : Outbound}
    (hmessage : message ∈ (sendPast recipient cursor events).1) :
    ∃ event ∈ events, message = delivery recipient event := by
  induction events generalizing cursor with
  | nil => simp [sendPast] at hmessage
  | cons event events ih =>
      by_cases hsent : (event.sequence : Int) ≤ cursor
      · simp only [sendPast, hsent, ↓reduceIte] at hmessage
        obtain ⟨other, hother, heq⟩ := ih hmessage
        exact ⟨other, List.mem_cons_of_mem _ hother, heq⟩
      · simp only [sendPast, hsent, ↓reduceIte, List.mem_cons] at hmessage
        rcases hmessage with heq | hmessage
        · exact ⟨event, List.mem_cons_self, heq⟩
        · obtain ⟨other, hother, heq⟩ := ih hmessage
          exact ⟨other, List.mem_cons_of_mem _ hother, heq⟩

/-- Of events in the order of their numbers those past the cursor are sent. -/
theorem sendPast_eq_filter {recipient : SessionId} {cursor : Int}
    {events : List Event} (hrising : events.Pairwise (·.sequence < ·.sequence)) :
    (sendPast recipient cursor events).1 =
      (events.filter (fun event => decide (cursor < event.sequence))).map
        (delivery recipient) := by
  induction events generalizing cursor with
  | nil => rfl
  | cons event events ih =>
      obtain ⟨hfirst, hrest⟩ := List.pairwise_cons.mp hrising
      by_cases hsent : (event.sequence : Int) ≤ cursor
      · simp only [sendPast, hsent, ↓reduceIte, ih hrest]
        rw [List.filter_cons_of_neg (by simpa using hsent)]
      · -- The cursor moves to this event, and all that follow lie past it.
        have hpast : ∀ other ∈ events,
            decide ((event.sequence : Int) < other.sequence) =
              decide (cursor < other.sequence) := by
          intro other hother
          have hlt := hfirst other hother
          rw [decide_eq_decide]
          omega
        simp only [sendPast, hsent, ↓reduceIte, ih hrest]
        rw [List.filter_cons_of_pos (by simpa using hsent), List.map_cons,
          List.filter_congr hpast]

/-- Events whose numbers follow on each other, the first one past the cursor,
are all sent. -/
theorem sendPast_numbered {recipient : SessionId} {cursor : Int}
    {events : List Event} {first count : Nat} (hcursor : cursor ≤ first)
    (hnumbered : events.map Event.sequence = List.range' (first + 1) count) :
    (sendPast recipient cursor events).1 = events.map (delivery recipient) := by
  rw [sendPast_eq_filter (rising_of_numbered hnumbered),
    List.filter_eq_self.mpr]
  intro event hevent
  have hmem := List.mem_map_of_mem (f := Event.sequence) hevent
  rw [hnumbered, List.mem_range'_1] at hmem
  exact decide_eq_true (by omega)

/-- The events of a session are published under its name. -/
theorem mem_publishAll {sessions : List Session} {message : Outbound}
    (hmessage : message ∈ (publisher.publishAll sessions).2) :
    ∃ session ∈ sessions, ∃ event ∈ session.events,
      message = delivery session.id event := by
  induction sessions generalizing publisher with
  | nil => simp [publishAll] at hmessage
  | cons session sessions ih =>
      simp only [publishAll, List.mem_append] at hmessage
      rcases hmessage with hmessage | hmessage
      · obtain ⟨event, hevent, heq⟩ := mem_sendPast hmessage
        exact ⟨session, List.mem_cons_self, event, hevent, heq⟩
      · obtain ⟨other, hother, hevents⟩ := ih hmessage
        exact ⟨other, List.mem_cons_of_mem _ hother, hevents⟩

/-- Publishing one session leaves the cursors of the others. -/
theorem sent?_publishSession (publisher : Publisher) (session : Session)
    {other : SessionId} (hother : other ≠ session.id) :
    (publisher.publishSession session).1.sent? other =
      publisher.sent? other := by
  simp only [publishSession, sent?, Table.get?_insert, if_neg hother]

/-- The events of a session are sent to its client only. -/
theorem filter_sendPast (recipient id : SessionId) (cursor : Int)
    (events : List Event) :
    (sendPast recipient cursor events).1.filter (Outbound.isFor id) =
      if recipient = id then (sendPast recipient cursor events).1 else [] := by
  have hall : ∀ message ∈ (sendPast recipient cursor events).1,
      message.isFor id = decide (recipient = id) := by
    intro message hmessage
    obtain ⟨event, -, rfl⟩ := mem_sendPast hmessage
    exact Outbound.isFor_delivery recipient id event
  rw [List.filter_congr hall]
  by_cases heq : recipient = id <;> simp [heq]

/-- Where the sending of a session's events goes on: at the cursor, or at the
acknowledgment if the session is new to the publisher. -/
def position (publisher : Publisher) (session : Session) : Int :=
  publisher.sent.getD session.id session.eventAck

theorem position_of_sent {cursor : Int}
    (hsent : publisher.sent? session.id = some cursor) :
    publisher.position session = cursor :=
  congrArg (Option.getD · _) hsent

theorem position_of_new (hnew : publisher.sent? session.id = none) :
    publisher.position session = session.eventAck :=
  congrArg (Option.getD · _) hnew

/-- A publisher whose cursor has not passed the acknowledgment sends from no
later than there. -/
theorem position_le (hcursor : ∀ cursor,
      publisher.sent? session.id = some cursor → cursor ≤ session.eventAck) :
    publisher.position session ≤ session.eventAck := by
  cases hsent : publisher.sent? session.id with
  | none => exact Int.le_of_eq (position_of_new hsent)
  | some cursor => exact position_of_sent hsent ▸ hcursor cursor hsent

/-- Nothing is sent to a session that is not published, and its cursor
stays. -/
theorem publishAll_apart {sessions : List Session} {id : SessionId}
    (hapart : ∀ session ∈ sessions, session.id ≠ id) :
    (publisher.publishAll sessions).2.filter (Outbound.isFor id) = [] ∧
      (publisher.publishAll sessions).1.sent? id = publisher.sent? id := by
  induction sessions generalizing publisher with
  | nil => exact ⟨rfl, rfl⟩
  | cons head sessions ih =>
      rw [List.forall_mem_cons] at hapart
      obtain ⟨hsilent, hkept⟩ := @ih (publisher.publishSession head).1 hapart.2
      simp only [publishAll, List.filter_append]
      rw [hsilent, hkept, List.append_nil]
      exact ⟨(filter_sendPast _ _ _ _).trans (if_neg hapart.1),
        publisher.sent?_publishSession head (Ne.symm hapart.1)⟩

/-- A session that is published gets what lies past its position, whatever
sessions are published with it. -/
theorem publishAll_own {sessions : List Session}
    (hdistinct : (sessions.map Session.id).Nodup)
    (hmem : session ∈ sessions) :
    (publisher.publishAll sessions).2.filter (Outbound.isFor session.id) =
        (sendPast session.id (publisher.position session) session.events).1 ∧
      (publisher.publishAll sessions).1.sent? session.id = some
        (sendPast session.id (publisher.position session) session.events).2 := by
  induction sessions generalizing publisher with
  | nil => simp at hmem
  | cons head sessions ih =>
      rw [List.map_cons, List.nodup_cons] at hdistinct
      simp only [publishAll, List.filter_append]
      rcases List.mem_cons.mp hmem with rfl | hmem
      · have hapart : ∀ other ∈ sessions, other.id ≠ session.id :=
          fun other hother heq =>
            hdistinct.1 (heq ▸ List.mem_map_of_mem hother)
        obtain ⟨hsilent, hkept⟩ :=
          (publisher.publishSession session).1.publishAll_apart hapart
        rw [hsilent, hkept, List.append_nil]
        refine ⟨(filter_sendPast _ _ _ _).trans (if_pos rfl), ?_⟩
        simp only [publishSession, sent?, Table.get?_insert, ↓reduceIte,
          position]
      · have hother : session.id ≠ head.id := fun heq =>
          hdistinct.1 (heq ▸ List.mem_map_of_mem hmem)
        have hposition : (publisher.publishSession head).1.position session =
            publisher.position session :=
          congrArg (Option.getD · _)
            (publisher.sent?_publishSession head hother)
        obtain ⟨hown, hcursor⟩ :=
          @ih (publisher.publishSession head).1 hdistinct.2 hmem
        rw [hposition] at hown hcursor
        have hhead : (publisher.publishSession head).2.filter
            (Outbound.isFor session.id) = [] :=
          (filter_sendPast _ _ _ _).trans (if_neg (Ne.symm hother))
        rw [hhead, hown]
        exact ⟨rfl, hcursor⟩

/-- All that a session has queued is sent if the publisher has not passed its
acknowledgment. -/
theorem publishAll_sends {sessions : List Session}
    (hdistinct : (sessions.map Session.id).Nodup) (hmem : session ∈ sessions)
    {stream : List Event} (hstreams : session.Streams stream)
    (hcursor : ∀ cursor, publisher.sent? session.id = some cursor →
      cursor ≤ session.eventAck) :
    (session.events.map (delivery session.id)).Sublist
      (publisher.publishAll sessions).2 := by
  rw [← sendPast_numbered (position_le hcursor) hstreams.pending,
    ← (publishAll_own hdistinct hmem).1]
  exact List.filter_sublist

/-- A publisher gets no further with any session. -/
def Recedes (before after : Publisher) : Prop :=
  ∀ session cursor, after.sent? session = some cursor →
    ∃ earlier, before.sent? session = some earlier ∧ cursor ≤ earlier

theorem recedes_resendFrom (publisher : Publisher) (session : SessionId)
    (sequence : Int) :
    publisher.Recedes (publisher.resendFrom session sequence) := by
  intro other cursor hcursor
  simp only [sent?, resendFrom, Table.get?_modify] at hcursor ⊢
  split at hcursor
  · obtain ⟨earlier, hearlier, rfl⟩ := Option.map_eq_some_iff.mp hcursor
    exact ⟨earlier, hearlier, Int.min_le_right _ _⟩
  · exact ⟨cursor, hcursor, Int.le_refl _⟩

theorem recedes_forget (publisher : Publisher) (session : SessionId) :
    publisher.Recedes (publisher.forget session) := by
  intro other cursor hcursor
  simp only [sent?, forget, Table.get?_erase,
    Option.ite_none_left_eq_some] at hcursor
  exact ⟨cursor, hcursor.2, Int.le_refl _⟩

end Publisher

namespace SessionTable

/-- Sessions that are kept under their names have different names. -/
theorem ids_nodup {table : SessionTable}
    (hkeyed : ∀ id record, table.get? id = some record → record.id = id) :
    (table.toList.map Session.id).Nodup := by
  have hids : table.toList.map Session.id = table.sessions.keys := by
    simp only [toList, Table.values, Table.keys, List.map_map]
    refine List.map_congr_left (fun row hrow => ?_)
    exact hkeyed row.1 row.2 ((Table.get?_eq_some_iff _ _ _).mpr hrow)
  exact hids ▸ table.sessions.keys_nodup

/-- Publishing opens and closes no session. -/
theorem contains_publish (table : SessionTable) (recipient : SessionId)
    (payload : Bytes) (id : SessionId) :
    (table.publish recipient payload).1.contains id = table.contains id := by
  unfold publish
  split
  · rfl
  · rename_i session hsession
    change ((table.sessions.insert recipient _).get? id).isSome = _
    rw [Table.get?_insert]
    split
    · rename_i heq
      subst heq
      exact (congrArg Option.isSome hsession).symm
    · rfl

theorem contains_update (table : SessionTable) (changed id : SessionId)
    (f : Session → Session) :
    (table.update changed f).contains id = table.contains id := by
  change ((table.update changed f).get? id).isSome = (table.get? id).isSome
  rw [get?_update]
  split
  · exact Option.isSome_map
  · rfl

/-- The payloads that the state machine addresses to an open session are those
of the events that the session gets, in their order. -/
theorem issued_payloads {table : SessionTable} {session : SessionId}
    (hopen : table.contains session = true)
    (events : List (SessionId × Bytes)) :
    (table.issued session events).map Event.payload =
      (events.filter (fun event => event.1 = session)).map Prod.snd := by
  induction events generalizing table with
  | nil => rfl
  | cons event events ih =>
      obtain ⟨recipient, payload⟩ := event
      have hstays := (table.contains_publish recipient payload session).trans
        hopen
      simp only [issued, List.map_append, ih hstays]
      by_cases heq : recipient = session
      · subst heq
        obtain ⟨record, hrecord⟩ := Option.isSome_iff_exists.mp hopen
        have hget : table.get? recipient = some record := hrecord
        simp [publish, hget, Session.pushEvent]
      · simp [heq]

end SessionTable

namespace Executor

variable {σ : Type}

theorem contains_publishAll (table : SessionTable)
    (events : List (SessionId × Bytes)) (id : SessionId) :
    (publishAll table events).contains id = table.contains id := by
  induction events generalizing table with
  | nil => rfl
  | cons event events ih =>
      exact (ih _).trans (table.contains_publish event.1 event.2 id)

variable [StateMachine σ] {start executor after : Executor σ}
  {entries : List LogEntry} {id : SessionId}

/-- Running a command opens and closes no session. -/
theorem contains_run (executor : Executor σ) (commit : Commit)
    (id : SessionId) : (executor.run commit).1.sessions.contains id =
      executor.sessions.contains id := by
  simp only [run]
  rw [SessionTable.contains_update, contains_publishAll,
    SessionTable.contains_update]

/-- The command that the state machine runs when an entry is committed: one of
an open session that was not run before. -/
def due? (executor : Executor σ) (entry : LogEntry) : Option Commit :=
  match entry.operation with
  | .command sender sequence timestamp payload =>
      match (executor.lapse entry.operation).sessions.get? sender with
      | none => none
      | some record =>
          if sequence ≤ record.commandSequence then none
          else some ⟨entry.index, sender, sequence, timestamp, payload⟩
  | _ => none

/-- The payloads that the state machine publishes to a session when an entry is
committed.  What it publishes to a closed session goes nowhere. -/
def addressed (executor : Executor σ) (session : SessionId)
    (entry : LogEntry) : List Bytes :=
  match executor.due? entry with
  | none => []
  | some commit =>
      if (executor.lapse entry.operation).sessions.contains session then
        ((StateMachine.apply executor.machine commit).events.filter
          (fun event => event.1 = session)).map Prod.snd
      else []

def published (executor : Executor σ) (session : SessionId) :
    List LogEntry → List Bytes
  | [] => []
  | entry :: entries =>
      executor.addressed session entry ++
        (executor.commit entry).1.published session entries

theorem runIssued_payloads (executor : Executor σ) (session : SessionId)
    (commit : Commit) :
    (executor.runIssued session commit).map Event.payload =
      if executor.sessions.contains session then
        ((StateMachine.apply executor.machine commit).events.filter
          (fun event => event.1 = session)).map Prod.snd
      else [] := by
  have htouched := executor.sessions.contains_update commit.session session
    (·.touch commit.timestamp)
  unfold runIssued
  split
  · rename_i hopen
    exact SessionTable.issued_payloads (htouched.trans hopen) _
  · rename_i hclosed
    rw [← htouched] at hclosed
    have hnone : (executor.sessions.update commit.session
        (·.touch commit.timestamp)).get? session = none := by
      rw [← Option.not_isSome_iff_eq_none]
      exact hclosed
    rw [SessionTable.issued_closed hnone, List.map_nil]

/-- The events that a session gets by an entry have the payloads that the state
machine published to it. -/
theorem issued_payloads (executor : Executor σ) (session : SessionId)
    (entry : LogEntry) : (executor.issued session entry).map Event.payload =
      executor.addressed session entry := by
  unfold issued addressed due?
  dsimp only
  cases entry.operation with
  | command sender sequence timestamp payload =>
      dsimp only
      rw [← executor.lapse_machine (.command sender sequence timestamp payload)]
      generalize executor.lapse (.command sender sequence timestamp payload) =
        lapsed
      cases lapsed.sessions.get? sender with
      | none => rfl
      | some record =>
          by_cases hle : sequence ≤ record.commandSequence
          · simp only [hle, ↓reduceIte, List.map_nil]
          · simp only [hle, ↓reduceIte]
            exact lapsed.runIssued_payloads session _
  | _ => rfl

theorem stream_payloads (executor : Executor σ) (session : SessionId)
    (entries : List LogEntry) :
    (executor.stream session entries).map Event.payload =
      executor.published session entries := by
  induction entries generalizing executor with
  | nil => rfl
  | cons entry entries ih =>
      rw [stream, published, List.map_append, issued_payloads, ih]

/-- A session that an entry leaves closed gets no events by it. -/
theorem issued_of_closed {entry : LogEntry}
    (hclosed : (executor.commit entry).1.sessions.get? id = none) :
    executor.issued id entry = [] := by
  simp only [commit, apply] at hclosed
  unfold issued
  dsimp only
  cases hoperation : entry.operation with
  | command sender sequence timestamp payload =>
      simp only [hoperation, applyCommand] at hclosed
      simp only
      generalize executor.lapse (.command sender sequence timestamp payload) =
        executor at hclosed ⊢
      cases hsender : executor.sessions.get? sender with
      | none => rfl
      | some record =>
          by_cases hle : sequence ≤ record.commandSequence
          · exact if_pos hle
          · simp only [hsender, hle, ↓reduceIte] at hclosed ⊢
            have hnot := (contains_run executor
              ⟨entry.index, sender, sequence, timestamp, payload⟩ id).symm.trans
                (congrArg Option.isSome hclosed)
            have htouched : (executor.sessions.update sender
                (·.touch timestamp)).get? id = none := by
              rw [← Option.not_isSome_iff_eq_none, Bool.not_eq_true]
              exact (SessionTable.contains_update _ _ _ _).trans hnot
            exact SessionTable.issued_closed htouched _
  | _ => rfl

theorem Commits.keyed {machine : σ}
    (hcommits : (Executor.start machine).Commits entries executor) :
    ∀ id record, executor.sessions.get? id = some record → record.id = id := by
  induction hcommits with
  | none => exact fun id record hget => by simp [get?_start] at hget
  | @commit entries executor entry _ ih =>
      intro id record hget
      rcases executor.commit_carries entry hget with
        ⟨-, hid, -⟩ | ⟨earlier, hearlier, hcarries⟩
      · exact hid
      · exact hcarries.id.trans (ih id earlier hearlier)
  | acknowledge session sequence _ ih =>
      intro id record hget
      simp only [Executor.acknowledge, SessionTable.get?_update] at hget
      split at hget
      · obtain ⟨earlier, hearlier, rfl⟩ := Option.map_eq_some_iff.mp hget
        exact (earlier.carries_acknowledge sequence).id.trans
          (ih id earlier hearlier)
      · exact ih id record hget

/-- The acknowledgment of a session that was open moves only forward. -/
theorem replay_forward (hopened : ∀ entry ∈ entries, entry.index ≠ id)
    {record : Session}
    (hget : (executor.replay entries).sessions.get? id = some record) :
    ∃ earlier, executor.sessions.get? id = some earlier ∧
      earlier.eventAck ≤ record.eventAck := by
  induction entries generalizing executor with
  | nil => exact ⟨record, hget, Nat.le_refl _⟩
  | cons entry entries ih =>
      rw [List.forall_mem_cons] at hopened
      obtain ⟨middle, hmiddle, hle⟩ := ih hopened.2 hget
      rcases executor.commit_carries entry hmiddle with
        ⟨heq, -⟩ | ⟨earlier, hearlier, hcarries⟩
      · exact absurd heq.symm hopened.1
      · exact ⟨earlier, hearlier, Nat.le_trans hcarries.forward hle⟩

/-- No session is acknowledged beyond what entries report. -/
theorem replay_acked {bound : Nat}
    (hreports : ∀ entry ∈ entries, ∀ report ∈ entry.reports id,
      report ≤ (bound : Int))
    (hacked : ∀ record, executor.sessions.get? id = some record →
      record.eventAck ≤ bound) :
    ∀ record, (executor.replay entries).sessions.get? id = some record →
      record.eventAck ≤ bound := by
  induction entries generalizing executor with
  | nil => exact hacked
  | cons entry entries ih =>
      rw [List.forall_mem_cons] at hreports
      apply ih hreports.2
      intro record hget
      rcases executor.commit_carries entry hget with
        ⟨-, -, hzero, -⟩ | ⟨earlier, hearlier, hcarries⟩
      · omega
      · have hearlier := hacked earlier hearlier
        rcases hcarries.reported with heq | ⟨report, hreport, hle⟩
        · omega
        · have hbound := hreports.1 report hreport
          omega

/-- The events of a session are numbered from 1 without a gap, also after it
was closed. -/
theorem stream_numbered (machine : σ) (hnumbered : Numbered entries)
    (id : SessionId) :
    ((Executor.start machine).stream id entries).map Event.sequence =
      List.range' 1 ((Executor.start machine).stream id entries).length := by
  induction entries using List.reverseRecOn with
  | nil => rfl
  | append_singleton entries entry ih =>
      have hcommits := commits_replay (Executor.start machine)
        (entries ++ [entry])
      cases hget : ((Executor.start machine).replay
          (entries ++ [entry])).sessions.get? id with
      | none =>
          rw [replay_append] at hget
          have hnone := issued_of_closed hget
          rw [stream_append, stream, stream, hnone, List.append_nil,
            List.append_nil]
          exact ih hnumbered.init
      | some record =>
          have hstreams := hcommits.streams hnumbered id record hget
          rw [hstreams.numbered, hstreams.length_eq]

end Executor

namespace Node

open FaithfulLog

variable {L σ : Type} {node before middle after : Node L σ}
  {session : SessionId}

/-- How far the events of a session have been sent. -/
def cursor? (node : Node L σ) (session : SessionId) : Option Int :=
  node.leadership.bind (fun leadership => leadership.publisher.sent? session)

/-- What is under way to the client of a session. -/
def deliveries (node : Node L σ) (session : SessionId) :
    List (PublishResponse × Bytes) :=
  node.outbox.filterMap (Outbound.message? session)

/-- Nothing is sent, and the publisher gets no further. -/
structure Silent (before after : Node L σ) : Prop where
  outbox : after.outbox = before.outbox
  cursors : ∀ session cursor, after.cursor? session = some cursor →
    ∃ earlier, before.cursor? session = some earlier ∧ cursor ≤ earlier

theorem Silent.of_eq (houtbox : after.outbox = before.outbox)
    (hleadership : after.leadership = before.leadership) :
    Silent before after := by
  refine ⟨houtbox, fun session cursor hcursor => ?_⟩
  rw [cursor?, hleadership] at hcursor
  exact ⟨cursor, hcursor, Int.le_refl _⟩

theorem Silent.refl (node : Node L σ) : Silent node node := .of_eq rfl rfl

theorem Silent.trans (hfirst : Silent before middle)
    (hsecond : Silent middle after) : Silent before after := by
  refine ⟨hsecond.outbox.trans hfirst.outbox, fun session cursor hcursor => ?_⟩
  obtain ⟨between, hbetween, hlater⟩ := hsecond.cursors session cursor hcursor
  obtain ⟨earlier, hearlier, hsooner⟩ := hfirst.cursors session between hbetween
  exact ⟨earlier, hearlier, Int.le_trans hlater hsooner⟩

/-- A leadership whose publisher gets no further. -/
theorem silent_modifyLeadership (node : Node L σ)
    {f : Leadership → Leadership}
    (hf : ∀ leadership : Leadership,
      leadership.publisher.Recedes (f leadership).publisher) :
    Silent node (node.modifyLeadership f) := by
  refine ⟨rfl, fun session cursor hcursor => ?_⟩
  simp only [cursor?, modifyLeadership] at hcursor ⊢
  cases hleadership : node.leadership with
  | none => simp [hleadership] at hcursor
  | some leadership =>
      rw [hleadership] at hcursor
      exact hf leadership session cursor hcursor

theorem Silent.of_publisher {f : Leadership → Leadership}
    (hf : ∀ leadership, (f leadership).publisher = leadership.publisher) :
    Silent node (node.modifyLeadership f) := by
  apply silent_modifyLeadership
  intro leadership session cursor hcursor
  rw [hf] at hcursor
  exact ⟨cursor, hcursor, Int.le_refl _⟩

theorem silent_forgetCommands (node : Node L σ) (session : SessionId)
    (kind : ErrorKind) : Silent node (node.forgetCommands session kind) := by
  unfold forgetCommands
  cases hleadership : node.leadership with
  | none => exact .refl node
  | some leadership =>
      refine ⟨rfl, fun other cursor hcursor => ⟨cursor, ?_, Int.le_refl _⟩⟩
      rw [cursor?, hleadership]
      exact hcursor

theorem silent_releaseSession (node : Node L σ) (session : SessionId) :
    Silent node (node.releaseSession session) := by
  have hforgets : Silent (node.forgetCommands session .unknownSession)
      ((node.forgetCommands session .unknownSession).modifyLeadership
        (fun leadership => { leadership with
          publisher := leadership.publisher.forget session })) :=
    silent_modifyLeadership _
      (fun leadership => leadership.publisher.recedes_forget session)
  exact ((silent_forgetCommands node session _).trans hforgets).trans
    (.of_eq rfl rfl)

theorem silent_releaseSessions (node : Node L σ) (sessions : List SessionId) :
    Silent node (node.releaseSessions sessions) := by
  induction sessions generalizing node with
  | nil => exact .refl node
  | cons session sessions ih =>
      exact (silent_releaseSession node session).trans (ih _)

theorem silent_settle (node : Node L σ) (operation : Operation)
    (applied : Applied) : Silent node (node.settle operation applied) := by
  unfold settle
  split
  · exact .of_publisher (fun _ => rfl)
  · exact silent_releaseSession node _
  · exact .refl node

theorem dropAll_outbox (node : Node L σ) (fails : PendingQuery → Bool) :
    ((node.dropLeadership.failWaiters .noLeader).failQueries fails
      .noLeader).outbox = node.outbox := by
  have hdrop : node.dropLeadership.outbox = node.outbox := by
    unfold dropLeadership
    cases node.leadership <;> rfl
  exact hdrop

theorem silent_expireBefore (node : Node L σ) (operation : Operation) :
    Silent node (node.expireBefore operation) := by
  unfold expireBefore
  split
  · rename_i timestamp _
    have hclosed : Silent node
        { node with executor := node.executor.expire timestamp } :=
      .of_eq rfl rfl
    exact hclosed.trans (silent_releaseSessions _
      (node.executor.sessions.expired timestamp))
  · exact .refl node

theorem silent_acknowledgeEvents (node : Node L σ) (session : SessionId)
    (reported : Int) : Silent node (node.acknowledgeEvents session reported) := by
  unfold acknowledgeEvents
  split
  · exact .refl node
  · split
    · exact .of_eq rfl rfl
    · exact silent_modifyLeadership _
        (fun leadership => leadership.publisher.recedes_resendFrom session _)

variable [LogStore L]

theorem becomeFollower_outbox (node : Node L σ) (term : Nat) :
    (node.becomeFollower term).outbox = node.outbox := by
  have hadopted : (node.adoptTerm term).outbox = node.outbox := by
    unfold adoptTerm
    split <;> rfl
  rw [becomeFollower_eq, stepDown]
  split
  · exact (dropAll_outbox _ _).trans hadopted
  · exact hadopted

variable [StateMachine σ]

omit [LogStore L] in
theorem silent_applyEntry (node : Node L σ) (entry : LogEntry) :
    Silent node (node.applyEntry entry) := by
  have hexpired := silent_expireBefore node entry.operation
  rw [applyEntry_eq]
  generalize node.expireBefore entry.operation = expired at hexpired ⊢
  have happlied : Silent expired
      { expired with executor := (expired.executor.apply entry).1 } :=
    .of_eq rfl rfl
  have hsettled := silent_settle
    { expired with executor := (expired.executor.apply entry).1 }
    entry.operation (expired.executor.apply entry).2
  exact ((hexpired.trans happlied).trans hsettled).trans (.of_eq rfl rfl)

theorem silent_applyNext (node : Node L σ) (count : Nat) :
    Silent node (node.applyNext count) := by
  refine applyNext_induction (Silent node) node count (.refl node)
    (fun before entry hbefore _ => ?_)
  have hnoted : Silent before
      { before with lastApplied := before.lastApplied + 1 } := .of_eq rfl rfl
  exact hbefore.trans (hnoted.trans (silent_applyEntry _ _))

omit [StateMachine σ] in
theorem Appends.silent {commands : List PendingCommand}
    (happends : Appends node commands after) : Silent node after := by
  induction happends with
  | done => exact .refl _
  | @issue node after command commands index log _ _ ih =>
      have hstored : Silent node { node with log := log } := .of_eq rfl rfl
      have hissued : Silent { node with log := log }
          (node.issued command index log) :=
        Silent.trans (.of_publisher (f := fun leadership =>
          { leadership with
            sequencer := leadership.sequencer.appended
              command.request.session command.request.sequence index })
          (fun _ => rfl)) (.of_eq rfl rfl)
      exact (hstored.trans hissued).trans ih
  | @lose node command commands fault log _ =>
      have hfailed : Silent node ({ node with log := log }.failCommands
          (command :: commands) .internalError) := .of_eq rfl rfl
      exact hfailed.trans (silent_forgetCommands _ _ _)

omit [LogStore L] [StateMachine σ] in
/-- What is queued at a leader leaves it as it is delivered. -/
theorem deliveries_publishEvents (hkeyed : ∀ id record,
      node.executor.sessions.get? id = some record → record.id = id)
    {message : PublishResponse × Bytes}
    (hmessage : message ∈ node.publishEvents.deliveries session) :
    message ∈ node.deliveries session ∨
      ∃ record, node.executor.sessions.get? session = some record ∧
        ∃ event ∈ record.events, message = event.message := by
  unfold publishEvents at hmessage
  split at hmessage
  · exact Or.inl hmessage
  · simp only [deliveries, send, List.filterMap_append, List.mem_append]
      at hmessage
    rcases hmessage with hmessage | hmessage
    · exact Or.inl hmessage
    · obtain ⟨outbound, houtbound, heq⟩ := List.mem_filterMap.mp hmessage
      obtain ⟨record, hrecord, event, hevent, rfl⟩ :=
        Publisher.mem_publishAll houtbound
      obtain ⟨id, hget⟩ := Table.mem_values_iff.mp hrecord
      have hid : record.id = id := hkeyed id record hget
      rw [Outbound.message?_delivery, Option.ite_none_right_eq_some] at heq
      obtain ⟨rfl, heq⟩ := heq
      exact Or.inr ⟨record, hid ▸ hget, event, hevent,
        (Option.some.inj heq).symm⟩

omit [LogStore L] [StateMachine σ] in
theorem publishEvents_executor (node : Node L σ) :
    node.publishEvents.executor = node.executor := by
  unfold publishEvents
  cases node.leadership <;> rfl

omit [LogStore L] [StateMachine σ] in
theorem publishEvents_outbox (node : Node L σ) :
    node.outbox <+: node.publishEvents.outbox := by
  unfold publishEvents
  split
  · exact List.prefix_rfl
  · exact List.prefix_append _ _

omit [LogStore L] [StateMachine σ] in
/-- All that is pending is sent where the publisher has not passed the
acknowledgment. -/
theorem publishEvents_sends (hleads : node.leadership.isSome = true)
    (hkeyed : ∀ id record, node.executor.sessions.get? id = some record →
      record.id = id) {record : Session}
    (hrecord : node.executor.sessions.get? session = some record)
    {stream : List Event} (hstreams : record.Streams stream)
    (hcursor : ∀ cursor, node.cursor? session = some cursor →
      cursor ≤ record.eventAck) :
    (record.events.map (Publisher.delivery session)).Sublist
      node.publishEvents.outbox := by
  obtain ⟨leadership, hleadership⟩ := Option.isSome_iff_exists.mp hleads
  have hid := hkeyed session record hrecord
  have hmem : record ∈ node.executor.sessions.toList :=
    Table.mem_values_iff.mpr ⟨session, hrecord⟩
  rw [cursor?, hleadership, ← hid] at hcursor
  have hsent := Publisher.publishAll_sends (SessionTable.ids_nodup hkeyed) hmem
    hstreams hcursor
  rw [hid] at hsent
  unfold publishEvents
  rw [hleadership]
  exact hsent.trans (List.sublist_append_right _ _)

variable [FaithfulLog L]

theorem applyEntry_executor (node : Node L σ) (entry : LogEntry) :
    (node.applyEntry entry).executor = (node.executor.commit entry).1 :=
  congrArg Standing.executor (lapsed_applyEntry node entry).standing

theorem applyNext_executor (node : Node L σ) (count : Nat) :
    (node.applyNext count).executor =
      node.executor.replay (node.handed count) := by
  induction count generalizing node with
  | zero => rfl
  | succ count ih =>
      unfold applyNext handed
      cases LogStore.get? node.log (node.lastApplied + 1) with
      | none => rfl
      | some entry =>
          simp only
          rw [ih, Executor.replay, applyEntry_executor]

/-- What is handed to the executor is in the log, past what was applied. -/
theorem mem_handed (hlog : Sound node.log) {count : Nat} {entry : LogEntry}
    (hentry : entry ∈ node.handed count) :
    entry ∈ entries node.log ∧ node.lastApplied < entry.index := by
  induction count generalizing node with
  | zero => simp [handed] at hentry
  | succ count ih =>
      unfold handed at hentry
      split at hentry
      · simp at hentry
      · rename_i first hfirst
        rw [get?_succ hlog] at hfirst
        have hlapsed := lapsed_applyEntry
          { node with lastApplied := node.lastApplied + 1 } first
        have hkept : (applyEntry
            { node with lastApplied := node.lastApplied + 1 } first).log =
            node.log := hlapsed.log
        have happlied : (applyEntry
            { node with lastApplied := node.lastApplied + 1 }
              first).lastApplied = node.lastApplied + 1 :=
          congrArg Standing.lastApplied hlapsed.standing
        rcases List.mem_cons.mp hentry with rfl | hentry
        · have hindex := numbered hlog _ _ hfirst
          exact ⟨List.mem_of_getElem? hfirst, by omega⟩
        · obtain ⟨hmem, hlt⟩ := ih (hkept.symm ▸ hlog) hentry
          exact ⟨hkept ▸ hmem, by omega⟩

omit [StateMachine σ] in
/-- Commands that are appended leave the executor alone, and report nothing. -/
theorem Appends.spec {commands : List PendingCommand}
    (happends : Appends node commands after) (hlog : Sound node.log) :
    after.executor = node.executor ∧
      ∀ entry ∈ entries after.log,
        entry ∈ entries node.log ∨ ∀ id, entry.reports id = [] := by
  induction happends with
  | done => exact ⟨rfl, fun _ hentry => Or.inl hentry⟩
  | @issue node after command commands index log happend _ ih =>
      obtain ⟨hafter, -, hentries⟩ := append_done (.of_sound hlog) happend
      obtain ⟨hexecutor, hreports⟩ := ih hafter.sound
      refine ⟨hexecutor, fun entry hentry => ?_⟩
      rcases hreports entry hentry with hentry | hnone
      · change entry ∈ entries log at hentry
        rw [hentries, List.mem_append, List.mem_singleton] at hentry
        rcases hentry with hentry | rfl
        · exact Or.inl hentry
        · exact Or.inr (fun _ => rfl)
      · exact Or.inr hnone
  | @lose node command commands fault log happend =>
      obtain ⟨-, hentries, -⟩ := append_failed (.of_sound hlog) happend
      have hquiet := quiet_lost { node with log := log } command commands
      refine ⟨congrArg Standing.executor hquiet.standing, ?_⟩
      intro entry hentry
      rw [hquiet.log] at hentry
      exact Or.inl (hentries ▸ hentry)

omit [StateMachine σ] in
theorem admitted_spec (hlog : Sound node.log) (record : Session)
    (submission : Submission) :
    Silent node (node.admitted record submission) ∧
      (node.admitted record submission).executor = node.executor ∧
      ∀ entry ∈ entries (node.admitted record submission).log,
        entry ∈ entries node.log ∨ ∀ id, entry.reports id = [] := by
  cases submission with
  | ready commands =>
      have happends := appends_appendReady node commands
      exact ⟨happends.silent, happends.spec hlog⟩
  | _ => exact ⟨.of_eq rfl rfl, rfl, fun _ hentry => Or.inl hentry⟩

/-- The publisher has not passed the acknowledgment of a session. -/
def Rewound (node : Node L σ) (session : SessionId) : Prop :=
  ∀ record, node.executor.sessions.get? session = some record →
    ∀ cursor, node.cursor? session = some cursor → cursor ≤ record.eventAck

/-- Applying entries moves the acknowledgment at most away from the
publisher. -/
theorem Rewound.applyNext (hrewound : node.Rewound session)
    (hlog : Sound node.log) (hopened : session ≤ node.lastApplied)
    (count : Nat) : (node.applyNext count).Rewound session := by
  intro record hrecord cursor hcursor
  obtain ⟨before, hbefore, hle⟩ :=
    (silent_applyNext node count).cursors session cursor hcursor
  rw [applyNext_executor] at hrecord
  obtain ⟨earlier, hearlier, hforward⟩ := Executor.replay_forward
    (fun entry hentry => Nat.ne_of_gt
      (Nat.lt_of_le_of_lt hopened (mem_handed hlog hentry).2)) hrecord
  have hbound := hrewound earlier hearlier before hbefore
  omega

theorem applyNext_leads (node : Node L σ) (count : Nat) :
    (node.applyNext count).leadership.isSome = node.leadership.isSome := by
  refine applyNext_induction
    (fun after => after.leadership.isSome = node.leadership.isSome) node count
    rfl (fun before entry hbefore _ => ?_)
  have hbare := congrArg Standing.leadership (lapsed_applyEntry
    { before with lastApplied := before.lastApplied + 1 } entry).standing
  have hsome := congrArg Option.isSome hbare
  simp only [standing, Option.isSome_map] at hsome
  exact hsome.trans hbefore

/-- A broadcast after which everything is published sends all that is pending
then, also if it commits something first. -/
theorem Rewound.replicate_sends (hrewound : node.Rewound session)
    (hlog : Sound node.log) (hleads : node.leadership.isSome = true)
    (hopened : session ≤ node.lastApplied)
    {after : Node L σ} (hafter : after = node.replicate.publishEvents)
    (hkeyed : ∀ id record, after.executor.sessions.get? id = some record →
      record.id = id)
    {record : Session}
    (hrecord : after.executor.sessions.get? session = some record)
    {stream : List Event} (hstreams : record.Streams stream) :
    (record.events.map (Publisher.delivery session)).Sublist after.outbox := by
  subst hafter
  rw [publishEvents_executor] at hkeyed hrecord
  have hbroadcast : node.broadcast.Rewound session := by
    intro record hrecord cursor hcursor
    simp only [cursor?, broadcast, modifyLeadership, sendAppends, send,
      Option.bind_map] at hcursor
    exact hrewound record hrecord cursor hcursor
  have hbroadcastLeads : node.broadcast.leadership.isSome = true := by
    simpa [broadcast, modifyLeadership, sendAppends, send] using hleads
  simp only [replicate, hleads, ↓reduceIte] at hkeyed hrecord ⊢
  unfold advanceCommit at hkeyed hrecord ⊢
  cases htarget : node.broadcast.leadership.bind node.broadcast.commitTarget? with
  | none =>
      rw [htarget] at hkeyed hrecord
      exact publishEvents_sends hbroadcastLeads hkeyed hrecord hstreams
        (hbroadcast record hrecord)
  | some target =>
      rw [htarget] at hkeyed hrecord
      have hcommitted :
          { node.broadcast with commitIndex := target }.Rewound session :=
        hbroadcast
      have hadvanced : (Node.applyNext
          { node.broadcast with commitIndex := target }
          (target - node.lastApplied)).serveQueries.Rewound session :=
        hcommitted.applyNext hlog hopened _
      have hstillLeads : (Node.applyNext
          { node.broadcast with commitIndex := target }
          (target - node.lastApplied)).serveQueries.leadership.isSome = true :=
        (applyNext_leads _ _).trans hbroadcastLeads
      change ∀ id record, (publishEvents _).executor.sessions.get? id =
        some record → record.id = id at hkeyed
      change (publishEvents _).executor.sessions.get? session =
        some record at hrecord
      rw [publishEvents_executor] at hkeyed hrecord
      have hsent := publishEvents_sends hstillLeads hkeyed hrecord hstreams
        (hadvanced record hrecord)
      exact hsent.trans (publishEvents_outbox _).sublist

omit [LogStore L] [StateMachine σ] [FaithfulLog L] in
/-- A report that moves nothing moves the publisher back to the
acknowledgment. -/
theorem acknowledgeEvents_rewinds {record : Session}
    (hrecord : node.executor.sessions.get? session = some record)
    {reported : Int} (hstuck : record.advances reported = false)
    (hafter : after = node.acknowledgeEvents session reported) :
    after.Rewound session ∧ after.executor = node.executor ∧
      after.leadership.isSome = node.leadership.isSome ∧
      after.log = node.log ∧ after.lastApplied = node.lastApplied := by
  have hmodified : after = node.modifyLeadership (fun leadership =>
      { leadership with
        publisher :=
          leadership.publisher.resendFrom session record.eventAck }) := by
    simp only [hafter, acknowledgeEvents, hrecord, hstuck, Bool.false_eq_true,
      ↓reduceIte]
  subst hmodified
  refine ⟨fun own hown cursor hcursor => ?_, rfl, Option.isSome_map, rfl, rfl⟩
  obtain rfl : record = own := Option.some.inj (hrecord.symm.trans hown)
  simp only [cursor?, modifyLeadership, Option.bind_map] at hcursor
  obtain ⟨leadership, -, hsent⟩ := Option.bind_eq_some_iff.mp hcursor
  simp only [Function.comp, Publisher.sent?, Publisher.resendFrom,
    Table.get?_modify, ↓reduceIte] at hsent
  obtain ⟨earlier, -, rfl⟩ := Option.map_eq_some_iff.mp hsent
  exact Int.min_le_left _ _

/-- A leader takes a report of received events; that of a keep-alive request is
taken once its entry is stored. -/
structure Heeds (node : Node L σ) (input : Input) (session : SessionId)
    (reported : Int) : Prop where
  report : input.report? = some (session, reported)
  leads : node.leadership.isSome = true
  stores : ∀ ticket request, input = .keepAlive ticket request →
    ∃ index log, LogStore.append node.log node.term
      (.keepAlive request.session request.commandSequence
        request.eventSequence node.now) = (.ok index, log)

variable {input : Input} {reported : Int}

/-- Once a report that moves nothing was taken, all that is pending is sent. -/
theorem step_resends {output : Output}
    (hstep : node.step input = .ok (output, after))
    (hheeds : node.Heeds input session reported) (hrole : node.role = .leader)
    (hlog : Sound node.log) (hopened : session ≤ node.lastApplied)
    {record : Session}
    (hrecord : node.executor.sessions.get? session = some record)
    (hstuck : record.advances reported = false)
    (hkeyed : ∀ id record, after.executor.sessions.get? id = some record →
      record.id = id)
    {last : Session}
    (hlast : after.executor.sessions.get? session = some last)
    {stream : List Event} (hstreams : last.Streams stream) :
    (last.events.map (Publisher.delivery session)).Sublist after.outbox := by
  have hreport := hheeds.report
  cases input with
  | publish request =>
      obtain ⟨rfl, rfl⟩ := Prod.mk.inj (Option.some.inj hreport)
      have hafter : (node.publish request).2 = after :=
        (Prod.mk.inj (Except.ok.inj hstep)).2
      obtain ⟨hrewound, hexecutor, hleads, -⟩ :=
        acknowledgeEvents_rewinds hrecord hstuck rfl
      have hresult : after = (node.acknowledgeEvents request.session
          request.eventSequence).publishEvents := by
        rw [← hafter]
        unfold Node.publish
        rw [if_neg (not_not_intro hrole)]
        simp only [hexecutor, hrecord]
      subst hresult
      rw [publishEvents_executor] at hkeyed hlast
      exact publishEvents_sends (hleads.trans hheeds.leads) hkeyed hlast
        hstreams (hrewound last hlast)
  | keepAlive ticket request =>
      obtain ⟨rfl, rfl⟩ := Prod.mk.inj (Option.some.inj hreport)
      obtain ⟨-, hafter⟩ := Prod.mk.inj (Except.ok.inj hstep)
      obtain ⟨index, log, happend⟩ := hheeds.stores ticket request rfl
      have hknown : ¬node.refuses request.session = true := by
        have hcontains : node.executor.sessions.contains request.session =
          true := congrArg Option.isSome hrecord
        simp [refuses, hcontains]
      have hsound := append_sound hlog node.term (.keepAlive request.session
        request.commandSequence request.eventSequence node.now)
      rw [happend] at hsound
      let waiting := { node with log := log }.await index [.keepAlive ticket]
      have hopen : waiting.executor.sessions.get? request.session =
        some record := hrecord
      obtain ⟨hrewound, -, hleads, hsame, happlied⟩ :=
        acknowledgeEvents_rewinds hopen hstuck rfl
      have hresult : after = (waiting.acknowledgeEvents request.session
          request.eventSequence).replicate.publishEvents := by
        rw [← hafter]
        unfold submitKeepAlive appendOperation
        dsimp only
        rw [if_neg hknown, if_neg (not_not_intro hrole), happend]
      exact hrewound.replicate_sends (hsame ▸ hsound)
        (hleads.trans hheeds.leads) (happlied ▸ hopened) hresult hkeyed hlast
        hstreams
  | _ => simp [Input.report?] at hreport

end Node

end SessionRaft
