/-
What a publisher sends while its sessions change.  Events come and go, sessions
are opened and closed, and the publisher is moved back or made to forget a
session at any time in between.  Below the cursor of a session there is nothing
that was neither acknowledged nor sent, and between two rewinds the cursor only
rises; so the publisher passes over no event and repeats none by itself.
-/
import Mathlib.Order.Bounds.Basic
import SessionRaft.ByteProgram
import SessionRaft.Proofs.Deliveries
import SessionRaft.Proofs.EventNumbers

namespace SessionRaft

/-- What can be done with a publisher, or happens to the sessions that it
publishes for. -/
inductive PublisherMove where
  | change (occurrence : Occurrence)
  | publish
  | resendFrom (session : SessionId) (sequence : Int)
  | forget (session : SessionId)

namespace PublisherMove

def opens? : PublisherMove → Option SessionId
  | change occurrence => occurrence.opens?
  | _ => none

/-- A move that may set a session's cursor back. -/
def Rewinds (id : SessionId) (move : PublisherMove) : Prop :=
  move = .forget id ∨ ∃ sequence, move = .resendFrom id sequence

end PublisherMove

/-- The number of the event that a message carries. -/
def Outbound.sequence? : Outbound → Option Nat
  | publish _ response _ => response.value?.map PublishAck.sequence
  | _ => none

/-- The numbers of the events that are sent to a session. -/
def Outbound.sequences (id : SessionId) (outbound : List Outbound) : List Nat :=
  (outbound.filter (isFor id)).filterMap sequence?

@[simp] theorem Outbound.sequences_nil (id : SessionId) : sequences id [] = [] :=
  rfl

theorem Outbound.filterMap_sequence? (id : SessionId) (events : List Event) :
    (events.map (Publisher.delivery id)).filterMap sequence? =
      events.map Event.sequence := by
  rw [List.filterMap_map, ← List.filterMap_eq_map]
  rfl

/-- The label of an event can always be built, so none is left out as
malformed. -/
theorem Event.make_label (event : Event) :
    PublishResponse.make event.version event.sequence =
      .ok (.ok event.label) := by
  have hversion : ¬(event.version : Int) < 0 := by omega
  have hsequence : ¬(event.sequence : Int) < 0 := by omega
  simp only [PublishResponse.make, PublishAck.make, hversion, hsequence,
    ↓reduceIte, Int.toNat_natCast]
  rfl

/-- The queued events of a session; one that is not open has none. -/
def SessionTable.pending (table : SessionTable) (id : SessionId) : List Event :=
  (table.get? id).elim [] Session.events

namespace Session.Streams

variable {session : Session} {stream : List Event} {event : Event}

/-- The queued events carry the numbers past the acknowledgment. -/
theorem mem_numbers_iff (hstreams : session.Streams stream) {number : Nat} :
    number ∈ session.events.map Event.sequence ↔
      session.eventAck < number ∧ number ≤ session.eventSequence := by
  have hacked := hstreams.acked
  rw [hstreams.pending, List.mem_range'_1]
  omega

/-- A queued event is not acknowledged. -/
theorem acked_lt (hstreams : session.Streams stream)
    (hevent : event ∈ session.events) : session.eventAck < event.sequence :=
  (hstreams.mem_numbers_iff.mp (List.mem_map_of_mem hevent)).1

/-- Every number between the acknowledgment and a queued event is that of a
queued event. -/
theorem exists_pending (hstreams : session.Streams stream)
    (hevent : event ∈ session.events) {number : Nat}
    (hacked : session.eventAck < number) (hle : number ≤ event.sequence) :
    ∃ other ∈ session.events, other.sequence = number := by
  have hlast := (hstreams.mem_numbers_iff.mp (List.mem_map_of_mem hevent)).2
  exact List.mem_map.mp
    (hstreams.mem_numbers_iff.mpr ⟨hacked, Nat.le_trans hle hlast⟩)

end Session.Streams

/-- In a list that rises what is smaller than an event stands before it. -/
theorem mem_before_of_lt {sooner later : List Event} {event other : Event}
    (hrising : (sooner ++ event :: later).Pairwise (·.sequence < ·.sequence))
    (hmem : other ∈ sooner ++ event :: later)
    (hlt : other.sequence < event.sequence) : other ∈ sooner := by
  rw [List.pairwise_append, List.pairwise_cons] at hrising
  rcases List.mem_append.mp hmem with hfront | hback
  · exact hfront
  · rcases List.mem_cons.mp hback with rfl | hback
    · exact absurd hlt (Nat.lt_irrefl _)
    · exact absurd (hrising.2.1.1 other hback) (Nat.lt_asymm hlt)

/-! ### One pass over the sessions -/

namespace Publisher

variable {publisher before middle after : Publisher} {table : SessionTable}
  {session : Session} {id : SessionId} {streams : SessionId → List Event}

/-- The events of a session that lie past its position. -/
def due (publisher : Publisher) (session : Session) : List Event :=
  session.events.filter
    (fun event => decide (publisher.position session < event.sequence))

theorem mem_due {event : Event} : event ∈ publisher.due session ↔
    event ∈ session.events ∧
      publisher.position session < (event.sequence : Int) := by
  rw [due, List.mem_filter, decide_eq_true_eq]

theorem sendPast_cons_cursor (recipient : SessionId) (cursor : Int)
    (event : Event) (events : List Event) :
    (sendPast recipient cursor (event :: events)).2 =
      (sendPast recipient (max cursor event.sequence) events).2 := by
  by_cases hsent : (event.sequence : Int) ≤ cursor
  · simp only [sendPast, hsent, ↓reduceIte, Int.max_eq_left hsent]
  · have hpast : cursor ≤ event.sequence := by omega
    simp only [sendPast, hsent, ↓reduceIte, Int.max_eq_right hpast]

/-- The cursor ends at the last event, unless it lies past all of them. -/
theorem sendPast_greatest (recipient : SessionId) (cursor : Int)
    (events : List Event) :
    IsGreatest { reach | reach = cursor ∨
        ∃ event ∈ events, (event.sequence : Int) = reach }
      (sendPast recipient cursor events).2 := by
  induction events generalizing cursor with
  | nil =>
      refine ⟨Or.inl rfl, ?_⟩
      rintro reach (rfl | ⟨event, hevent, -⟩)
      · exact Int.le_refl _
      · exact absurd hevent List.not_mem_nil
  | cons event events ih =>
      -- Passing over an event and sending it are one case: the cursor becomes
      -- the larger of the two.
      obtain ⟨hreach, hbound⟩ := ih (max cursor event.sequence)
      have hmax := hbound (Or.inl rfl)
      rw [sendPast_cons_cursor]
      constructor
      · rcases hreach with heq | ⟨other, hother, heq⟩
        · rcases Int.le_total event.sequence cursor with hle | hle
          · exact Or.inl (heq.trans (Int.max_eq_left hle))
          · exact Or.inr ⟨event, List.mem_cons_self,
              (heq.trans (Int.max_eq_right hle)).symm⟩
        · exact Or.inr ⟨other, List.mem_cons_of_mem _ hother, heq⟩
      · rintro reach (rfl | ⟨other, hother, rfl⟩)
        · exact Int.le_trans (Int.le_max_left _ _) hmax
        · rcases List.mem_cons.mp hother with rfl | hother
          · exact Int.le_trans (Int.le_max_right _ _) hmax
          · exact hbound (Or.inr ⟨other, hother, rfl⟩)

/-- A pass sends an open session what is due, and moves its cursor to the last
event. -/
theorem publish_open (publisher : Publisher)
    (hfollows : table.Follows streams)
    (hget : table.get? id = some session) :
    (publisher.publish table).2.filter (Outbound.isFor id) =
        (publisher.due session).map (delivery id) ∧
      ∃ cursor, (publisher.publish table).1.sent? id = some cursor ∧
        IsGreatest { reach | reach = publisher.position session ∨
          ∃ event ∈ session.events, (event.sequence : Int) = reach } cursor := by
  obtain ⟨rfl, hstream⟩ := hfollows id session hget
  have hdistinct : (table.toList.map Session.id).Nodup :=
    SessionTable.ids_nodup (fun id record hrecord =>
      (hfollows id record hrecord).1)
  obtain ⟨hsent, hcursor⟩ := publisher.publishAll_own hdistinct
    (Table.mem_values_iff.mpr ⟨session.id, hget⟩)
  rw [sendPast_eq_filter (rising_of_numbered hstream.pending)] at hsent
  exact ⟨hsent, _, hcursor, sendPast_greatest _ _ _⟩

/-- A pass sends a closed session nothing. -/
theorem publish_closed (publisher : Publisher)
    (hfollows : table.Follows streams)
    (hget : table.get? id = none) :
    (publisher.publish table).2.filter (Outbound.isFor id) = [] ∧
      (publisher.publish table).1.sent? id = publisher.sent? id := by
  refine publisher.publishAll_apart (fun session hsession heq => ?_)
  obtain ⟨key, hkey⟩ := Table.mem_values_iff.mp hsession
  obtain ⟨rfl, -⟩ := hfollows key session hkey
  exact Option.some_ne_none session (hkey.symm.trans (heq ▸ hget))

/-- What is sent to a session rises from the cursor that it had before to the
one that it has after. -/
structure Advances (id : SessionId) (before : Publisher)
    (sequences : List Nat) (after : Publisher) : Prop where
  rising : sequences.Pairwise (· < ·)
  past : ∀ cursor, before.sent? id = some cursor →
    ∀ sequence ∈ sequences, cursor < (sequence : Int)
  within : ∀ sequence ∈ sequences,
    ∃ cursor, after.sent? id = some cursor ∧ (sequence : Int) ≤ cursor
  forward : ∀ cursor, before.sent? id = some cursor →
    ∃ later, after.sent? id = some later ∧ cursor ≤ later

theorem Advances.of_eq (heq : after.sent? id = before.sent? id) :
    Advances id before [] after where
  rising := List.Pairwise.nil
  past _ _ _ hmem := absurd hmem List.not_mem_nil
  within _ hmem := absurd hmem List.not_mem_nil
  forward cursor hcursor := ⟨cursor, heq.trans hcursor, Int.le_refl _⟩

theorem Advances.trans {sequences more : List Nat}
    (hfirst : Advances id before sequences middle)
    (hsecond : Advances id middle more after) :
    Advances id before (sequences ++ more) after where
  rising := by
    refine List.pairwise_append.mpr ⟨hfirst.rising, hsecond.rising, ?_⟩
    intro sooner hsooner later hlater
    obtain ⟨cursor, hcursor, hle⟩ := hfirst.within sooner hsooner
    have hlt := hsecond.past cursor hcursor later hlater
    omega
  past cursor hcursor sequence hsequence := by
    rcases List.mem_append.mp hsequence with hsooner | hlater
    · exact hfirst.past cursor hcursor sequence hsooner
    · obtain ⟨between, hbetween, hle⟩ := hfirst.forward cursor hcursor
      exact Int.lt_of_le_of_lt hle
        (hsecond.past between hbetween sequence hlater)
  within sequence hsequence := by
    rcases List.mem_append.mp hsequence with hsooner | hlater
    · obtain ⟨cursor, hcursor, hle⟩ := hfirst.within sequence hsooner
      obtain ⟨later, hlater, hforward⟩ := hsecond.forward cursor hcursor
      exact ⟨later, hlater, Int.le_trans hle hforward⟩
    · exact hsecond.within sequence hlater
  forward cursor hcursor := by
    obtain ⟨between, hbetween, hle⟩ := hfirst.forward cursor hcursor
    obtain ⟨later, hlater, hforward⟩ := hsecond.forward between hbetween
    exact ⟨later, hlater, Int.le_trans hle hforward⟩

theorem advances_publish (publisher : Publisher)
    (hfollows : table.Follows streams) (id : SessionId) :
    Advances id publisher (Outbound.sequences id (publisher.publish table).2)
      (publisher.publish table).1 := by
  unfold Outbound.sequences
  cases hget : table.get? id with
  | none =>
      obtain ⟨hsilent, hkept⟩ := publisher.publish_closed hfollows hget
      rw [hsilent]
      exact .of_eq hkept
  | some session =>
      obtain ⟨hsent, later, hlater, -, hbound⟩ :=
        publisher.publish_open hfollows hget
      obtain ⟨rfl, hstream⟩ := hfollows id session hget
      rw [hsent, Outbound.filterMap_sequence?]
      have hdue : ∀ sequence ∈ (publisher.due session).map Event.sequence,
          publisher.position session < (sequence : Int) ∧
            (sequence : Int) ≤ later := by
        intro sequence hsequence
        obtain ⟨event, hevent, rfl⟩ := List.mem_map.mp hsequence
        obtain ⟨hqueued, hpast⟩ := mem_due.mp hevent
        exact ⟨hpast, hbound (Or.inr ⟨event, hqueued, rfl⟩)⟩
      constructor
      · exact List.pairwise_map.mpr
          ((rising_of_numbered hstream.pending).sublist List.filter_sublist)
      · intro cursor hcursor sequence hsequence
        exact position_of_sent hcursor ▸ (hdue sequence hsequence).1
      · exact fun sequence hsequence =>
          ⟨later, hlater, (hdue sequence hsequence).2⟩
      · intro cursor hcursor
        exact ⟨later, hlater,
          position_of_sent hcursor ▸ hbound (Or.inl rfl)⟩

end Publisher

/-! ### Moves -/

/-- Sessions behind a state machine, and the publisher of their events. -/
structure Post (σ : Type) where
  executor : Executor σ
  publisher : Publisher

namespace Post

variable {σ : Type} {post : Post σ} {id : SessionId}
  {used : List SessionId} {sent : SessionId → List Nat}
  {streams : SessionId → List Event} {session : Session}

/-- Some identities are used, and some events were sent to each session: what
lies below a cursor was acknowledged or sent. -/
structure Covers (post : Post σ) (used : List SessionId)
    (sent : SessionId → List Nat) : Prop where
  follows : ∃ streams, post.executor.sessions.Follows streams
  opened : ∀ id session, post.executor.sessions.get? id = some session →
    id ∈ used
  known : ∀ id cursor, post.publisher.sent? id = some cursor → id ∈ used
  passed : ∀ id session cursor,
    post.executor.sessions.get? id = some session →
    post.publisher.sent? id = some cursor →
    ∀ sequence : Nat, (sequence : Int) ≤ cursor →
      sequence ≤ session.eventAck ∨ sequence ∈ sent id

theorem Covers.start (machine : σ) :
    Covers ⟨.start machine, .start⟩ [] (fun _ => []) where
  follows := ⟨fun _ => [], fun _ _ hget => nomatch hget⟩
  opened _ _ hget := nomatch hget
  known _ _ hcursor := nomatch hcursor
  passed _ _ _ hget := nomatch hget

/-- A session that is new to the publisher is passed up to its
acknowledgment. -/
theorem Covers.position (hcovers : post.Covers used sent)
    (hget : post.executor.sessions.get? id = some session) {sequence : Nat}
    (hle : (sequence : Int) ≤ post.publisher.position session) :
    sequence ≤ session.eventAck ∨ sequence ∈ sent id := by
  obtain ⟨streams, hfollows⟩ := hcovers.follows
  obtain ⟨rfl, -⟩ := hfollows id session hget
  cases hsent : post.publisher.sent? session.id with
  | none =>
      rw [Publisher.position_of_new hsent] at hle
      exact Or.inl (Int.ofNat_le.mp hle)
  | some cursor =>
      rw [Publisher.position_of_sent hsent] at hle
      exact hcovers.passed _ session cursor hget hsent sequence hle

/-- A number up to that of a queued event is acknowledged, sent or due. -/
theorem Covers.passed_or_due (hcovers : post.Covers used sent)
    (hget : post.executor.sessions.get? id = some session) {event : Event}
    (hevent : event ∈ session.events) {number : Nat}
    (hle : number ≤ event.sequence) :
    (number ≤ session.eventAck ∨ number ∈ sent id) ∨
      ∃ other ∈ post.publisher.due session, other.sequence = number := by
  obtain ⟨streams, hfollows⟩ := hcovers.follows
  by_cases hbelow : (number : Int) ≤ post.publisher.position session
  · exact Or.inl (hcovers.position hget hbelow)
  · rcases Nat.lt_or_ge session.eventAck number with hacked | hacked
    · obtain ⟨other, hother, rfl⟩ :=
        (hfollows id session hget).2.toStreams.exists_pending hevent hacked hle
      exact Or.inr ⟨other,
        Publisher.mem_due.mpr ⟨hother, Int.not_le.mp hbelow⟩, rfl⟩
    · exact Or.inl (Or.inl hacked)

theorem Covers.publish (hcovers : post.Covers used sent) :
    Covers ⟨post.executor,
        (post.publisher.publish post.executor.sessions).1⟩ used
      (fun id => sent id ++ Outbound.sequences id
        (post.publisher.publish post.executor.sessions).2) where
  follows := hcovers.follows
  opened := hcovers.opened
  known id cursor hcursor := by
    obtain ⟨streams, hfollows⟩ := hcovers.follows
    cases hget : post.executor.sessions.get? id with
    | none =>
        have hkept := (post.publisher.publish_closed hfollows hget).2
        exact hcovers.known id cursor (hkept.symm.trans hcursor)
    | some session => exact hcovers.opened id session hget
  passed id session cursor hget hcursor sequence hle := by
    obtain ⟨streams, hfollows⟩ := hcovers.follows
    obtain ⟨hsent, reached, hreached, hgreatest, -⟩ :=
      post.publisher.publish_open hfollows hget
    obtain rfl := Option.some.inj (hreached.symm.trans hcursor)
    rw [Outbound.sequences, hsent, Outbound.filterMap_sequence?,
      List.mem_append, ← or_assoc]
    -- The cursor stays at the position, or it moves to a queued event.
    rcases hgreatest with rfl | ⟨event, hevent, rfl⟩
    · exact Or.inl (hcovers.position hget hle)
    · exact (hcovers.passed_or_due hget hevent (Int.ofNat_le.mp hle)).imp_right
        List.mem_map.mpr

theorem Covers.recede (hcovers : post.Covers used sent)
    {publisher : Publisher} (hrecedes : post.publisher.Recedes publisher) :
    Covers ⟨post.executor, publisher⟩ used sent where
  follows := hcovers.follows
  opened := hcovers.opened
  known id cursor hcursor := by
    obtain ⟨earlier, hearlier, -⟩ := hrecedes id cursor hcursor
    exact hcovers.known id earlier hearlier
  passed id session cursor hget hcursor sequence hle := by
    obtain ⟨earlier, hearlier, hback⟩ := hrecedes id cursor hcursor
    exact hcovers.passed id session earlier hget hearlier sequence
      (Int.le_trans hle hback)

/-- The publisher has not passed the acknowledgment of a session. -/
def Rewound (post : Post σ) (id : SessionId) : Prop :=
  ∀ session, post.executor.sessions.get? id = some session →
    ∀ cursor, post.publisher.sent? id = some cursor →
      cursor ≤ session.eventAck

theorem Rewound.recede (hrewound : post.Rewound id) {publisher : Publisher}
    (hrecedes : post.publisher.Recedes publisher) :
    Rewound ⟨post.executor, publisher⟩ id := by
  intro session hget cursor hcursor
  obtain ⟨earlier, hearlier, hback⟩ := hrecedes id cursor hcursor
  exact Int.le_trans hback (hrewound session hget earlier hearlier)

variable [StateMachine σ]

def step (post : Post σ) : PublisherMove → Post σ × List Outbound
  | .change occurrence =>
      ({ post with executor := post.executor.meet occurrence }, [])
  | .publish =>
      let (publisher, outbound) :=
        post.publisher.publish post.executor.sessions
      ({ post with publisher := publisher }, outbound)
  | .resendFrom session sequence =>
      ({ post with publisher := post.publisher.resendFrom session sequence },
        [])
  | .forget session =>
      ({ post with publisher := post.publisher.forget session }, [])

/-- A change either opens a session that the publisher does not know, or every
session was open and its acknowledgment has not moved back. -/
theorem Covers.change_cases (hcovers : post.Covers used sent)
    {occurrence : Occurrence}
    (hfresh : ∀ id, occurrence.opens? = some id → id ∉ used)
    (hget : (post.executor.meet occurrence).sessions.get? id = some session) :
    (occurrence.opens? = some id ∧ post.publisher.sent? id = none) ∨
      ∃ earlier, post.executor.sessions.get? id = some earlier ∧
        earlier.eventAck ≤ session.eventAck := by
  rcases post.executor.meet_cases occurrence with
    ⟨opened, client, timeout, timestamp, hopens, -, hsessions⟩ | ⟨-, hgoes⟩
  · rw [hsessions, SessionTable.get?_open] at hget
    split at hget
    · rename_i heq
      subst heq
      refine Or.inl ⟨hopens, ?_⟩
      exact Option.eq_none_iff_forall_ne_some.mpr (fun cursor hcursor =>
        hfresh id hopens (hcovers.known id cursor hcursor))
    · exact Or.inr ⟨session, hget, Nat.le_refl _⟩
  · exact Or.inr (hgoes.forward hget)

theorem Covers.change (hcovers : post.Covers used sent)
    {occurrence : Occurrence}
    (hfresh : ∀ id, occurrence.opens? = some id → id ∉ used) :
    Covers ⟨post.executor.meet occurrence, post.publisher⟩
      (used ++ occurrence.opens?.toList) sent where
  follows := by
    obtain ⟨streams, hfollows⟩ := hcovers.follows
    rcases post.executor.meet_cases occurrence with
      ⟨opened, client, timeout, timestamp, -, -, hsessions⟩ | ⟨-, hgoes⟩
    · exact ⟨_, hsessions ▸
        hfollows.register opened client timeout timestamp⟩
    · exact ⟨_, hgoes.follows hfollows⟩
  opened id session hget := by
    rw [List.mem_append]
    rcases hcovers.change_cases hfresh hget with
      ⟨hopens, -⟩ | ⟨earlier, hearlier, -⟩
    · exact Or.inr (by simp [hopens])
    · exact Or.inl (hcovers.opened id earlier hearlier)
  known id cursor hcursor :=
    List.mem_append_left _ (hcovers.known id cursor hcursor)
  passed id session cursor hget hcursor sequence hle := by
    rcases hcovers.change_cases hfresh hget with
      ⟨-, hnew⟩ | ⟨earlier, hearlier, hforward⟩
    · exact nomatch hnew.symm.trans hcursor
    · exact (hcovers.passed id earlier cursor hearlier hcursor sequence
        hle).imp_left (fun hacked => Nat.le_trans hacked hforward)

/-- What lies below a cursor stays acknowledged or sent, as long as no identity
is used again. -/
theorem Covers.step (hcovers : post.Covers used sent) {move : PublisherMove}
    (hfresh : ∀ id, move.opens? = some id → id ∉ used) :
    (post.step move).1.Covers (used ++ move.opens?.toList)
      (fun id => sent id ++ Outbound.sequences id (post.step move).2) := by
  cases move with
  | change occurrence =>
      simpa [Post.step, PublisherMove.opens?] using hcovers.change hfresh
  | publish => simpa [Post.step, PublisherMove.opens?] using hcovers.publish
  | resendFrom session sequence =>
      simpa [Post.step, PublisherMove.opens?] using
        hcovers.recede (post.publisher.recedes_resendFrom session sequence)
  | forget session =>
      simpa [Post.step, PublisherMove.opens?] using
        hcovers.recede (post.publisher.recedes_forget session)

/-- A delivery is that of a queued event, and comes after all events with a
smaller number that are not acknowledged. -/
theorem Covers.delivers_next (hcovers : post.Covers used sent)
    {move : PublisherMove} {earlier later : List Outbound} {message : Outbound}
    (hsplit : (post.step move).2.filter (Outbound.isFor id) =
      earlier ++ message :: later) :
    ∃ session, post.executor.sessions.get? id = some session ∧
      ∃ event ∈ session.events, message = Publisher.delivery id event ∧
        ∀ smaller < event.sequence, smaller ≤ session.eventAck ∨
          smaller ∈ sent id ++ earlier.filterMap Outbound.sequence? := by
  cases move with
  | change _ | resendFrom _ _ | forget _ => simp [Post.step] at hsplit
  | publish =>
      change (post.publisher.publish post.executor.sessions).2.filter
        (Outbound.isFor id) = _ at hsplit
      obtain ⟨streams, hfollows⟩ := hcovers.follows
      cases hget : post.executor.sessions.get? id with
      | none =>
          rw [(post.publisher.publish_closed hfollows hget).1] at hsplit
          simp at hsplit
      | some session =>
          have hstream := (hfollows id session hget).2.toStreams
          rw [(post.publisher.publish_open hfollows hget).1] at hsplit
          obtain ⟨sooner, rest, hdue, rfl, hrest⟩ :=
            List.map_eq_append_iff.mp hsplit
          obtain ⟨event, after, rfl, rfl, -⟩ := List.map_eq_cons_iff.mp hrest
          have hevent : event ∈ post.publisher.due session := by simp [hdue]
          have hqueued := (Publisher.mem_due.mp hevent).1
          -- What is due rises, so a smaller number that is due stands before.
          have hrising : (sooner ++ event :: after).Pairwise
              (·.sequence < ·.sequence) :=
            hdue ▸ (rising_of_numbered hstream.pending).sublist
              List.filter_sublist
          refine ⟨session, rfl, event, hqueued, rfl, fun smaller hlt => ?_⟩
          rw [Outbound.filterMap_sequence?, List.mem_append, ← or_assoc]
          refine (hcovers.passed_or_due hget hqueued
            (Nat.le_of_lt hlt)).imp_right ?_
          rintro ⟨other, hother, rfl⟩
          exact List.mem_map_of_mem
            (mem_before_of_lt hrising (hdue ▸ hother) hlt)

/-- A move that does not rewind a session sends it what lies past its
cursor. -/
theorem advances_step (hfollows : post.executor.sessions.Follows streams)
    {move : PublisherMove} (hkeeps : ¬move.Rewinds id) :
    post.publisher.Advances id (Outbound.sequences id (post.step move).2)
      (post.step move).1.publisher := by
  cases move with
  | change occurrence => exact .of_eq rfl
  | publish => exact post.publisher.advances_publish hfollows id
  | resendFrom other sequence =>
      have hne : id ≠ other := fun heq => hkeeps (Or.inr ⟨sequence, heq ▸ rfl⟩)
      exact .of_eq (by
        simp [Post.step, Publisher.sent?, Publisher.resendFrom,
          Table.get?_modify, hne])
  | forget other =>
      have hne : id ≠ other := fun heq => hkeeps (Or.inl (heq ▸ rfl))
      exact .of_eq (by
        simp [Post.step, Publisher.sent?, Publisher.forget,
          Table.get?_erase, hne])

theorem rewound_resendFrom
    (hget : post.executor.sessions.get? id = some session) :
    (post.step (.resendFrom id session.eventAck)).1.Rewound id := by
  intro same hsame cursor hcursor
  obtain rfl : session = same := Option.some.inj (hget.symm.trans hsame)
  simp only [Post.step, Publisher.sent?, Publisher.resendFrom,
    Table.get?_modify, ↓reduceIte] at hcursor
  obtain ⟨earlier, -, rfl⟩ := Option.map_eq_some_iff.mp hcursor
  exact Int.min_le_left _ _

/-- Only a pass moves a publisher past an acknowledgment. -/
theorem Rewound.step (hrewound : post.Rewound id)
    (hcovers : post.Covers used sent) {move : PublisherMove}
    (hfresh : ∀ id, move.opens? = some id → id ∉ used)
    (hmove : move ≠ .publish) : (post.step move).1.Rewound id := by
  cases move with
  | publish => exact absurd rfl hmove
  | resendFrom session sequence =>
      exact hrewound.recede (post.publisher.recedes_resendFrom session sequence)
  | forget session =>
      exact hrewound.recede (post.publisher.recedes_forget session)
  | change occurrence =>
      intro session hget cursor hcursor
      -- A session that is opened anew has no cursor yet.
      rcases hcovers.change_cases hfresh hget with
        ⟨-, hnew⟩ | ⟨earlier, hearlier, hforward⟩
      · exact nomatch hnew.symm.trans hcursor
      · exact Int.le_trans (hrewound earlier hearlier cursor hcursor)
          (Int.ofNat_le.mpr hforward)

/-- From a rewound publisher a pass sends all that is queued. -/
theorem Rewound.publish (hrewound : post.Rewound id)
    (hfollows : post.executor.sessions.Follows streams) :
    (post.step .publish).2.filter (Outbound.isFor id) =
      (post.executor.sessions.pending id).map (Publisher.delivery id) := by
  change (post.publisher.publish post.executor.sessions).2.filter
    (Outbound.isFor id) = _
  unfold SessionTable.pending
  cases hget : post.executor.sessions.get? id with
  | none => exact (post.publisher.publish_closed hfollows hget).1
  | some session =>
      rw [(post.publisher.publish_open hfollows hget).1]
      obtain ⟨rfl, hstream⟩ := hfollows id session hget
      have hposition := Publisher.position_le (hrewound session hget)
      have hall : post.publisher.due session = session.events := by
        refine List.filter_eq_self.mpr (fun event hevent => ?_)
        exact decide_eq_true (Int.lt_of_le_of_lt hposition
          (Int.ofNat_lt.mpr (hstream.acked_lt hevent)))
      rw [hall]
      rfl

end Post

/-! ### Histories -/

/-- A state machine without sessions, and all moves that are made then.  No
session is opened under an identity that was used before. -/
structure PublisherHistory (σ : Type) where
  machine : σ
  moves : List PublisherMove
  fresh : (moves.filterMap PublisherMove.opens?).Nodup

namespace PublisherHistory

variable {σ : Type} {history : PublisherHistory σ}
  {id : SessionId} {first time : Nat} {move : PublisherMove}

/-- The identities that are used before a time. -/
def used (history : PublisherHistory σ) (time : Nat) : List SessionId :=
  (history.moves.take time).filterMap PublisherMove.opens?

theorem used_succ (hmove : history.moves[time]? = some move) :
    history.used (time + 1) = history.used time ++ move.opens?.toList := by
  rw [used, List.take_add_one, hmove, List.filterMap_append]
  cases hopens : move.opens? <;> simp [used, hopens]

/-- A move opens no session under a used identity. -/
theorem opens_fresh (hmove : history.moves[time]? = some move) (id : SessionId)
    (hopens : move.opens? = some id) : id ∉ history.used time := by
  have hsplit : history.used (time + 1) <+:
      history.moves.filterMap PublisherMove.opens? :=
    (List.take_prefix _ _).filterMap _
  have hnodup := history.fresh.sublist hsplit.sublist
  rw [used_succ hmove, hopens, Option.toList_some, List.nodup_append] at hnodup
  exact fun hused =>
    hnodup.2.2 id hused id (List.mem_singleton_self id) rfl

variable [StateMachine σ]

/-- The sessions and the publisher after the first moves, as many as
`time`. -/
def post (history : PublisherHistory σ) (time : Nat) : Post σ :=
  (history.moves.take time).foldl (fun post move => (post.step move).1)
    ⟨.start history.machine, .start⟩

def table (history : PublisherHistory σ) (time : Nat) : SessionTable :=
  (history.post time).executor.sessions

def publisher (history : PublisherHistory σ) (time : Nat) : Publisher :=
  (history.post time).publisher

/-- What the move at a time sends to a session. -/
def messages (history : PublisherHistory σ) (id : SessionId) (time : Nat) :
    List Outbound :=
  match history.moves[time]? with
  | none => []
  | some move => ((history.post time).step move).2.filter (Outbound.isFor id)

/-- The numbers of the events that are sent to a session from a time on and
before another. -/
def during (history : PublisherHistory σ) (id : SessionId)
    (first time : Nat) : List Nat :=
  (List.range' first (time - first)).flatMap
    (fun between => (history.messages id between).filterMap
      Outbound.sequence?)

theorem post_succ (hmove : history.moves[time]? = some move) :
    history.post (time + 1) = ((history.post time).step move).1 := by
  rw [post, List.take_add_one, hmove, List.foldl_append]
  rfl

theorem post_succ_of_end (hend : history.moves[time]? = none) :
    history.post (time + 1) = history.post time := by
  rw [post, post, List.take_add_one, hend]
  simp

theorem messages_of_move (hmove : history.moves[time]? = some move) :
    history.messages id time =
      ((history.post time).step move).2.filter (Outbound.isFor id) := by
  simp only [messages, hmove]

theorem during_succ (hle : first ≤ time) :
    history.during id first (time + 1) = history.during id first time ++
      (history.messages id time).filterMap Outbound.sequence? := by
  have hlast : first + 1 * (time - first) = time := by omega
  rw [during, Nat.succ_sub hle, List.range'_concat, List.flatMap_append, hlast,
    List.flatMap_singleton]
  rfl

/-- At any time what lies below a cursor was acknowledged or sent. -/
theorem covers (history : PublisherHistory σ) (time : Nat) :
    (history.post time).Covers (history.used time)
      (fun id => history.during id 0 time) := by
  induction time with
  | zero => exact .start history.machine
  | succ time ih =>
      cases hmove : history.moves[time]? with
      | none =>
          have hused : history.used (time + 1) = history.used time := by
            simp [used, List.take_add_one, hmove]
          simpa [during_succ, messages, hmove, hused, post_succ_of_end] using ih
      | some move =>
          rw [post_succ hmove, used_succ hmove]
          simp only [during_succ (Nat.zero_le time), messages_of_move hmove]
          exact ih.step (opens_fresh hmove)

/-- As long as a session is not rewound, what is sent to it lies past its
cursor. -/
theorem advances (hle : first ≤ time)
    (hkeeps : ∀ between move, first ≤ between → between < time →
      history.moves[between]? = some move → ¬move.Rewinds id) :
    (history.publisher first).Advances id (history.during id first time)
      (history.publisher time) := by
  induction hle with
  | refl =>
      rw [during, Nat.sub_self]
      exact .of_eq rfl
  | @step time hle ih =>
      have hbefore := ih (fun between move hfirst hbetween =>
        hkeeps between move hfirst (Nat.lt_succ_of_lt hbetween))
      rw [during_succ hle]
      refine hbefore.trans ?_
      cases hmove : history.moves[time]? with
      | none =>
          simp only [messages, hmove]
          exact .of_eq (by rw [publisher, publisher, post_succ_of_end hmove])
      | some move =>
          obtain ⟨streams, hfollows⟩ := (history.covers time).follows
          rw [messages_of_move hmove, publisher, publisher, post_succ hmove]
          exact Post.advances_step hfollows
            (hkeeps time move hle (Nat.lt_succ_self time) hmove)

/-- After a pass all that is queued lies within the cursor, and was sent. -/
theorem caught_up (hmove : history.moves[time]? = some .publish)
    {session : Session}
    (hget : (history.table (time + 1)).get? id = some session) :
    ∃ cursor, (history.publisher (time + 1)).sent? id = some cursor ∧
      ∀ event ∈ session.events, (event.sequence : Int) ≤ cursor ∧
        event.sequence ∈ history.during id 0 (time + 1) := by
  have hafter := history.covers (time + 1)
  obtain ⟨streams, hfollows⟩ := hafter.follows
  obtain ⟨cursor, hsent, hbound⟩ : ∃ cursor,
      (history.publisher (time + 1)).sent? id = some cursor ∧
        ∀ event ∈ session.events, (event.sequence : Int) ≤ cursor := by
    rw [post_succ hmove] at hfollows
    rw [table, post_succ hmove] at hget
    rw [publisher, post_succ hmove]
    obtain ⟨-, cursor, hcursor, -, hbound⟩ :=
      (history.post time).publisher.publish_open hfollows hget
    exact ⟨cursor, hcursor, fun event hevent =>
      hbound (Or.inr ⟨event, hevent, rfl⟩)⟩
  refine ⟨cursor, hsent, fun event hevent => ?_⟩
  have hle := hbound event hevent
  have hqueued := (hfollows id session hget).2.acked_lt hevent
  refine ⟨hle, (hafter.passed id session cursor hget hsent event.sequence
    hle).resolve_left (Nat.not_le_of_lt hqueued)⟩

/-- Until the next pass a publisher that was moved back to an acknowledgment
does not pass it. -/
theorem rewound {session : Session}
    (hget : (history.table first).get? id = some session)
    (hresend : history.moves[first]? = some (.resendFrom id session.eventAck))
    (hlt : first < time)
    (hwaits : ∀ between, first < between → between < time →
      history.moves[between]? ≠ some .publish) :
    (history.post time).Rewound id := by
  induction hlt with
  | refl => exact post_succ hresend ▸ Post.rewound_resendFrom hget
  | @step time hlt ih =>
      have hbefore := ih (fun between hfirst hbetween =>
        hwaits between hfirst (Nat.lt_succ_of_lt hbetween))
      cases hmove : history.moves[time]? with
      | none => exact post_succ_of_end hmove ▸ hbefore
      | some move =>
          rw [post_succ hmove]
          refine hbefore.step (history.covers time) (opens_fresh hmove) ?_
          rintro rfl
          exact hwaits time hlt (Nat.lt_succ_self time) hmove

/-- Whatever happens to the sessions, a publisher neither skips nor repeats: a
delivery comes when all smaller numbers were acknowledged or sent before, a
pass moves the cursor past all that is queued, between two rewinds the numbers
that are sent rise, and the pass after a rewind to the acknowledgment sends
exactly what is queued, in its order. -/
theorem publishes_in_sequence (history : PublisherHistory σ) (id : SessionId)
    (time : Nat) :
    (∀ earlier message later,
      history.messages id time = earlier ++ message :: later →
      ∃ session, (history.table time).get? id = some session ∧
        ∃ event ∈ session.events, message = Publisher.delivery id event ∧
          ∀ smaller < event.sequence, smaller ≤ session.eventAck ∨
            smaller ∈ history.during id 0 time ++
              earlier.filterMap Outbound.sequence?) ∧
    (history.moves[time]? = some .publish →
      ∀ session, (history.table (time + 1)).get? id = some session →
        ∃ cursor, (history.publisher (time + 1)).sent? id = some cursor ∧
          ∀ event ∈ session.events, (event.sequence : Int) ≤ cursor ∧
            event.sequence ∈ history.during id 0 (time + 1)) ∧
    (∀ first ≤ time,
      (∀ between move, first ≤ between → between < time →
        history.moves[between]? = some move → ¬move.Rewinds id) →
      (history.during id first time).Pairwise (· < ·)) ∧
    ∀ first session, first < time →
      (history.table first).get? id = some session →
      history.moves[first]? = some (.resendFrom id session.eventAck) →
      (∀ between, first < between → between < time →
        history.moves[between]? ≠ some .publish) →
      history.moves[time]? = some .publish →
      history.messages id time =
        ((history.table time).pending id).map (Publisher.delivery id) := by
  have hcovers := history.covers time
  obtain ⟨streams, hfollows⟩ := hcovers.follows
  refine ⟨fun earlier message later hsplit => ?_, fun hmove session hget => ?_,
    fun first hle hkeeps => (advances hle hkeeps).rising,
    fun first session hlt hget hresend hwaits hmove => ?_⟩
  · cases hmove : history.moves[time]? with
    | none => simp [messages, hmove] at hsplit
    | some move =>
        rw [messages_of_move hmove] at hsplit
        exact hcovers.delivers_next hsplit
  · exact caught_up hmove hget
  · rw [messages_of_move hmove]
    exact (rewound hget hresend hlt hwaits).publish hfollows

end PublisherHistory

namespace Witness

/-- Two sessions are published to.  While the first one is sent its events
again, its acknowledgment moves on and it gets another event; then it is
forgotten. -/
def resending : PublisherHistory Tally where
  machine := .start
  moves := [.change (.register 1 7 100 0), .change (.publish 1 [11]),
    .change (.publish 1 [12]), .publish, .change (.register 2 8 100 0),
    .change (.acknowledge 1 1), .change (.publish 1 [13]),
    .change (.publish 2 [21]), .publish, .resendFrom 1 1,
    .change (.acknowledge 1 2), .change (.publish 1 [14]), .publish, .forget 1,
    .publish]
  fresh := by decide

/-- The first session at the time at which the publisher is moved back. -/
def halfRead : Session :=
  { Session.start 1 7 100 0 with
    eventSequence := 3, eventAck := 1, ackedVersion := 1,
    events := [⟨2, 2, [12]⟩, ⟨3, 3, [13]⟩] }

theorem publishes_in_sequence_resending :
    (resending.table 9).get? 1 = some halfRead ∧
      resending.moves[9]? = some (.resendFrom 1 halfRead.eventAck) ∧
      (∀ between, 9 < between → between < 12 →
        resending.moves[between]? ≠ some .publish) ∧
      resending.moves[12]? = some .publish ∧
      resending.messages 1 12 =
        ((resending.table 12).pending 1).map (Publisher.delivery 1) ∧
      (resending.during 1 0 9).Pairwise (· < ·) ∧
      resending.during 1 0 9 = [1, 2, 3] ∧
      resending.during 1 9 15 = [3, 4, 3, 4] ∧
      resending.during 2 0 15 = [1] := by
  have hget : (resending.table 9).get? 1 = some halfRead := by decide
  have hwaits : ∀ between, 9 < between → between < 12 →
      resending.moves[between]? ≠ some .publish := by
    intro between hfirst hlast
    obtain rfl | rfl : between = 10 ∨ between = 11 := by omega
    all_goals simp [resending]
  have hkeeps : ∀ between move, 0 ≤ between → between < 9 →
      resending.moves[between]? = some move → ¬move.Rewinds 1 := by
    intro between move _ hlast hmove
    have hmem : move ∈ resending.moves.take 9 := by
      rw [List.mem_iff_getElem?]
      exact ⟨between, by rw [List.getElem?_take_of_lt hlast, hmove]⟩
    simp only [resending, List.take, List.mem_cons, List.not_mem_nil,
      or_false] at hmem
    rintro (rfl | ⟨sequence, rfl⟩) <;> simp at hmem
  obtain ⟨-, -, -, hresent⟩ := resending.publishes_in_sequence 1 12
  obtain ⟨-, -, hrising, -⟩ := resending.publishes_in_sequence 1 9
  exact ⟨hget, rfl, hwaits, rfl,
    hresent 9 halfRead (by decide) hget rfl hwaits rfl,
    hrising 0 (Nat.zero_le 9) hkeeps, by decide, by decide, by decide⟩

end Witness

end SessionRaft
