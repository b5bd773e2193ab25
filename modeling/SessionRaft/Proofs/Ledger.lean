/-
Where the requests of clients are.  A request that a node has taken is answered,
waits for an entry, waits to be read, or is held until its predecessors have
arrived.  Acts move requests between these places; none is lost and none is
answered twice.
-/
import SessionRaft.Proofs.Acts

namespace SessionRaft

@[simp] theorem RequestKind.refusal_kind (kind : RequestKind)
    (error : ErrorKind) : (kind.refusal error).kind = kind := by
  cases kind <;> rfl

def PendingCommand.demands (command : PendingCommand) : List Demand :=
  command.tickets.map (fun ticket => ⟨ticket, .command⟩)

def PendingQuery.demand (query : PendingQuery) : Demand :=
  ⟨query.ticket, .query⟩

namespace Table

variable {α β : Type} (f : α → List β)

def gather (table : Table α) : List β := table.values.flatMap f

@[simp] theorem gather_empty : (empty : Table α).gather f = [] := rfl

theorem gather_eq (table : Table α) :
    table.gather f = table.rows.flatMap (fun row => f row.2) := by
  rw [gather, values, List.flatMap_map]

variable [DecidableEq β]

theorem flatMap_insertRow (key : Nat) (value : α) {rows : List (Nat × α)}
    (hrows : rows.Pairwise (fun left right => left.1 < right.1)) :
    ((insertRow key value rows).flatMap (fun row => f row.2) ++
      (findRow key rows).toList.flatMap f).Perm
      (rows.flatMap (fun row => f row.2) ++ f value) := by
  induction rows with
  | nil => simp [insertRow, findRow]
  | cons head tail ih =>
      rw [List.pairwise_cons] at hrows
      have hrest := ih hrows.2
      rw [List.perm_iff_count] at hrest ⊢
      intro item
      have hitem := hrest item
      by_cases hlt : key < head.1
      · have hnone : findRow key (head :: tail) = none := by
          apply findRow_eq_none_of_forall_lt
          rintro row (_ | ⟨_, hrow⟩)
          · exact hlt
          · exact Nat.lt_trans hlt (hrows.1 row hrow)
        simp only [hnone, insertRow, hlt, ↓reduceIte, List.flatMap_cons,
          Option.toList_none, List.flatMap_nil, List.count_append,
          List.count_nil]
        omega
      · by_cases heq : key = head.1 <;>
          simp only [insertRow, findRow, hlt, heq, Nat.lt_irrefl, ↓reduceIte,
            List.flatMap_cons, Option.toList_some, List.flatMap_nil,
            List.count_append, List.count_nil] at hitem ⊢ <;>
          omega

theorem flatMap_eraseRow (key : Nat) {rows : List (Nat × α)}
    (hrows : rows.Pairwise (fun left right => left.1 < right.1)) :
    ((rows.filter (fun row => row.1 != key)).flatMap (fun row => f row.2) ++
      (findRow key rows).toList.flatMap f).Perm
      (rows.flatMap (fun row => f row.2)) := by
  induction rows with
  | nil => simp [findRow]
  | cons head tail ih =>
      rw [List.pairwise_cons] at hrows
      have hrest := ih hrows.2
      rw [List.perm_iff_count] at hrest ⊢
      intro item
      have hitem := hrest item
      by_cases heq : key = head.1
      · have hnone : findRow head.1 tail = none :=
          findRow_eq_none_of_forall_lt hrows.1
        simp [heq, hnone, findRow] at hitem ⊢
        omega
      · have hne : head.1 ≠ key := Ne.symm heq
        simp [heq, hne, findRow] at hitem ⊢
        omega

/-- What is stored takes the place of what was there. -/
theorem gather_insert (table : Table α) (key : Nat) (value : α) :
    ((table.insert key value).gather f ++
      (table.get? key).toList.flatMap f).Perm (table.gather f ++ f value) := by
  rw [gather_eq, gather_eq]
  exact flatMap_insertRow f key value table.ascending

/-- What is dropped is missing. -/
theorem gather_erase (table : Table α) (key : Nat) :
    ((table.erase key).gather f ++
      (table.get? key).toList.flatMap f).Perm (table.gather f) := by
  rw [gather_eq, gather_eq]
  exact flatMap_eraseRow f key table.ascending

/-- A change that keeps what a value holds. -/
theorem gather_modify (table : Table α) (key : Nat) {g : α → α}
    (hg : ∀ value, f (g value) = f value) :
    ((table.modify key g).gather f).Perm (table.gather f) := by
  unfold modify
  split
  · rename_i value hget
    have hinsert := table.gather_insert f key (g value)
    rw [hget, hg, Option.toList_some, List.flatMap_singleton] at hinsert
    exact (List.perm_append_right_iff _).mp hinsert
  · exact .refl _

end Table

/-- The requests that have to go on after a submission. -/
def Submission.demands : Submission → List Demand
  | ready commands => commands.flatMap PendingCommand.demands
  | held => []
  | inFlight _ command => command.demands
  | stale command => command.demands

namespace Lane

def demands (lane : Lane) : List Demand :=
  lane.held.gather PendingCommand.demands

variable {lane after : Lane} {last final : Nat}
  {held rest : Table PendingCommand} {command : PendingCommand}
  {commands : List PendingCommand} {submission : Submission}

theorem demands_hold (lane : Lane) (sequence : Nat)
    (command : PendingCommand) :
    (lane.hold sequence command).demands.Perm
      (lane.demands ++ command.demands) := by
  unfold hold demands
  cases hheld : lane.held.get? sequence with
  | none =>
      have hinsert :=
        lane.held.gather_insert PendingCommand.demands sequence command
      rw [hheld] at hinsert
      simpa using hinsert
  | some held =>
      have hjoined : PendingCommand.demands
          { held with tickets := held.tickets ++ command.tickets } =
          held.demands ++ command.demands := List.map_append
      have hinsert := lane.held.gather_insert PendingCommand.demands sequence
        { held with tickets := held.tickets ++ command.tickets }
      rw [hheld, hjoined, Option.toList_some, List.flatMap_singleton]
        at hinsert
      rw [List.perm_iff_count] at hinsert ⊢
      intro demand
      have hcount := hinsert demand
      simp only [List.count_append] at hcount ⊢
      omega

/-- Behind the first command that has left, the next ones have. -/
theorem Released.tail (hreleased : Released last held final
    (command :: commands) rest) :
    Released (last + 1) (held.erase (last + 1)) final commands rest where
  final_eq := by
    have hfinal := hreleased.final_eq
    rw [List.length_cons] at hfinal
    omega
  commands_eq place later hlater := by
    have hheld := hreleased.commands_eq (place + 1) later
      (by rwa [List.getElem?_cons_succ])
    rw [Table.get?_erase, if_neg (by omega), ← hheld]
    congr 1
    omega
  rest_eq key := by
    have hfinal := hreleased.final_eq
    rw [List.length_cons] at hfinal
    rw [hreleased.rest_eq key, Table.get?_erase]
    by_cases hkey : key = last + 1
    · rw [if_pos (by omega), if_pos hkey, if_neg (by omega)]
    · rw [if_neg hkey]
      by_cases hle : last < key ∧ key ≤ final
      · rw [if_pos hle, if_pos (by omega)]
      · rw [if_neg hle, if_neg (by omega)]
  next_eq := hreleased.next_eq

/-- Of the held requests some have left, and the others stay. -/
theorem Released.demands (hreleased : Released last held final commands rest) :
    (rest.gather PendingCommand.demands ++
      commands.flatMap PendingCommand.demands).Perm
      (held.gather PendingCommand.demands) := by
  induction commands generalizing last held with
  | nil =>
      have hsame : rest = held := by
        refine Table.ext (fun key => ?_)
        have hfinal := hreleased.final_eq
        rw [List.length_nil] at hfinal
        rw [hreleased.rest_eq key, if_neg (by omega)]
      simp [hsame]
  | cons command commands ih =>
      have hfirst : held.get? (last + 1) = some command :=
        hreleased.commands_eq 0 command rfl
      have herase := held.gather_erase PendingCommand.demands (last + 1)
      have hrest := ih hreleased.tail
      rw [hfirst] at herase
      rw [List.perm_iff_count] at herase hrest ⊢
      intro demand
      have hcount := herase demand
      have hcountRest := hrest demand
      simp only [List.count_append, List.flatMap_cons, Option.toList_some,
        List.flatMap_nil, List.append_nil] at hcount hcountRest ⊢
      omega

/-- A submission takes a request to the held ones or lets it go on. -/
theorem Submitted.demands
    (hsubmitted : Submitted lane last command after submission) :
    (after.demands ++ submission.demands).Perm
      (lane.demands ++ command.demands) := by
  cases hsubmitted with
  | inFlight _ _ => exact .refl _
  | stale _ _ => exact .refl _
  | held _ =>
      rw [Submission.demands, List.append_nil]
      exact demands_hold { lane with sequenced := some last } _ command
  | ready _ hreleased =>
      have hrest := hreleased.demands
      rw [List.perm_iff_count] at hrest ⊢
      intro demand
      have hcount := hrest demand
      simp only [Lane.demands, Submission.demands, List.flatMap_cons,
        List.count_append] at hcount ⊢
      omega

end Lane

namespace Sequencer

def demands (sequencer : Sequencer) : List Demand :=
  sequencer.lanes.gather Lane.demands

theorem demands_eq (sequencer : Sequencer) :
    sequencer.demands = sequencer.drain.flatMap PendingCommand.demands := by
  rw [drain, List.flatMap_assoc]
  rfl

theorem lane_demands (sequencer : Sequencer) (session : SessionId) :
    (sequencer.lanes.get? session).toList.flatMap Lane.demands =
      (sequencer.lane session).demands := by
  unfold Sequencer.lane Table.getD
  cases sequencer.lanes.get? session with
  | none => rfl
  | some lane => exact List.flatMap_singleton _ _

theorem demands_setLane (sequencer : Sequencer) (session : SessionId)
    (lane : Lane) :
    ((sequencer.setLane session lane).demands ++
      (sequencer.lane session).demands).Perm
      (sequencer.demands ++ lane.demands) := by
  rw [← lane_demands]
  exact sequencer.lanes.gather_insert Lane.demands session lane

/-- A lane that holds the same requests makes no difference. -/
theorem demands_setLane_same (sequencer : Sequencer) {session : SessionId}
    {lane : Lane} (hlane : lane.demands = (sequencer.lane session).demands) :
    (sequencer.setLane session lane).demands.Perm sequencer.demands := by
  have hset := sequencer.demands_setLane session lane
  rw [← hlane] at hset
  exact (List.perm_append_right_iff _).mp hset

theorem demands_appended (sequencer : Sequencer) (session : SessionId)
    (sequence index : Nat) :
    (sequencer.appended session sequence index).demands.Perm
      sequencer.demands :=
  sequencer.demands_setLane_same rfl

theorem demands_seed (sequencer : Sequencer) (session : SessionId)
    (sequence index : Nat) :
    (sequencer.seed session sequence index).demands.Perm sequencer.demands :=
  (demands_appended _ session sequence index).trans
    (sequencer.demands_setLane_same rfl)

theorem demands_applied (sequencer : Sequencer) (session : SessionId)
    (sequence : Nat) :
    (sequencer.applied session sequence).demands.Perm sequencer.demands :=
  sequencer.lanes.gather_modify Lane.demands session (fun _ => rfl)

/-- What was held of a closed session is handed back. -/
theorem demands_forget (sequencer : Sequencer) (session : SessionId) :
    ((sequencer.forget session).1.demands ++
      (sequencer.forget session).2.flatMap PendingCommand.demands).Perm
      sequencer.demands := by
  have herase := sequencer.lanes.gather_erase Lane.demands session
  rw [lane_demands] at herase
  exact herase

theorem demands_submit {sequencer after : Sequencer} {applied : Nat}
    {command : PendingCommand} {submission : Submission}
    (hsubmit : sequencer.submit applied command = .ok (after, submission)) :
    (after.demands ++ submission.demands).Perm
      (sequencer.demands ++ command.demands) := by
  obtain ⟨⟨lane, _⟩, hlane, hset⟩ := exists_of_bind hsubmit
  obtain ⟨rfl, rfl⟩ := Prod.mk.inj (Except.ok.inj hset)
  have hsubmitted := (Lane.submitted_of_submit hlane).demands
  have hchanged := sequencer.demands_setLane command.request.session lane
  rw [List.perm_iff_count] at hsubmitted hchanged ⊢
  intro demand
  have hcount := hsubmitted demand
  have hlanes := hchanged demand
  simp only [List.count_append] at hcount hlanes ⊢
  omega

end Sequencer

namespace Node

section Places

variable {L σ : Type} {node before middle after : Node L σ}
  {demands more : List Demand}

def answered (node : Node L σ) : List Demand :=
  node.answers.map (fun given => ⟨given.1, given.2.kind⟩)

/-- The requests that wait for an entry to be applied. -/
def waiting (node : Node L σ) : List Demand :=
  node.waiters.gather (List.map Waiter.demand)

theorem waiting_eq (node : Node L σ) :
    node.waiting = node.waiters.values.flatten.map Waiter.demand := by
  rw [waiting, Table.gather, List.flatMap_def, List.map_flatten]

/-- The requests that wait to be read. -/
def asking (node : Node L σ) : List Demand :=
  node.queries.map PendingQuery.demand

/-- The commands that still wait for a predecessor. -/
def heldCommands (node : Node L σ) : List PendingCommand :=
  match node.leadership with
  | some leadership => leadership.sequencer.drain
  | none => []

def holding (node : Node L σ) : List Demand :=
  match node.leadership with
  | some leadership => leadership.sequencer.demands
  | none => []

/-- The requests that were taken and not answered. -/
def openDemands (node : Node L σ) : List Demand :=
  node.waiting ++ node.asking ++ node.holding

theorem openDemands_tickets (node : Node L σ) :
    node.openDemands.map Demand.ticket = node.openTickets := by
  have hwaiting : node.waiting.map Demand.ticket =
      node.waiters.values.flatten.map Waiter.ticket := by
    rw [waiting_eq, List.map_map]
    exact List.map_congr_left (fun waiter _ => waiter.demand_ticket)
  have hasking : node.asking.map Demand.ticket =
      node.queries.map PendingQuery.ticket := by
    rw [asking, List.map_map]
    rfl
  have hcommand : ∀ command : PendingCommand,
      command.demands.map Demand.ticket = command.tickets := by
    intro command
    rw [PendingCommand.demands, List.map_map]
    exact List.map_id _
  rw [openDemands, openTickets, List.map_append, List.map_append, hwaiting,
    hasking, holding]
  cases node.leadership with
  | none => rfl
  | some leadership =>
      simp only [Sequencer.demands_eq, List.map_flatMap, hcommand]

/-- Requests were taken.  Each of them, and each that was open before, is open
or was answered, and none is so twice. -/
def Balanced (before : Node L σ) (demands : List Demand)
    (after : Node L σ) : Prop :=
  (after.answered ++ after.openDemands).Perm
    (before.answered ++ before.openDemands ++ demands)

theorem balanced_iff : Balanced before demands after ↔ ∀ demand : Demand,
    after.answered.count demand + after.waiting.count demand +
        after.asking.count demand + after.holding.count demand =
      before.answered.count demand + before.waiting.count demand +
        before.asking.count demand + before.holding.count demand +
        demands.count demand := by
  simp only [Balanced, openDemands, List.perm_iff_count, List.count_append,
    Nat.add_assoc]

theorem Balanced.refl (node : Node L σ) : Balanced node [] node := by
  rw [Balanced, List.append_nil]

theorem Balanced.trans (hfirst : Balanced before demands middle)
    (hsecond : Balanced middle more after) :
    Balanced before (demands ++ more) after := by
  rw [Balanced, ← List.append_assoc]
  exact List.Perm.trans hsecond (hfirst.append_right more)

/-- What moves no request. -/
theorem Balanced.of_eq (hanswers : after.answers = before.answers)
    (hwaiters : after.waiters = before.waiters)
    (hqueries : after.queries = before.queries)
    (hholding : after.holding.Perm before.holding) :
    Balanced before [] after := by
  rw [balanced_iff]
  intro demand
  have hcount := hholding.count_eq demand
  simp only [answered, waiting, asking, hanswers, hwaiters, hqueries,
    List.count_nil]
  omega

end Places

section Moves

variable {L σ : Type} {node after : Node L σ}

/-- Whoever does not lead keeps nothing for leading. -/
theorem leadership_eq_none
    (hled : node.leadership.isSome = true → node.role = .leader)
    (hrole : node.role ≠ .leader) : node.leadership = none := by
  by_contra hsome
  exact hrole (hled (Option.isSome_iff_ne_none.mpr hsome))

theorem answered_answerAll (node : Node L σ) (tickets : List Ticket)
    (answer : Answer) : (node.answerAll tickets answer).answered =
      node.answered ++ tickets.map (fun ticket => ⟨ticket, answer.kind⟩) := by
  rw [answered, answerAll, List.map_append, List.map_map]
  rfl

theorem answered_failWaiters (node : Node L σ) (kind : ErrorKind) :
    (node.failWaiters kind).answered = node.answered ++ node.waiting := by
  rw [answered, failWaiters, List.map_append, List.map_map, waiting_eq]
  congr 1
  refine List.map_congr_left (fun waiter _ => ?_)
  cases waiter <;> rfl

/-- Some queries are answered, and the others go on waiting. -/
theorem balanced_partition {p : PendingQuery → Bool}
    (hanswered : after.answered = node.answered ++
      (node.queries.filter p).map PendingQuery.demand)
    (hqueries : after.queries =
      node.queries.filter (fun query => !p query))
    (hwaiters : after.waiters = node.waiters)
    (hleadership : after.leadership = node.leadership) :
    Balanced node [] after := by
  rw [balanced_iff]
  intro demand
  have hsplit := (List.filter_append_perm p node.queries).map
    PendingQuery.demand
  have hcount := hsplit.count_eq demand
  rw [List.map_append, List.count_append] at hcount
  simp only [hanswered, asking, waiting, holding, hqueries, hwaiters,
    hleadership, List.count_append, List.count_nil]
  omega

theorem balanced_failQueries (node : Node L σ) (fails : PendingQuery → Bool)
    (kind : ErrorKind) : Balanced node [] (node.failQueries fails kind) := by
  simp only [failQueries, List.partition_eq_filter_filter]
  refine balanced_partition (p := fails) ?_ rfl rfl rfl
  rw [answered_answerAll, List.map_map]
  rfl

theorem balanced_serveQueries [LogStore L] [StateMachine σ]
    (node : Node L σ) : Balanced node [] node.serveQueries := by
  simp only [serveQueries, List.partition_eq_filter_filter]
  refine balanced_partition (p := fun query => decide
    (query.readIndex ≤ node.lastApplied ∧
      query.round ≤ node.confirmedRound)) ?_ rfl rfl rfl
  rw [answered, List.map_append, List.map_map]
  rfl

theorem balanced_failWaiters (node : Node L σ) (kind : ErrorKind) :
    Balanced node [] (node.failWaiters kind) := by
  rw [balanced_iff]
  intro demand
  have hnone : (node.failWaiters kind).waiting = [] := rfl
  have hasking : (node.failWaiters kind).asking = node.asking := rfl
  have hholding : (node.failWaiters kind).holding = node.holding := rfl
  rw [answered_failWaiters, hnone, hasking, hholding]
  simp only [List.count_append, List.count_nil]
  omega

theorem balanced_answerAll (node : Node L σ) (tickets : List Ticket)
    (answer : Answer) :
    Balanced node (tickets.map (fun ticket => ⟨ticket, answer.kind⟩))
      (node.answerAll tickets answer) := by
  rw [balanced_iff]
  intro demand
  rw [answered_answerAll, List.count_append]
  simp only [waiting, asking, holding, answerAll]
  omega

theorem balanced_failCommands (node : Node L σ)
    (commands : List PendingCommand) (kind : ErrorKind) :
    Balanced node (commands.flatMap PendingCommand.demands)
      (node.failCommands commands kind) := by
  have hrefused := balanced_answerAll node
    (commands.flatMap PendingCommand.tickets) (.command (.error kind))
  rw [List.map_flatMap] at hrefused
  exact hrefused

/-- Commands that are no longer held are refused. -/
theorem balanced_dropCommands {changed : Option Leadership}
    {commands : List PendingCommand} {kind : ErrorKind}
    (hheld : (holding { node with leadership := changed } ++
      commands.flatMap PendingCommand.demands).Perm node.holding) :
    Balanced node []
      ({ node with leadership := changed }.failCommands commands kind) := by
  have hrefused := balanced_failCommands { node with leadership := changed }
    commands kind
  rw [balanced_iff] at hrefused ⊢
  intro demand
  have hcount := hheld.count_eq demand
  have htaken := hrefused demand
  simp only [List.count_append, List.count_nil] at hcount ⊢
  change _ = node.answered.count demand + node.waiting.count demand +
    node.asking.count demand + _ + _ at htaken
  omega

theorem balanced_dropLeadership (node : Node L σ) :
    Balanced node [] node.dropLeadership := by
  unfold dropLeadership
  cases hleadership : node.leadership with
  | none => exact .refl node
  | some leadership =>
      refine balanced_dropCommands ?_
      simp only [holding, hleadership, ← leadership.sequencer.demands_eq]
      exact .refl _

/-- Nothing waits for a node that has stopped. -/
theorem shutdown_dismisses (node : Node L σ) :
    node.shutdown.leadership = none ∧ node.shutdown.waiters = .empty ∧
      node.shutdown.queries = [] := by
  simp only [shutdown, failQueries, failWaiters, answerAll]
  refine ⟨?_, trivial, by simp⟩
  unfold dropLeadership
  cases hleadership : node.leadership with
  | none => exact hleadership
  | some leadership => rfl

/-- Everything that waits is refused when the node stops. -/
theorem balanced_shutdown (node : Node L σ) :
    Balanced node [] node.shutdown :=
  ((balanced_dropLeadership node).trans (balanced_failWaiters _ _)).trans
    (balanced_failQueries _ _ _)

theorem shutdown_openDemands (node : Node L σ) :
    node.shutdown.openDemands = [] := by
  obtain ⟨hleadership, hwaiters, hqueries⟩ := shutdown_dismisses node
  simp only [openDemands, waiting, asking, holding, hleadership, hwaiters,
    hqueries, Table.gather_empty, List.map_nil, List.append_nil]

theorem balanced_becomeFollower [LogStore L] (node : Node L σ) (term : Nat) :
    Balanced node [] (node.becomeFollower term) := by
  have hadopted : Balanced node []
      { node.adoptTerm term with role := .follower, votes := [] } := by
    unfold adoptTerm
    split <;> exact .of_eq rfl rfl rfl (.refl _)
  rw [becomeFollower_eq, stepDown]
  split
  · exact ((hadopted.trans (balanced_dropLeadership _)).trans
      (balanced_failWaiters _ _)).trans (balanced_failQueries _ _ _)
  · exact hadopted

theorem balanced_modifyLeadership (node : Node L σ)
    {f : Leadership → Leadership} (hf : ∀ leadership,
      (f leadership).sequencer.demands.Perm leadership.sequencer.demands) :
    Balanced node [] (node.modifyLeadership f) := by
  refine .of_eq rfl rfl rfl ?_
  simp only [modifyLeadership, holding]
  cases node.leadership with
  | none => exact .refl _
  | some leadership => exact hf leadership

theorem balanced_forgetCommands (node : Node L σ) (session : SessionId)
    (kind : ErrorKind) : Balanced node [] (node.forgetCommands session kind) := by
  unfold forgetCommands
  cases hleadership : node.leadership with
  | none => exact .refl node
  | some leadership =>
      refine balanced_dropCommands ?_
      simp only [holding, hleadership]
      exact leadership.sequencer.demands_forget session

theorem balanced_releaseSession (node : Node L σ) (session : SessionId) :
    Balanced node [] (node.releaseSession session) := by
  have hpublisher := balanced_modifyLeadership
    (node.forgetCommands session .unknownSession)
    (f := fun leadership => { leadership with
      publisher := leadership.publisher.forget session }) (fun _ => .refl _)
  exact ((balanced_forgetCommands node session .unknownSession).trans
    hpublisher).trans (balanced_failQueries _ _ _)

theorem balanced_releaseSessions (node : Node L σ)
    (sessions : List SessionId) :
    Balanced node [] (node.releaseSessions sessions) := by
  induction sessions generalizing node with
  | nil => exact .refl node
  | cons session sessions ih =>
      exact (balanced_releaseSession node session).trans (ih _)

theorem balanced_expireBefore (node : Node L σ) (operation : Operation) :
    Balanced node [] (node.expireBefore operation) := by
  unfold expireBefore
  split
  · rename_i timestamp _
    have hexpired : Balanced node []
        { node with executor := node.executor.expire timestamp } :=
      .of_eq rfl rfl rfl (.refl _)
    exact hexpired.trans (balanced_releaseSessions _ _)
  · exact .refl node

theorem balanced_settle (node : Node L σ) (operation : Operation)
    (applied : Applied) : Balanced node [] (node.settle operation applied) := by
  unfold settle
  split
  · exact balanced_modifyLeadership node (fun leadership =>
      leadership.sequencer.demands_applied _ _)
  · exact balanced_releaseSession node _
  · exact .refl node

/-- Whatever waits for an entry is given an answer of its kind. -/
theorem completion_kind (node : Node L σ) (applied : Applied)
    (waiter : Waiter) :
    (node.completion applied waiter).kind = waiter.demand.kind := by
  unfold completion
  cases waiter <;> cases applied <;> rfl

theorem balanced_complete (node : Node L σ) (index : Nat)
    (applied : Applied) : Balanced node [] (node.complete index applied) := by
  rw [balanced_iff]
  intro demand
  have herased := node.waiters.gather_erase (List.map Waiter.demand) index
  have hcount := herased.count_eq demand
  have hanswered : (node.complete index applied).answered = node.answered ++
      (node.waiters.get? index).toList.flatMap (List.map Waiter.demand) := by
    rw [answered, complete, List.map_append, List.map_map, Table.getD]
    congr 1
    cases node.waiters.get? index with
    | none => rfl
    | some waiters =>
        rw [Option.getD_some, Option.toList_some, List.flatMap_singleton]
        refine List.map_congr_left (fun waiter _ => ?_)
        simp only [Function.comp_apply, completion_kind,
          ← waiter.demand_ticket]
  rw [hanswered]
  simp only [List.count_append, List.count_nil] at hcount ⊢
  simp only [waiting, asking, holding, complete]
  omega

theorem balanced_await (node : Node L σ) (index : Nat)
    (waiters : List Waiter) :
    Balanced node (waiters.map Waiter.demand) (node.await index waiters) := by
  rw [balanced_iff]
  intro demand
  have hjoined := node.waiters.gather_insert (List.map Waiter.demand) index
    (node.waiters.getD index [] ++ waiters)
  have hcount := hjoined.count_eq demand
  have hold : (node.waiters.get? index).toList.flatMap
      (List.map Waiter.demand) =
      (node.waiters.getD index []).map Waiter.demand := by
    unfold Table.getD
    cases node.waiters.get? index with
    | none => rfl
    | some waiters => exact List.flatMap_singleton _ _
  rw [hold] at hcount
  simp only [List.map_append, List.count_append] at hcount
  simp only [waiting, asking, holding, await, answered]
  omega

theorem balanced_log (node : Node L σ) (log : L) :
    Balanced node [] { node with log := log } :=
  .of_eq rfl rfl rfl (.refl _)

theorem balanced_issued (node : Node L σ) (command : PendingCommand)
    (index : Nat) (log : L) :
    Balanced node command.demands (node.issued command index log) := by
  have hnoted := balanced_modifyLeadership { node with log := log }
    (f := fun leadership => { leadership with
      sequencer := leadership.sequencer.appended command.request.session
        command.request.sequence index })
    (fun leadership => leadership.sequencer.demands_appended _ _ _)
  have hawaits := ((balanced_log node log).trans hnoted).trans
    (balanced_await _ index (command.tickets.map Waiter.command))
  rw [List.map_map] at hawaits
  exact hawaits

end Moves

section Acting

open FaithfulLog

variable {L σ : Type} [LogStore L] {node before after : Node L σ}

theorem Appends.balanced {commands : List PendingCommand}
    (happends : Appends node commands after) :
    Balanced node (commands.flatMap PendingCommand.demands) after := by
  induction happends with
  | done => exact .refl _
  | issue _ _ ih => exact (balanced_issued _ _ _ _).trans ih
  | @lose node command commands _ log _ =>
      have hrefused := balanced_failCommands { node with log := log }
        (command :: commands) .internalError
      have hforgotten := ((balanced_log node log).trans hrefused).trans
        (balanced_forgetCommands _ command.request.session .internalError)
      rwa [List.append_nil] at hforgotten

/-- What does not stay with the sequencer is answered, or waits. -/
theorem balanced_admitted (node : Node L σ) (record : Session)
    (submission : Submission) :
    Balanced node submission.demands (node.admitted record submission) := by
  cases submission with
  | ready commands => exact (appends_appendReady node commands).balanced
  | held => exact .refl node
  | inFlight index command =>
      have hawaits := balanced_await node index
        (command.tickets.map Waiter.command)
      rw [List.map_map] at hawaits
      exact hawaits
  | stale command =>
      exact balanced_answerAll node command.tickets
        (.command (record.cachedResult command.request.sequence))

/-- A command that is taken is held, or what is due goes on. -/
theorem balanced_submit {leadership : Leadership} {sequencer : Sequencer}
    {applied : Nat} {command : PendingCommand} {submission : Submission}
    (hleadership : node.leadership = some leadership)
    (hsubmit : leadership.sequencer.submit applied command =
      .ok (sequencer, submission)) (record : Session) :
    Balanced node command.demands
      ((node.sequenced leadership sequencer).admitted record submission) := by
  have hsubmitted := Sequencer.demands_submit hsubmit
  have hadmitted := balanced_admitted (node.sequenced leadership sequencer)
    record submission
  rw [balanced_iff] at hadmitted ⊢
  intro demand
  have hcount := hsubmitted.count_eq demand
  have htaken := hadmitted demand
  simp only [List.count_append] at hcount
  change _ = node.answered.count demand + node.waiting.count demand +
    node.asking.count demand + sequencer.demands.count demand + _ at htaken
  simp only [holding, hleadership] at htaken ⊢
  omega

omit [LogStore L] in
theorem balanced_ask (node : Node L σ) (query : PendingQuery) :
    Balanced node [query.demand]
      { node with queries := node.queries ++ [query] } := by
  rw [balanced_iff]
  intro demand
  simp only [asking, waiting, answered, holding, List.map_append,
    List.map_singleton, List.count_append]
  omega

/-- The commands that an earlier leader left are held by nobody. -/
theorem demands_seedCommands (log : L) (sequencer : Sequencer)
    (indices : List Nat) :
    (seedCommands log sequencer indices).demands.Perm sequencer.demands := by
  induction indices generalizing sequencer with
  | nil => exact .refl _
  | cons index indices ih =>
      unfold seedCommands
      refine (ih _).trans ?_
      split
      · exact sequencer.demands_seed _ _ _
      · exact .refl _

variable [StateMachine σ]

omit [LogStore L] in
theorem balanced_applyEntry (node : Node L σ) (entry : LogEntry) :
    Balanced node [] (node.applyEntry entry) := by
  rw [applyEntry_eq]
  have hexecutor : ∀ executor, Balanced (node.expireBefore entry.operation) []
      { node.expireBefore entry.operation with executor := executor } :=
    fun _ => .of_eq rfl rfl rfl (.refl _)
  exact (((balanced_expireBefore node _).trans (hexecutor _)).trans
    (balanced_settle _ _ _)).trans (balanced_complete _ _ _)

theorem balanced_applyNext (node : Node L σ) (count : Nat) :
    Balanced node [] (node.applyNext count) := by
  refine applyNext_induction (Balanced node []) node count (.refl node)
    (fun before entry hbefore _ => ?_)
  have happlied : Balanced before []
      { before with lastApplied := before.lastApplied + 1 } :=
    .of_eq rfl rfl rfl (.refl _)
  exact hbefore.trans (happlied.trans (balanced_applyEntry _ _))

variable {input : Input} {entries : List LogEntry} {demands : List Demand}
  [FaithfulLog L]

/-- Acts keep account of the requests that they take. -/
theorem Act.balanced (hled : node.leadership.isSome = true →
      node.role = .leader) (hact : Act input node entries demands after) :
    Balanced node demands after := by
  cases hact with
  | follow term _ => exact balanced_becomeFollower node term
  | count member _ =>
      unfold countVote
      split <;> exact .of_eq rfl rfl rfl (.refl _)
  | lead hrole _ =>
      have hnone := leadership_eq_none hled (by simp [hrole])
      refine .of_eq rfl rfl rfl ?_
      simp only [holding, crowned, hnone]
      exact demands_seedCommands node.log .start node.unapplied
  | inaugurate _ _ =>
      exact (balanced_log node _).trans
        (balanced_modifyLeadership _ (fun _ => .refl _))
  | advance _ _ =>
      exact (Balanced.of_eq rfl rfl rfl (.refl _)).trans
        (balanced_applyNext _ _)
  | serve => exact balanced_serveQueries node
  | publish =>
      unfold publishEvents
      split
      · exact .refl node
      · rename_i hleadership
        refine .of_eq rfl rfl rfl ?_
        simp only [holding, send, hleadership]
        exact .refl _
  | round => exact balanced_modifyLeadership node (fun _ => .refl _)
  | heed _ _ _ hleadership _ =>
      refine .of_eq rfl rfl rfl ?_
      simp only [holding, hleadership, Leadership.heed]
      split <;> exact .refl _
  | @refuse demand error hinput _ =>
      have hrefused := balanced_answerAll node [demand.ticket]
        (demand.kind.refusal error)
      rw [hinput]
      rwa [List.map_singleton, RequestKind.refusal_kind] at hrefused
  | @retell ticket request record hinput _ _ =>
      rw [hinput]
      exact balanced_answerAll node [ticket]
        (.command (record.cachedResult request.sequence))
  | submit hinput _ _ _ hleadership hsubmit =>
      rw [hinput]
      exact balanced_submit hleadership hsubmit _
  | enter hasks _ _ _ =>
      rw [hasks.demands_eq]
      exact (balanced_log node _).trans (balanced_await _ _ [_])
  | ask hinput _ =>
      rw [hinput]
      exact balanced_ask node _
  | askFresh hinput _ _ =>
      rw [hinput]
      exact balanced_ask node _
  | acknowledge _ _ =>
      unfold acknowledgeEvents
      split
      · exact .refl node
      · split
        · exact .of_eq rfl rfl rfl (.refl _)
        · exact balanced_modifyLeadership node (fun _ => .refl _)
  | retire _ => exact balanced_shutdown node
  | _ => exact .of_eq rfl rfl rfl (.refl _)

end Acting

end Node

end SessionRaft
