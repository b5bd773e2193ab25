/-
The answers to the requests of clients.  A request that a node has taken is
answered once, or it is open: it waits for the entry that it asked for, to be
read, or for the predecessors of its command.  No request is lost when the node
ceases to lead or stops, and none is told of another request's entry.
-/
import SessionRaft.Proofs.Attendance

namespace SessionRaft

theorem Response.map_eq_error_iff {α β : Type} {f : α → β}
    {response : Response α} {kind : ErrorKind} :
    response.map f = .error kind ↔ response = .error kind := by
  cases response <;> simp [Response.map]

namespace SessionTable

/-- No kept outcome tells of a protocol error. -/
def Fair (table : SessionTable) : Prop :=
  ∀ id record, table.get? id = some record → ∀ sequence,
    record.cachedResult sequence ≠ .error .protocolError

variable {before after : SessionTable}

theorem Fair.keeps (hfair : before.Fair) (hkeeps : before.Keeps after) :
    after.Fair := by
  intro id record hget sequence
  obtain ⟨earlier, hearlier, hsame⟩ := hkeeps id record hget
  rw [Session.cachedResult, hsame.results]
  exact hfair id earlier hearlier sequence

end SessionTable

namespace Executor

variable {σ : Type} [StateMachine σ] {executor after : Executor σ}

theorem fair_run (executor : Executor σ) (commit : Commit) :
    (executor.run commit).2 ≠ .error .protocolError := by
  unfold run
  dsimp only
  split <;> simp

theorem fair_applyCommand (hfair : executor.sessions.Fair) (commit : Commit) :
    (executor.applyCommand commit).2 ≠ .error .protocolError := by
  unfold applyCommand
  split
  · simp
  · rename_i record hrecord
    split
    · exact hfair _ record hrecord _
    · exact fair_run executor commit

omit [StateMachine σ] in
theorem fair_keepAlive (executor : Executor σ) (session : SessionId)
    (upTo : Nat) (reported : Int) (timestamp : Nat) :
    (executor.keepAlive session upTo reported timestamp).2 ≠
      .error .protocolError := by
  unfold keepAlive
  split <;> simp

omit [StateMachine σ] in
theorem fair_unregister (executor : Executor σ) (session : SessionId) :
    (executor.unregister session).2 ≠ .error .protocolError := by
  unfold unregister
  split <;> simp

theorem fair_apply (hfair : executor.sessions.Fair) (entry : LogEntry) :
    (executor.apply entry).1.sessions.Fair := by
  unfold apply
  cases entry.operation with
  | noOp => exact hfair
  | register client timeout timestamp =>
      intro id record hget sequence
      simp only [SessionTable.get?_register] at hget
      split at hget
      · obtain rfl := Option.some.inj hget
        simp [Session.cachedResult, Session.start, Table.getD]
      · exact hfair id record hget sequence
  | keepAlive session upTo reported timestamp =>
      simp only [keepAlive]
      split
      · intro id record hget sequence
        rw [SessionTable.get?_update] at hget
        split at hget
        · obtain ⟨earlier, hearlier, rfl⟩ := Option.map_eq_some_iff.mp hget
          have hkept := hfair id earlier hearlier sequence
          rw [Session.cachedResult, (Session.keeps_acknowledge _ _).results,
            Session.releaseResults, Table.getD, Table.get?_above]
          split
          · exact hkept
          · simp
        · exact hfair id record hget sequence
      · exact hfair
  | unregister session timestamp =>
      simp only [unregister]
      split
      · exact hfair.keeps (executor.sessions.keeps_remove session)
      · exact hfair
  | command session sequence timestamp payload =>
      simp only [applyCommand]
      split
      · exact hfair
      · split
        · exact hfair
        · intro id record hget place
          obtain ⟨earlier, hearlier, hran⟩ := run_session _ _ hget
          have hkept := hfair id earlier hearlier place
          split at hran
          · rw [Session.cachedResult, hran.2, Table.getD, Table.get?_insert]
            split
            · exact fair_run executor _
            · exact hkept
          · rw [Session.cachedResult, hran.results]
            exact hkept

theorem fair_commit (hfair : executor.sessions.Fair) (entry : LogEntry) :
    (executor.lapse entry.operation).sessions.Fair ∧
      (executor.commit entry).1.sessions.Fair := by
  have hlapsed := hfair.keeps (executor.keeps_lapse entry.operation)
  exact ⟨hlapsed, fair_apply hlapsed entry⟩

theorem fair_query (executor : Executor σ) (query : Query) :
    executor.query query ≠ .error .protocolError := by
  unfold Executor.query
  split
  · split <;> simp
  · simp

end Executor

namespace Node

open FaithfulLog

variable {L σ : Type} [LogStore L] [FaithfulLog L] [StateMachine σ]
  {input : Input} {inputs : List Input} {node before middle after : Node L σ}
  {handed : List LogEntry} {demands : List Demand}

omit [LogStore L] [FaithfulLog L] in
/-- Whoever waits for what was asked for is not told of a mismatch. -/
theorem completion_fair {executor : Executor σ}
    (hfair : executor.sessions.Fair) {entry : LogEntry} {waiter : Waiter}
    (hasks : input.Asks waiter entry.operation) :
    ¬(node.completion (executor.apply entry).2 waiter).Mismatched := by
  obtain ⟨term, index, operation⟩ := entry
  cases hasks with
  | command timestamp payload =>
      exact fun hmismatched => Executor.fair_applyCommand hfair _
        (Answer.command.inj hmismatched)
  | register timeout timestamp =>
      intro hmismatched
      simpa using Answer.register.inj hmismatched
  | keepAlive timestamp =>
      exact fun hmismatched => Executor.fair_keepAlive _ _ _ _ _
        (Response.map_eq_error_iff.mp (Answer.keepAlive.inj hmismatched))
  | unregister timestamp =>
      exact fun hmismatched => Executor.fair_unregister _ _
        (Answer.unregister.inj hmismatched)

/-- Nobody is told of a mismatch, now or by a kept outcome. -/
structure Civil (node : Node L σ) : Prop where
  answers : ∀ given ∈ node.answers, ¬given.2.Mismatched
  outcomes : node.executor.sessions.Fair

omit [LogStore L] [FaithfulLog L] [StateMachine σ] in
theorem Civil.of_eq (hcivil : before.Civil)
    (hanswers : after.answers = before.answers)
    (hexecutor : after.executor = before.executor) : after.Civil := by
  constructor
  · rw [hanswers]
    exact hcivil.answers
  · rw [hexecutor]
    exact hcivil.outcomes

omit [LogStore L] [FaithfulLog L] [StateMachine σ] in
theorem Civil.releases (hcivil : before.Civil)
    (hreleases : Releases before after)
    (hexecutor : after.executor = before.executor) : after.Civil := by
  constructor
  · intro given hgiven
    rcases hreleases.answers given hgiven with hearlier | hfair
    · exact hcivil.answers given hearlier
    · exact hfair
  · rw [hexecutor]
    exact hcivil.outcomes

omit [LogStore L] [FaithfulLog L] [StateMachine σ] in
theorem Civil.answerAll (hcivil : node.Civil) (tickets : List Ticket)
    {answer : Answer} (hfair : ¬answer.Mismatched) :
    (node.answerAll tickets answer).Civil :=
  hcivil.releases (releases_answerAll node tickets hfair) rfl

omit [LogStore L] [FaithfulLog L] [StateMachine σ] in
theorem Civil.dropAll (hcivil : node.Civil) (fails : PendingQuery → Bool) :
    ((node.dropLeadership.failWaiters .noLeader).failQueries fails
      .noLeader).Civil := by
  have hleader : ErrorKind.noLeader ≠ .protocolError := by decide
  have hdropped : node.dropLeadership.Civil := by
    unfold dropLeadership
    split
    · exact hcivil
    · rename_i leadership _
      have hreleased := releases_failCommands { node with leadership := none }
        leadership.sequencer.drain hleader
      exact hcivil.releases ⟨hreleased.waiters, hreleased.answers⟩ rfl
  have hfailed : (node.dropLeadership.failWaiters .noLeader).Civil := by
    refine ⟨fun given hgiven => ?_, hdropped.outcomes⟩
    rcases List.mem_append.mp hgiven with hgiven | hgiven
    · exact hdropped.answers given hgiven
    · obtain ⟨waiter, -, rfl⟩ := List.mem_map.mp hgiven
      have hrefusal := waiter.demand.kind.fair_refusal hleader
      rwa [Waiter.refusal_demand] at hrefusal
  exact hfailed.releases (releases_failQueries _ fails hleader) rfl

omit [FaithfulLog L] [StateMachine σ] in
theorem Civil.becomeFollower (hcivil : node.Civil) (term : Nat) :
    (node.becomeFollower term).Civil := by
  have hadopted : Civil { node.adoptTerm term with
      role := .follower, votes := [] } := by
    unfold adoptTerm
    split <;> exact hcivil.of_eq rfl rfl
  rw [becomeFollower_eq, stepDown]
  split
  · exact hadopted.dropAll isFresh
  · exact hadopted

omit [StateMachine σ] in
theorem Appends.civil {commands : List PendingCommand}
    (happends : Appends node commands after) (hcivil : node.Civil) :
    after.Civil := by
  induction happends with
  | done => exact hcivil
  | @issue node after command commands index log _ _ ih =>
      have hissued : (node.issued command index log).Civil :=
        hcivil.of_eq rfl rfl
      exact ih hissued
  | @lose node command commands _ log _ =>
      have hlogged : Civil { node with log := log } := hcivil.of_eq rfl rfl
      have hquiet := quiet_lost { node with log := log } command commands
      exact hlogged.releases (releases_lost _ command commands)
        (congrArg Standing.executor hquiet.standing)

/-- Applying an entry tells everybody what they waited for, if it is what they
asked for. -/
theorem Civil.applyEntry (hcivil : node.Civil) {entry : LogEntry}
    (hasks : ∀ waiter ∈ node.waiters.getD entry.index [],
      ∃ input ∈ inputs, input.Asks waiter entry.operation) :
    (node.applyEntry entry).Civil := by
  have hexecutor : (node.expireBefore entry.operation).executor =
      node.executor.lapse entry.operation :=
    congrArg Standing.executor (lapsed_expireBefore node _).standing
  obtain ⟨hlapsed, hcommitted⟩ :=
    Executor.fair_commit hcivil.outcomes entry
  rw [← hexecutor] at hlapsed
  have hexpired := releases_expireBefore node entry.operation
  have hsettled := releases_settle { node.expireBefore entry.operation with
      executor := ((node.expireBefore entry.operation).executor.apply entry).1 }
    entry.operation ((node.expireBefore entry.operation).executor.apply entry).2
  constructor
  · rw [applyEntry_eq]
    intro given hgiven
    rcases List.mem_append.mp hgiven with hgiven | hgiven
    · rcases hsettled.answers given hgiven with hearlier | hfair
      · rcases hexpired.answers given hearlier with hearlier | hfair
        · exact hcivil.answers given hearlier
        · exact hfair
      · exact hfair
    · obtain ⟨waiter, hwaiter, rfl⟩ := List.mem_map.mp hgiven
      rw [hsettled.waiters] at hwaiter
      change waiter ∈ (node.expireBefore entry.operation).waiters.getD _ _
        at hwaiter
      rw [hexpired.waiters] at hwaiter
      obtain ⟨_, -, hasked⟩ := hasks waiter hwaiter
      exact completion_fair hlapsed hasked
  · rw [applyEntry_executor]
    exact hcommitted

theorem Civil.applyNext (hcivil : node.Civil) (hlog : Sound node.log)
    (hgrounded : node.Grounded inputs) (count : Nat) :
    (node.applyNext count).Civil := by
  refine (applyNext_induction (fun after => Sound after.log ∧
    after.Grounded inputs ∧ after.Civil) node count ⟨hlog, hgrounded, hcivil⟩
    (fun before entry hbefore hentry => ?_)).2.2
  obtain ⟨hsound, hplaced, hfair⟩ := hbefore
  rw [get?_succ hsound] at hentry
  have hindex := numbered hsound _ _ hentry
  have hsame : (Node.applyEntry
      { before with lastApplied := before.lastApplied + 1 } entry).log =
      before.log := (lapsed_applyEntry _ entry).log
  have happlies : Civil { before with
      lastApplied := before.lastApplied + 1 } := hfair.of_eq rfl rfl
  have hasks : ∀ waiter ∈ before.waiters.getD entry.index [],
      ∃ input ∈ inputs, input.Asks waiter entry.operation := by
    intro waiter hwaiter
    obtain ⟨-, found, hfound, hasked⟩ := hplaced entry.index waiter hwaiter
    rw [hindex, Nat.add_sub_cancel, hentry] at hfound
    exact Option.some.inj hfound ▸ hasked
  exact ⟨hsame.symm ▸ hsound, hplaced.applyEntry hindex,
    happlies.applyEntry hasks⟩

/-- Acts tell nobody of a mismatch. -/
theorem Act.civil (hlog : Sound node.log) (hgrounded : node.Grounded inputs)
    (hcivil : node.Civil) (hact : Act input node handed demands after) :
    after.Civil := by
  cases hact with
  | follow term _ => exact hcivil.becomeFollower term
  | count member _ =>
      unfold countVote
      split <;> exact hcivil.of_eq rfl rfl
  | @advance target _ _ =>
      have hcommitted : Civil { node with commitIndex := target } :=
        hcivil.of_eq rfl rfl
      have hplaced : Grounded inputs { node with commitIndex := target } :=
        hgrounded
      exact hcommitted.applyNext hlog hplaced _
  | serve =>
      refine ⟨fun given hgiven => ?_, hcivil.outcomes⟩
      rcases List.mem_append.mp hgiven with hgiven | hgiven
      · exact hcivil.answers given hgiven
      · obtain ⟨query, -, rfl⟩ := List.mem_map.mp hgiven
        exact fun hmismatched =>
          Executor.fair_query _ _ (Answer.query.inj hmismatched)
  | publish =>
      refine hcivil.of_eq ?_ (publishEvents_executor node)
      unfold publishEvents
      split <;> rfl
  | refuse _ herror =>
      exact hcivil.answerAll [_] (RequestKind.fair_refusal _ herror)
  | retell _ hrecord _ =>
      exact hcivil.answerAll [_] (fun hmismatched =>
        hcivil.outcomes _ _ hrecord _ (Answer.command.inj hmismatched))
  | @submit _ request record leadership sequencer submission _ _ hrecord _ _ _ =>
      have hsequenced : Civil (node.sequenced leadership sequencer) :=
        hcivil.of_eq rfl rfl
      cases submission with
      | ready commands => exact (appends_appendReady _ commands).civil hsequenced
      | held => exact hsequenced
      | inFlight index command => exact hsequenced.of_eq rfl rfl
      | stale command =>
          exact hsequenced.answerAll command.tickets (fun hmismatched =>
            hcivil.outcomes _ _ hrecord _ (Answer.command.inj hmismatched))
  | @acknowledge session sequence _ _ =>
      unfold acknowledgeEvents
      split
      · exact hcivil
      · split
        · have hkeeps := node.executor.sessions.keeps_update session
            (fun record => record.keeps_acknowledge sequence)
          exact ⟨hcivil.answers, hcivil.outcomes.keeps hkeeps⟩
        · exact hcivil.of_eq rfl rfl
  | retire _ => exact hcivil.dropAll (fun _ => true)
  | _ => exact hcivil.of_eq rfl rfl

omit [StateMachine σ] in
/-- A held command is found where the lane of its session keeps it. -/
theorem lane_of_held (hfounded : node.desk.Founded)
    {command : PendingCommand} (hcommand : command ∈ node.heldCommands) :
    ∃ lanes, node.desk.lanes = some lanes ∧
      (lanes command.request.session).held.get? command.request.sequence =
        some command := by
  unfold heldCommands at hcommand
  split at hcommand
  · rename_i leadership hleadership
    obtain ⟨lane, hlane, hheld⟩ := List.mem_flatMap.mp hcommand
    obtain ⟨session, hsession⟩ := Table.mem_values_iff.mp hlane
    obtain ⟨sequence, hsequence⟩ := Table.mem_values_iff.mp hheld
    have hfound : leadership.sequencer.lane session = lane := by
      rw [Sequencer.lane, Table.getD, hsession, Option.getD_some]
    have hlanes := desk_lanes hleadership
    rw [← hfound] at hsequence
    obtain ⟨hsession, hplace, -⟩ :=
      hfounded.kept _ hlanes session sequence command hsequence
    refine ⟨_, hlanes, ?_⟩
    rw [hsession, hplace, hsequence]
  · simp at hcommand

omit [StateMachine σ] in
/-- What is held is held for an open session, and for those who asked. -/
theorem Attends.held (hattends : node.Attends input inputs)
    {command : PendingCommand} (hcommand : command ∈ node.heldCommands) :
    node.executor.sessions.contains command.request.session = true ∧
      ∀ ticket ∈ command.tickets, Commanded inputs command.request.session
        command.request.sequence ticket := by
  obtain ⟨lanes, hlanes, hheld⟩ := lane_of_held hattends.founded hcommand
  constructor
  · have hopen := (hattends.tracked lanes hlanes command.request.session).held
      command.request.sequence (by simp [hheld])
    simp only [desk, SessionTable.marks, Option.isSome_map] at hopen
    exact hopen
  · exact fun ticket hticket =>
      hattends.holds _ _ ticket ⟨lanes, command, hlanes, hheld, hticket⟩

omit [StateMachine σ] in
/-- Whoever waits stands at an entry that was not applied. -/
theorem Attends.waits (hattends : node.Attends input inputs) {index : Nat}
    {waiter : Waiter} (hwaiter : waiter ∈ node.waiters.getD index []) :
    node.lastApplied < index ∧ index ≤ LogStore.lastIndex node.log ∧
      ∃ entry, LogStore.get? node.log index = some entry ∧
        ∃ input ∈ inputs, input.Asks waiter entry.operation := by
  obtain ⟨hlt, entry, hentry, hasks⟩ :=
    hattends.grounded index waiter hwaiter
  obtain ⟨hplace, -⟩ := List.getElem?_eq_some_iff.mp hentry
  obtain ⟨index, rfl⟩ : ∃ earlier, index = earlier + 1 :=
    ⟨index - 1, by omega⟩
  refine ⟨hlt, ?_, entry, ?_, hasks⟩
  · rw [lastIndex_eq_length hattends.sound]
    omega
  · rwa [get?_succ hattends.sound]

omit [StateMachine σ] in
/-- A node that keeps nothing for leading has nobody waiting but those whom any
node can answer. -/
theorem Attends.dismissed (hattends : node.Attends input inputs)
    (hnone : node.leadership = none) :
    node.waiters = .empty ∧ node.heldCommands = [] ∧
      ∀ query ∈ node.queries,
        query.request.consistency = .sequential := by
  obtain ⟨hempty, hstale⟩ := hattends.dismisses hnone
  refine ⟨hempty, by simp [heldCommands, hnone], fun query hquery => ?_⟩
  have hfresh := hstale query hquery
  unfold isFresh at hfresh
  cases hconsistency : query.request.consistency with
  | sequential => rfl
  | linearizable => simp [hconsistency] at hfresh

theorem Acts.civil (hinput : input ∈ inputs)
    (hattends : before.Attends input inputs) (hcivil : before.Civil)
    (hacts : Acts input before handed demands after) : after.Civil := by
  induction hacts with
  | refl => exact hcivil
  | tail hacts hact ih =>
      have hmiddle := hacts.attends hinput hattends
      exact hact.civil hmiddle.sound hmiddle.grounded ih

omit [StateMachine σ] in
theorem Attends.mono {more : List Input} (hsubset : inputs ⊆ more)
    (hattends : node.Attends input inputs) : node.Attends input more := by
  refine { hattends with grounded := ?_, holds := ?_ }
  · intro index waiter hwaiter
    obtain ⟨hlt, entry, hentry, asked, hasked, hasks⟩ :=
      hattends.grounded index waiter hwaiter
    exact ⟨hlt, entry, hentry, asked, hsubset hasked, hasks⟩
  · intro session sequence ticket hholds
    obtain ⟨request, hrequest, hcommand⟩ := hattends.holds _ _ _ hholds
    exact ⟨request, hsubset hrequest, hcommand⟩

omit [StateMachine σ] in
/-- Until a node is told to stop it is ready for every input. -/
theorem Attends.next {next : Input}
    (hnext : input = .shutdown → next = .shutdown)
    (hattends : node.Attends input inputs) : node.Attends next inputs :=
  { hattends with
    presides := ⟨hattends.presides.leads, fun hne =>
      hattends.presides.keeps (fun heq => hne (hnext heq))⟩ }

omit [StateMachine σ] in
theorem Attends.take (hattends : node.Attends input inputs) :
    node.take.2.2.Attends input inputs where
  sound := hattends.sound
  abreast := ⟨hattends.abreast.applied, hattends.abreast.committed⟩
  founded := ⟨hattends.founded.numbered, hattends.founded.applied_le,
    hattends.founded.opened, hattends.founded.kept⟩
  tracked := hattends.tracked
  presides := hattends.presides.of_eq rfl rfl
  dismisses := hattends.dismisses
  grounded := hattends.grounded
  holds := hattends.holds

omit [StateMachine σ] in
theorem Attends.refit {log : L} (hlog : Sound log)
    (hmemory : memory log = memory node.log)
    (hattends : node.Attends input inputs) :
    ({ node with log := log } : Node L σ).Attends input inputs := by
  have hentries : entries log = entries node.log :=
    congrArg MemoryLog.entries hmemory
  have hdesk : Node.desk { node with log := log } = node.desk :=
    (refit_same hmemory).2
  refine ⟨hlog, ⟨hattends.abreast.applied, ?_⟩, ?_, ?_,
    hattends.presides.of_eq rfl rfl, hattends.dismisses, ?_, ?_⟩
  · rw [hentries]
    exact hattends.abreast.committed
  · rw [hdesk]
    exact hattends.founded
  · rw [hdesk]
    exact hattends.tracked
  · exact hattends.grounded.of_eq rfl rfl (hentries ▸ List.prefix_rfl)
  · rw [hdesk]
    exact hattends.holds

omit [StateMachine σ] in
/-- Nobody has asked anything of a node that begins. -/
theorem start_idle {id : NodeId} {members : List NodeId} {config : Config}
    {log : L} {machine : σ} {fresh : Node L σ} (hlog : Sound log)
    (hstart : Node.start id members config log machine = .ok fresh) :
    fresh.role = .follower ∧ fresh.leadership = none ∧
      fresh.waiters = .empty ∧ fresh.queries = [] ∧ fresh.answers = [] := by
  unfold Node.start at hstart
  split at hstart
  · simp at hstart
  · rw [loadVote_eq hlog] at hstart
    obtain rfl := Except.ok.inj hstart
    exact ⟨rfl, rfl, rfl, rfl, rfl⟩

end Node

namespace Life

variable {L σ : Type} [LogStore L] [StateMachine σ]

/-- The input that a node takes at a time, and the node from which nothing was
taken yet. -/
def taken? (life : Life L σ) (time : Nat) : Option (Input × Node L σ) :=
  match life.incidents[time]? with
  | some (.input input) =>
      match (life.node time).step input with
      | .ok (_, after) => some (input, after)
      | .error _ => none
  | _ => none

/-- The inputs that were taken before a time. -/
def inputs (life : Life L σ) (time : Nat) : List Input :=
  (List.range time).flatMap (fun earlier =>
    (life.taken? earlier).toList.map Prod.fst)

/-- The answers that were given before a time. -/
def told (life : Life L σ) (time : Nat) : List (Ticket × Answer) :=
  (List.range time).flatMap (fun earlier =>
    (life.taken? earlier).toList.flatMap (fun taken => taken.2.answers))

/-- The requests that were taken before a time. -/
def demands (life : Life L σ) (time : Nat) : List Demand :=
  (life.inputs time).flatMap Input.demands

def answered (life : Life L σ) (time : Nat) : List Demand :=
  (life.told time).map (fun given => ⟨given.1, given.2.kind⟩)

/-- Nothing happens once the node was told to stop. -/
def Closes (life : Life L σ) : Prop :=
  ∀ time : Nat, life.incidents[time]? = some (.input .shutdown) →
    life.incidents.length = time + 1

variable {life : Life L σ} {time : Nat}

theorem Takes.inputs_succ {input : Input} {output : Output} {after : Node L σ}
    (htakes : life.Takes time input output after) :
    life.inputs (time + 1) = life.inputs time ++ [input] ∧
      life.told (time + 1) = life.told time ++ after.answers := by
  have htaken : life.taken? time = some (input, after) := by
    simp only [taken?, htakes.1, htakes.2]
  simp [inputs, told, List.range_succ, htaken]

theorem inputs_succ_of_idle
    (hidle : ∀ input output after, ¬life.Takes time input output after) :
    life.inputs (time + 1) = life.inputs time ∧
      life.told (time + 1) = life.told time := by
  have htaken : life.taken? time = none := by
    unfold taken?
    split
    · rename_i input hincident
      split
      · rename_i output after hstep
        exact absurd ⟨hincident, hstep⟩ (hidle input output after)
      · rfl
    · rfl
  simp [inputs, told, List.range_succ, htaken]

/-- A node always takes it that it is told to stop. -/
theorem shutdown_mem_inputs {earlier : Nat}
    (hincident : life.incidents[earlier]? = some (.input .shutdown))
    (hlt : earlier < time) : .shutdown ∈ life.inputs time := by
  refine List.mem_flatMap.mpr ⟨earlier, List.mem_range.mpr hlt, ?_⟩
  have htaken : life.taken? earlier =
      some (.shutdown, (life.node earlier).shutdown) := by
    simp only [taken?, hincident]
    rfl
  simp [htaken]

/-- Whatever was taken was an incident. -/
theorem exists_of_mem_inputs {input : Input}
    (hinput : input ∈ life.inputs time) :
    ∃ earlier < time, life.incidents[earlier]? = some (.input input) := by
  obtain ⟨earlier, hearlier, hmem⟩ := List.mem_flatMap.mp hinput
  obtain ⟨⟨_, after⟩, htaken, rfl⟩ := List.mem_map.mp hmem
  refine ⟨earlier, List.mem_range.mp hearlier, ?_⟩
  unfold taken? at htaken
  split at htaken
  · rename_i hincident
    split at htaken
    · simp only [Option.toList_some, List.mem_singleton, Prod.mk.injEq]
        at htaken
      rw [hincident, htaken.1]
    · simp at htaken
  · simp at htaken

variable [FaithfulLog L]

/-- At a time every request is accounted for. -/
structure Accounts (life : Life L σ) (time : Nat) : Prop where
  attends : ∀ input, (.shutdown ∈ life.inputs time → input = .shutdown) →
    (life.node time).Attends input (life.inputs time)
  civil : (life.node time).Civil
  quiet : (life.node time).answers = []
  fair : ∀ given ∈ life.told time, ¬given.2.Mismatched
  balanced : (life.answered time ++ (life.node time).openDemands).Perm
    (life.demands time)
  stopped : .shutdown ∈ life.inputs time →
    (life.node time).openDemands = []

theorem Valid.accounts_start (hvalid : life.Valid) : life.Accounts 0 := by
  obtain ⟨machine, hmachine, -⟩ := hvalid.start_executor
  have hproper := hvalid.proper 0
  obtain ⟨_, _, _, _, _, hlog, hstart⟩ := hvalid.begins
  obtain ⟨hrole, hleadership, hwaiters, hqueries, hanswers⟩ :=
    Node.start_idle hlog hstart
  have hlanes : life.start.desk.lanes = none := by
    simp [Node.desk, hleadership]
  refine ⟨fun input _ => ?_, ⟨?_, ?_⟩, hanswers, ?_, ?_, ?_⟩
  · refine ⟨hproper.sound, hvalid.abreast_start.1, hproper.founded, ?_,
      .of_none hleadership (Or.inl (by simp [Life.node, hrole])), ?_,
      .of_empty hwaiters, ?_⟩
    · intro lanes hsome
      exact absurd (hlanes.symm.trans hsome) (by simp)
    · intro _
      refine ⟨hwaiters, fun query hquery => ?_⟩
      exact absurd hquery (by simp [Life.node, hqueries])
    · rintro session sequence ticket ⟨lanes, command, hsome, -⟩
      exact absurd (hlanes.symm.trans hsome) (by simp)
  · intro given hgiven
    exact absurd hgiven (by simp [Life.node, hanswers])
  · intro id record hrecord
    exact absurd hrecord (by simp [Life.node, hmachine, Executor.get?_start])
  · intro given hgiven
    exact absurd hgiven (by simp [told])
  · -- Nothing was taken, and nothing is open.
    have hopen : life.start.openDemands = [] := by
      simp [Node.openDemands, Node.waiting, Node.asking, Node.holding,
        hwaiters, hqueries, hleadership]
    change (life.answered 0 ++ life.start.openDemands).Perm _
    rw [hopen]
    exact .nil
  · intro hshutdown
    exact absurd hshutdown (by simp [inputs])

omit [FaithfulLog L] in
theorem Closes.shutdown_notMem (hcloses : life.Closes) {input : Input}
    (hincident : life.incidents[time]? = some (.input input)) :
    .shutdown ∉ life.inputs time := by
  intro hshutdown
  obtain ⟨earlier, hlt, hstops⟩ := exists_of_mem_inputs hshutdown
  have hlength := hcloses earlier hstops
  obtain ⟨hplace, -⟩ := List.getElem?_eq_some_iff.mp hincident
  omega

/-- What a step answers and leaves open is what was open before and what it
takes. -/
theorem Accounts.balanced_succ (haccounts : life.Accounts time) {input : Input}
    {output : Output} {after : Node L σ}
    (htakes : life.Takes time input output after)
    (hbalanced : (life.node time).Balanced input.demands after) :
    (life.answered (time + 1) ++ (life.node (time + 1)).openDemands).Perm
      (life.demands (time + 1)) := by
  obtain ⟨hinputs, htold⟩ := htakes.inputs_succ
  have hquiet : (life.node time).answered = [] := by
    rw [Node.answered, haccounts.quiet, List.map_nil]
  have hanswered : life.answered (time + 1) =
      life.answered time ++ after.answered := by
    rw [answered, htold, List.map_append]
    rfl
  have hdemands : life.demands (time + 1) =
      life.demands time ++ input.demands := by
    simp [demands, hinputs]
  rw [Node.Balanced, hquiet, List.nil_append] at hbalanced
  have hlater := hbalanced.append_left (life.answered time)
  rw [← List.append_assoc, ← List.append_assoc] at hlater
  rw [htakes.node_succ, hanswered, hdemands]
  exact hlater.trans (haccounts.balanced.append_right input.demands)

/-- Every request is accounted for once an input was taken. -/
theorem Accounts.taken (hcloses : life.Closes) (haccounts : life.Accounts time)
    {input : Input} {output : Output} {after : Node L σ}
    (htakes : life.Takes time input output after) :
    life.Accounts (time + 1) := by
  obtain ⟨hinputs, htold⟩ := htakes.inputs_succ
  have hopen := hcloses.shutdown_notMem htakes.1
  have hbefore : (life.node time).Attends input
      (life.inputs time ++ [input]) :=
    (haccounts.attends input (fun hstopped => absurd hstopped hopen)).mono
      (List.subset_append_left _ _)
  have hinput : input ∈ life.inputs time ++ [input] :=
    List.mem_append_right _ (List.mem_singleton_self input)
  obtain ⟨handed, hacts⟩ := Node.step_actsTo htakes.2 hbefore.sound
  have hafter := hacts.attends hinput hbefore
  have hcivil := hacts.civil hinput hbefore haccounts.civil
  have hbalanced := (hacts.balanced hbefore.presides).1
  refine ⟨?_, ?_, ?_, ?_, ?_, ?_⟩
  · intro next hstops
    rw [hinputs] at hstops ⊢
    rw [htakes.node_succ]
    refine (hafter.next (fun heq => hstops ?_)).take
    exact heq ▸ hinput
  · rw [htakes.node_succ]
    exact ⟨fun given hgiven => absurd hgiven (by simp [Node.take]),
      hcivil.outcomes⟩
  · rw [htakes.node_succ]
    rfl
  · intro given hgiven
    rw [htold, List.mem_append] at hgiven
    rcases hgiven with hearlier | hgiven
    · exact haccounts.fair given hearlier
    · exact hcivil.answers given hgiven
  · exact haccounts.balanced_succ htakes hbalanced
  · intro hstopped
    rw [hinputs, List.mem_append, List.mem_singleton] at hstopped
    obtain rfl := hstopped.resolve_left hopen
    rw [htakes.node_succ]
    obtain ⟨-, rfl⟩ := Prod.mk.inj (Except.ok.inj htakes.2)
    exact Node.shutdown_openDemands _

/-- Nothing is to be accounted for where nothing was taken. -/
theorem Accounts.idle (haccounts : life.Accounts time)
    (hidle : ∀ input output after, ¬life.Takes time input output after)
    {log : L} (hlog : FaithfulLog.Sound log)
    (hmemory : FaithfulLog.memory log =
      FaithfulLog.memory (life.node time).log)
    (hnext : life.node (time + 1) = { life.node time with log := log }) :
    life.Accounts (time + 1) := by
  obtain ⟨hinputs, htold⟩ := inputs_succ_of_idle hidle
  refine ⟨?_, ?_, ?_, ?_, ?_, ?_⟩
  · rw [hinputs, hnext]
    exact fun input hstops =>
      (haccounts.attends input hstops).refit hlog hmemory
  · rw [hnext]
    exact haccounts.civil.of_eq rfl rfl
  · rw [hnext]
    exact haccounts.quiet
  · rw [htold]
    exact haccounts.fair
  · rw [answered, demands, hinputs, htold, hnext]
    exact haccounts.balanced
  · rw [hinputs, hnext]
    exact haccounts.stopped

theorem Valid.accounts (hvalid : life.Valid) (hunbroken : life.Unbroken)
    (hcloses : life.Closes) (time : Nat) : life.Accounts time := by
  induction time with
  | zero => exact hvalid.accounts_start
  | succ time ih =>
      rcases hunbroken.next hvalid time with
        ⟨input, output, after, htakes⟩ | ⟨hidle, log, hlog, hmemory, hnext⟩
      · exact ih.taken hcloses htakes
      · exact ih.idle hidle hlog hmemory hnext

/-- No request is lost and none gets the answer of another.  At all times a node
that does not lead has neither waiters nor held commands nor queries that have
to be fresh; whoever waits, waits at an entry of the log that was not applied
and is what was asked for, so that nobody is told of a mismatch; commands are
held for open sessions; and the requests that were taken are those that were
answered and those that are open, each as often as it was taken.  After the stop
nothing is open. -/
theorem replies_accounted (hvalid : life.Valid) (hunbroken : life.Unbroken)
    (hcloses : life.Closes) (time : Nat) :
    ((life.node time).role ≠ .leader →
        (life.node time).waiters = .empty ∧
          (life.node time).heldCommands = [] ∧
          ∀ query ∈ (life.node time).queries,
            query.request.consistency = .sequential) ∧
      (∀ index waiter,
        waiter ∈ (life.node time).waiters.getD index [] →
          (life.node time).lastApplied < index ∧
            index ≤ LogStore.lastIndex (life.node time).log ∧
            ∃ entry, LogStore.get? (life.node time).log index = some entry ∧
              ∃ input ∈ life.inputs time,
                input.Asks waiter entry.operation) ∧
      (∀ given ∈ life.told time,
        given.2 ≠ given.2.kind.refusal .protocolError) ∧
      (∀ command ∈ (life.node time).heldCommands,
        (life.node time).executor.sessions.contains
            command.request.session = true ∧
          ∀ ticket ∈ command.tickets, Commanded (life.inputs time)
            command.request.session command.request.sequence ticket) ∧
      (life.answered time ++ (life.node time).openDemands).Perm
        (life.demands time) ∧
      (∀ earlier < time, life.incidents[earlier]? = some (.input .shutdown) →
        (life.node time).openTickets = []) := by
  obtain ⟨hready, -, -, hfair, hbalanced, hstopped⟩ :=
    hvalid.accounts hunbroken hcloses time
  have hattends : (life.node time).Attends .shutdown (life.inputs time) :=
    hready .shutdown (fun _ => rfl)
  refine ⟨fun hrole => ?_, fun index waiter => hattends.waits, hfair,
    fun command => hattends.held, hbalanced, fun earlier hlt hincident => ?_⟩
  · have hleads := hattends.presides.leads
    exact hattends.dismissed (Node.leadership_eq_none hleads hrole)
  · have hshutdown := shutdown_mem_inputs hincident hlt
    rw [← Node.openDemands_tickets, hstopped hshutdown, List.map_nil]

end Life

namespace Witness

/-- A leader that is told to stop while one command waits for its entry, another
for its predecessor, and a query for what its client has seen. -/
def attended : Life MemoryLog Tally where
  start := member .empty .start 1
  incidents := [
    .input .electionTimeout,
    .input (.voteResponse 2 (.ok ⟨1, true⟩)),
    .input (.register 1 ⟨7, 0⟩),
    .input (.appendResponse 2 (.ok ⟨1, true, 2, 2⟩)),
    .input (.command 2 ⟨2, 1, [2, 9]⟩),
    .input (.command 3 ⟨2, 3, [2, 8]⟩),
    .input (.query 4 ⟨2, 3, .linearizable, []⟩),
    .input .shutdown]

theorem attended_valid : attended.Valid where
  begins := ⟨1, [1, 2, 3], {}, .empty, .start, numbered_nil, rfl⟩
  possible := Life.possible_of_inputs (by simp [attended])

theorem attended_unbroken : attended.Unbroken := by
  intro config log machine
  simp [attended]

theorem attended_closes : attended.Closes := by
  intro time hincident
  obtain ⟨hlt, -⟩ := List.getElem?_eq_some_iff.mp hincident
  have hlt : time < 8 := hlt
  interval_cases time <;> simp [attended] at hincident ⊢

/-- Three requests are open before the stop, each in a place of its own, and the
stop answers them. -/
theorem replies_accounted_attended : attended.Valid ∧ attended.Unbroken ∧
    attended.Closes ∧
    (attended.node 7).openDemands =
      [⟨2, .command⟩, ⟨4, .query⟩, ⟨3, .command⟩] ∧
    (attended.answered 7 ++ (attended.node 7).openDemands).Perm
      (attended.demands 7) ∧
    (attended.node 8).openTickets = [] := by
  obtain ⟨-, -, -, -, hbalanced, -⟩ :=
    Life.replies_accounted attended_valid attended_unbroken attended_closes 7
  obtain ⟨-, -, -, -, -, hstopped⟩ :=
    Life.replies_accounted attended_valid attended_unbroken attended_closes 8
  exact ⟨attended_valid, attended_unbroken, attended_closes,
    by decide +kernel, hbalanced, hstopped 7 (by decide) rfl⟩

end Witness

end SessionRaft
