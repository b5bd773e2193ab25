/-
The standing of a node, and what leaves it alone: everything that concerns
only clients.
-/
import SessionRaft.Proofs.Standing

namespace SessionRaft

theorem servedOf_append (first second : List (Ticket × Answer)) :
    servedOf (first ++ second) = servedOf first ++ servedOf second :=
  List.filterMap_append

theorem servedOf_eq_nil {answers : List (Ticket × Answer)}
    (hanswers : ∀ answer ∈ answers, ∀ output, answer.2 ≠ .query (.ok output)) :
    servedOf answers = [] := by
  rw [servedOf, List.filterMap_eq_nil_iff]
  intro answer hanswer
  have hnot := hanswers answer hanswer
  split
  · rename_i output heq
    exact absurd heq (hnot output)
  · rfl

namespace Publisher

theorem sendPast_isMail (session : SessionId) (cursor : Int)
    (events : List Event) :
    ∀ message ∈ (sendPast session cursor events).1, message.isMail = false := by
  induction events generalizing cursor with
  | nil => simp [sendPast]
  | cons event events ih =>
      by_cases hsent : (event.sequence : Int) ≤ cursor
      · simpa [sendPast, hsent] using ih cursor
      · intro message hmessage
        simp only [sendPast, hsent, ↓reduceIte, List.mem_cons] at hmessage
        rcases hmessage with rfl | hmessage
        · rfl
        · exact ih _ message hmessage

theorem publishAll_isMail (publisher : Publisher) (sessions : List Session) :
    ∀ message ∈ (publisher.publishAll sessions).2, message.isMail = false := by
  induction sessions generalizing publisher with
  | nil => simp [publishAll]
  | cons session sessions ih =>
      intro message hmessage
      simp only [publishAll, List.mem_append] at hmessage
      rcases hmessage with hmessage | hmessage
      · exact sendPast_isMail _ _ _ message hmessage
      · exact ih _ message hmessage

end Publisher

namespace Node

open FaithfulLog

variable {L σ : Type} [LogStore L] [FaithfulLog L]

/-- The standing of a node. -/
def standing (node : Node L σ) : Standing σ where
  id := node.id
  members := node.members
  role := node.role
  term := node.term
  votedFor := node.votedFor
  votes := node.votes
  stored := stored node.log
  entries := entries node.log
  commitIndex := node.commitIndex
  lastApplied := node.lastApplied
  executor := node.executor
  leadership := node.leadership.map Leadership.bare
  mail := node.outbox.filter Outbound.isMail
  queries := node.queries
  served := servedOf node.answers

/-- The standing is left alone. -/
structure Quiet (before after : Node L σ) : Prop where
  log : after.log = before.log
  standing : after.standing = before.standing

/-- The standing is left alone, but for queries that are let go. -/
structure Lapsed (before after : Node L σ) : Prop where
  log : after.log = before.log
  queries : after.queries ⊆ before.queries
  standing : after.standing =
    { before.standing with queries := after.queries }

variable {node before middle after : Node L σ}

theorem Quiet.refl (node : Node L σ) : Quiet node node := ⟨rfl, rfl⟩

theorem Quiet.trans (hfirst : Quiet before middle)
    (hsecond : Quiet middle after) : Quiet before after :=
  ⟨hsecond.log.trans hfirst.log, hsecond.standing.trans hfirst.standing⟩

theorem Quiet.lapsed (hquiet : Quiet before after) : Lapsed before after := by
  have hqueries : after.queries = before.queries :=
    congrArg Standing.queries hquiet.standing
  refine ⟨hquiet.log, hqueries ▸ fun _ hquery => hquery, ?_⟩
  rw [hquiet.standing, hqueries]
  rfl

theorem Lapsed.trans (hfirst : Lapsed before middle)
    (hsecond : Lapsed middle after) : Lapsed before after := by
  refine ⟨hsecond.log.trans hfirst.log,
    fun _ hquery => hfirst.queries (hsecond.queries hquery), ?_⟩
  rw [hsecond.standing, hfirst.standing]

/-- Answers that carry no result of a query concern only clients. -/
theorem quiet_answers (node : Node L σ) {answers : List (Ticket × Answer)}
    (hanswers : ∀ answer ∈ answers, ∀ output, answer.2 ≠ .query (.ok output)) :
    Quiet node { node with answers := node.answers ++ answers } := by
  refine ⟨rfl, ?_⟩
  simp only [standing, servedOf_append, servedOf_eq_nil hanswers,
    List.append_nil]

theorem quiet_answerAll (node : Node L σ) (tickets : List Ticket)
    {answer : Answer} (hanswer : ∀ output, answer ≠ .query (.ok output)) :
    Quiet node (node.answerAll tickets answer) := by
  apply quiet_answers
  intro given hgiven
  obtain ⟨ticket, -, rfl⟩ := List.mem_map.mp hgiven
  exact hanswer

theorem quiet_answer (node : Node L σ) (ticket : Ticket) {answer : Answer}
    (hanswer : ∀ output, answer ≠ .query (.ok output)) :
    Quiet node (node.answer ticket answer) :=
  quiet_answerAll node [ticket] hanswer

theorem quiet_failCommands (node : Node L σ) (commands : List PendingCommand)
    (kind : ErrorKind) : Quiet node (node.failCommands commands kind) :=
  quiet_answerAll node _ (by simp)

theorem quiet_await (node : Node L σ) (index : Nat) (waiters : List Waiter) :
    Quiet node (node.await index waiters) := ⟨rfl, rfl⟩

/-- What is not about copying the log may change in a leadership. -/
theorem quiet_leadership {leadership : Leadership} (changed : Leadership)
    (hleadership : node.leadership = some leadership)
    (hbare : changed.bare = leadership.bare) :
    Quiet node { node with leadership := some changed } := by
  refine ⟨rfl, ?_⟩
  simp only [standing, hleadership, Option.map_some, hbare]

theorem quiet_modifyLeadership (node : Node L σ) {f : Leadership → Leadership}
    (hbare : ∀ leadership, (f leadership).bare = leadership.bare) :
    Quiet node (node.modifyLeadership f) := by
  refine ⟨rfl, ?_⟩
  simp only [standing, modifyLeadership, Option.map_map]
  congr 2
  funext leadership
  exact hbare leadership

theorem quiet_publishEvents (node : Node L σ) :
    Quiet node node.publishEvents := by
  unfold publishEvents
  split
  · exact Quiet.refl node
  · rename_i leadership hleadership
    refine (quiet_leadership { leadership with
      publisher := (leadership.publisher.publish
        node.executor.sessions).1 } hleadership rfl).trans ⟨rfl, ?_⟩
    have hmail : (leadership.publisher.publish
        node.executor.sessions).2.filter Outbound.isMail = [] := by
      rw [List.filter_eq_nil_iff]
      intro message hmessage
      rw [Publisher.publishAll_isMail _ _ message hmessage]
      exact Bool.false_ne_true
    simp only [standing, send, List.filter_append, hmail, List.append_nil]

theorem quiet_forgetCommands (node : Node L σ) (session : SessionId)
    (kind : ErrorKind) : Quiet node (node.forgetCommands session kind) := by
  unfold forgetCommands
  split
  · exact Quiet.refl node
  · rename_i leadership hleadership
    exact (quiet_leadership { leadership with
      sequencer := (leadership.sequencer.forget session).1 }
      hleadership rfl).trans
        (quiet_failCommands _ (leadership.sequencer.forget session).2 kind)

theorem quiet_failWaiters (node : Node L σ) (kind : ErrorKind) :
    Quiet node (node.failWaiters kind) := by
  have hquiet : Quiet node { node with
      answers := node.answers ++ node.waiters.values.flatten.map
        (fun waiter => (waiter.ticket, waiter.refusal kind)) } := by
    apply quiet_answers
    intro given hgiven
    obtain ⟨waiter, -, rfl⟩ := List.mem_map.mp hgiven
    cases waiter <;> simp [Waiter.refusal]
  exact hquiet.trans ⟨rfl, rfl⟩

theorem quiet_complete (node : Node L σ) (index : Nat) (applied : Applied) :
    Quiet node (node.complete index applied) := by
  have hquiet : Quiet node { node with
      answers := node.answers ++ (node.waiters.getD index []).map
        (fun waiter => (waiter.ticket, node.completion applied waiter)) } := by
    apply quiet_answers
    intro given hgiven
    obtain ⟨waiter, -, rfl⟩ := List.mem_map.mp hgiven
    unfold completion
    cases waiter <;> cases applied <;> simp [Waiter.refusal]
  exact hquiet.trans ⟨rfl, rfl⟩

/-- Refusing queries lets go of those that pass the test. -/
theorem failQueries_standing (node : Node L σ) (fails : PendingQuery → Bool)
    (kind : ErrorKind) :
    (node.failQueries fails kind).standing =
      { node.standing with
        queries := node.queries.filter (fun query => !fails query) } := by
  simp only [failQueries, List.partition_eq_filter_filter]
  exact (quiet_answerAll _ _ (by simp)).standing

theorem lapsed_failQueries (node : Node L σ) (fails : PendingQuery → Bool)
    (kind : ErrorKind) : Lapsed node (node.failQueries fails kind) := by
  have hstanding := node.failQueries_standing fails kind
  have hqueries : (node.failQueries fails kind).queries =
      node.queries.filter (fun query => !fails query) :=
    congrArg Standing.queries hstanding
  refine ⟨rfl, ?_, ?_⟩
  · rw [hqueries]
    exact fun _ hquery => (List.mem_filter.mp hquery).1
  · rw [hstanding, hqueries]

theorem lapsed_releaseSession (node : Node L σ) (session : SessionId) :
    Lapsed node (node.releaseSession session) := by
  unfold releaseSession
  exact ((quiet_forgetCommands node session .unknownSession).trans
    (quiet_modifyLeadership _ (f := fun leadership =>
      { leadership with publisher := leadership.publisher.forget session })
      (fun _ => rfl))).lapsed.trans (lapsed_failQueries _ _ .unknownSession)

theorem lapsed_releaseSessions (node : Node L σ)
    (sessions : List SessionId) :
    Lapsed node (node.releaseSessions sessions) := by
  induction sessions generalizing node with
  | nil => exact (Quiet.refl node).lapsed
  | cons session sessions ih =>
      exact (lapsed_releaseSession node session).trans (ih _)

theorem lapsed_settle (node : Node L σ) (operation : Operation)
    (applied : Applied) : Lapsed node (node.settle operation applied) := by
  unfold settle
  split
  · rename_i session sequence result
    exact (quiet_modifyLeadership node (f := fun leadership =>
      { leadership with
        sequencer := leadership.sequencer.applied session sequence })
      (fun _ => rfl)).lapsed
  · exact lapsed_releaseSession node _
  · exact (Quiet.refl node).lapsed

def expireBefore (node : Node L σ) (operation : Operation) : Node L σ :=
  match operation.timestamp? with
  | some timestamp => node.expireSessions timestamp
  | none => node

theorem lapsed_expireBefore (node : Node L σ) (operation : Operation) :
    Lapsed { node with executor := node.executor.lapse operation }
      (node.expireBefore operation) := by
  unfold expireBefore Executor.lapse
  cases operation.timestamp? with
  | none => exact (Quiet.refl node).lapsed
  | some timestamp =>
      exact lapsed_releaseSessions
        { node with executor := node.executor.expire timestamp }
        (node.executor.sessions.expired timestamp)

/-- The executor has no part in what is let go. -/
theorem Lapsed.with_executor (hlapsed : Lapsed before after)
    (executor : Executor σ) :
    Lapsed { before with executor := executor }
      { after with executor := executor } := by
  refine ⟨hlapsed.log, hlapsed.queries, ?_⟩
  have hstanding := congrArg
    (fun standing : Standing σ => { standing with executor := executor })
    hlapsed.standing
  exact hstanding

/-- The request for a peer is told by the standing. -/
theorem createAppend?_eq (hlog : Sound node.log) (peer : NodeId) :
    node.createAppend? peer = node.standing.leadership.map (fun leadership =>
      node.standing.appendRequest leadership peer
        node.config.maxEntriesPerAppend) := by
  unfold createAppend?
  simp only [standing, Option.map_map]
  congr 1
  funext leadership
  have hnext : node.nextFor leadership peer =
      max 1 (leadership.nextIndex.getD peer ((entries node.log).length + 1)) := by
    rw [nextFor, lastIndex_eq_length hlog]
  have hfrom : node.nextFor leadership peer =
      node.nextFor leadership peer - 1 + 1 := by
    rw [hnext]
    omega
  have hentries : LogStore.entriesFrom node.log
      (node.nextFor leadership peer) node.config.maxEntriesPerAppend =
      ((entries node.log).drop (node.nextFor leadership peer - 1)).take
        node.config.maxEntriesPerAppend := by
    rw [hfrom, entriesFrom_eq hlog, Nat.add_sub_cancel]
  rw [hentries, termAt_eq_termOf hlog, hnext]
  rfl

theorem confirmedRound_eq (node : Node L σ) :
    node.confirmedRound = node.standing.confirmedRound := by
  unfold confirmedRound Standing.confirmedRound
  simp only [standing]
  cases node.leadership <;> rfl

omit [FaithfulLog L] in
/-- What a commit target is. -/
theorem commitTarget?_spec {leadership : Leadership} {target : Nat}
    (htarget : node.commitTarget? leadership = some target) :
    node.commitIndex < target ∧ target ≤ LogStore.lastIndex node.log ∧
      LogStore.termAt node.log target = node.term ∧
      node.quorum ≤ replicas leadership target := by
  have hmem := List.mem_of_getLast? htarget
  rw [List.mem_filter, decide_eq_true_eq] at hmem
  obtain ⟨hmem, hterm⟩ := hmem
  have hquorum := List.all_eq_true.mp List.all_takeWhile target hmem
  have hrange := (List.takeWhile_prefix _).subset hmem
  rw [List.mem_range'_1] at hrange
  rw [decide_eq_true_eq] at hquorum
  exact ⟨by omega, by omega, hterm, hquorum⟩

/-- Giving up a leadership lets go of everything that waits for it. -/
theorem dropAll_standing (node : Node L σ) (fails : PendingQuery → Bool) :
    ((node.dropLeadership.failWaiters .noLeader).failQueries fails
        .noLeader).standing =
      { node.standing with
        leadership := none
        queries := node.queries.filter (fun query => !fails query) } := by
  have hdrop : node.dropLeadership.standing =
      { node.standing with leadership := none } := by
    unfold dropLeadership
    cases hleadership : node.leadership with
    | none =>
        simp only
        simp [standing, hleadership]
    | some leadership =>
        exact (quiet_failCommands { node with leadership := none } _ _).standing
  have hqueries : (node.dropLeadership.failWaiters .noLeader).queries =
      node.queries := by
    have heq := (quiet_failWaiters node.dropLeadership .noLeader).standing.trans
      hdrop
    exact congrArg Standing.queries heq
  rw [failQueries_standing, (quiet_failWaiters _ _).standing, hdrop, hqueries]

omit [LogStore L] [FaithfulLog L] in
theorem dropAll_log (node : Node L σ) (fails : PendingQuery → Bool) :
    ((node.dropLeadership.failWaiters .noLeader).failQueries fails
      .noLeader).log = node.log := by
  have hdrop : node.dropLeadership.log = node.log := by
    unfold dropLeadership
    cases node.leadership <;> rfl
  exact hdrop

/-- The queries that are left when a leadership ends. -/
theorem released_filter (standing : Standing σ) {queries : List PendingQuery}
    (hqueries : queries = if standing.leadership.isSome
      then standing.queries.filter (fun query => !isFresh query)
      else standing.queries) :
    queries ⊆ standing.queries ∧
      { standing with queries := queries }.Released := by
  by_cases hsome : standing.leadership.isSome
  · rw [if_pos hsome] at hqueries
    subst hqueries
    refine ⟨fun _ hquery => (List.mem_filter.mp hquery).1,
      fun _ query hquery => ?_⟩
    simpa using (List.mem_filter.mp hquery).2
  · rw [if_neg hsome] at hqueries
    subst hqueries
    exact ⟨fun _ hquery => hquery, fun hsome' => absurd hsome' hsome⟩

/-- Give up a leadership, if there is one. -/
def stepDown (node : Node L σ) : Node L σ :=
  if node.leadership.isSome then
    (node.dropLeadership.failWaiters .noLeader).failQueries isFresh .noLeader
  else node

omit [FaithfulLog L] in
theorem becomeFollower_eq (node : Node L σ) (term : Nat) :
    node.becomeFollower term =
      { node.adoptTerm term with role := .follower, votes := [] }.stepDown :=
  rfl

theorem stepDown_standing (node : Node L σ) :
    node.stepDown.standing = { node.standing with
      leadership := none
      queries := if node.standing.leadership.isSome
        then node.standing.queries.filter (fun query => !isFresh query)
        else node.standing.queries } := by
  unfold stepDown
  by_cases hsome : node.leadership.isSome
  · have hstanding : node.standing.leadership.isSome := by
      simpa [standing] using hsome
    rw [if_pos hsome, if_pos hstanding, dropAll_standing]
    rfl
  · have hnone : node.leadership = none := by simpa using hsome
    have hstanding : ¬node.standing.leadership.isSome := by
      simp [standing, hnone]
    rw [if_neg hsome, if_neg hstanding]
    simp [standing, hnone]

omit [LogStore L] [FaithfulLog L] in
theorem stepDown_log (node : Node L σ) : node.stepDown.log = node.log := by
  unfold stepDown
  split
  · exact dropAll_log node _
  · rfl

theorem becomeFollower_term (node : Node L σ) (term : Nat) :
    (node.becomeFollower term).term = max node.term term := by
  have hterm := congrArg Standing.term
    (stepDown_standing { node.adoptTerm term with role := .follower, votes := [] })
  rw [becomeFollower_eq]
  apply hterm.trans
  simp only [standing, adoptTerm, persistVote]
  split
  · simp only
    omega
  · omega

theorem becomeFollower_role (node : Node L σ) (term : Nat) :
    (node.becomeFollower term).role = .follower := by
  rw [becomeFollower_eq]
  exact congrArg Standing.role (stepDown_standing
    { node.adoptTerm term with role := .follower, votes := [] })

theorem becomeFollower_entries (hlog : Sound node.log) (term : Nat) :
    entries (node.becomeFollower term).log = entries node.log := by
  rw [becomeFollower_eq, stepDown_log]
  simp only [adoptTerm]
  split
  · rcases hsave : LogStore.saveVote node.log term none with ⟨outcome, log⟩
    simp only [persistVote, hsave]
    exact (saveVote_cases (.of_sound hlog) hsave).2.1
  · rfl

theorem becomeFollower_leadership (node : Node L σ) (term : Nat) :
    (node.becomeFollower term).leadership = none := by
  have hnone := congrArg Standing.leadership
    (stepDown_standing { node.adoptTerm term with role := .follower, votes := [] })
  rw [becomeFollower_eq]
  simpa [standing] using hnone

omit [FaithfulLog L] in
/-- What is kept whenever an entry is applied is kept by applying any number of
entries. -/
theorem applyNext_induction [StateMachine σ] (holds : Node L σ → Prop)
    (node : Node L σ) (count : Nat) (hstart : holds node)
    (hnext : ∀ before entry, holds before →
      LogStore.get? before.log (before.lastApplied + 1) = some entry →
      holds (applyEntry { before with
        lastApplied := before.lastApplied + 1 } entry)) :
    holds (node.applyNext count) := by
  induction count generalizing node with
  | zero => exact hstart
  | succ count ih =>
      unfold applyNext
      split
      · exact hstart
      · rename_i entry hentry
        exact ih _ (hnext node entry hstart hentry)

end Node

end SessionRaft
