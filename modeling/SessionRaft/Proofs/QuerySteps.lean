/-
What a step does about the queries that wait.  Every step goes through the
phases in order: nothing is applied once queries are answered, and no query is
left waiting that is ready.
-/
import SessionRaft.Proofs.Acts
import SessionRaft.Proofs.QueryPhases

namespace SessionRaft.Node

open FaithfulLog

variable {L σ : Type} [LogStore L] [FaithfulLog L] [StateMachine σ]
  {input : Input} {node before after : Node L σ}

theorem Quiet.still (hquiet : Quiet before after)
    (hinforms : Informs before after) : Still before after where
  id := congrArg Standing.id hquiet.standing
  members := congrArg Standing.members hquiet.standing
  role := congrArg Standing.role hquiet.standing
  term := congrArg Standing.term hquiet.standing
  lastApplied := congrArg Standing.lastApplied hquiet.standing
  queries := congrArg Standing.queries hquiet.standing
  leadership := congrArg Standing.leadership hquiet.standing
  executor := by
    rw [show after.executor = before.executor
      from congrArg Standing.executor hquiet.standing]
    exact .refl _
  informs := hinforms

theorem still_answerAll (node : Node L σ) (tickets : List Ticket)
    {answer : Answer} (hanswer : ∀ output, answer ≠ .query (.ok output)) :
    Still node (node.answerAll tickets answer) :=
  (quiet_answerAll node tickets hanswer).still
    (informs_answerAll node tickets hanswer)

theorem still_answer (node : Node L σ) (ticket : Ticket) {answer : Answer}
    (hanswer : ∀ output, answer ≠ .query (.ok output)) :
    Still node (node.answer ticket answer) :=
  still_answerAll node [ticket] hanswer

theorem still_modifyLeadership (node : Node L σ) {f : Leadership → Leadership}
    (hbare : ∀ leadership, (f leadership).bare = leadership.bare) :
    Still node (node.modifyLeadership f) :=
  (quiet_modifyLeadership node hbare).still (.of_same rfl)

theorem handles_followCommit (node : Node L σ) (target : Nat) :
    Handles input node (node.followCommit target) := by
  have htold : Still node { node with commitIndex := target } := .of_same rfl
  unfold followCommit
  split
  · exact htold.eases.handles (handles_applyCommitted _)
  · exact (Still.refl node).eases.only

theorem handles_advanceCommit (node : Node L σ) :
    Handles input node node.advanceCommit.2 := by
  unfold advanceCommit
  cases node.leadership.bind node.commitTarget? with
  | none => exact (Still.refl node).eases.only
  | some target =>
      have htold : Still node { node with commitIndex := target } :=
        .of_same rfl
      exact htold.eases.handles (handles_applyCommitted _)

omit [FaithfulLog L] in
theorem eases_broadcast (node : Node L σ) : Eases input node node.broadcast := by
  have hsent : Still (node.modifyLeadership (fun leadership =>
      { leadership with round := leadership.round + 1 })) node.broadcast :=
    .of_same rfl
  exact (eases_round node).trans hsent.eases

theorem handles_replicate (node : Node L σ) :
    Handles input node node.replicate := by
  unfold replicate
  split
  · exact (eases_broadcast node).handles (handles_advanceCommit _)
  · exact (Still.refl node).eases.only

theorem handles_beginTerm (node : Node L σ) :
    Handles input node node.beginTerm := by
  unfold beginTerm
  rcases LogStore.append node.log node.term .noOp with ⟨outcome, log⟩
  have hlogged : Still node { node with log := log } := .of_same rfl
  rcases outcome with fault | index
  · exact (hlogged.eases.trans (eases_becomeFollower _ _)).only
  · have hnoop : Still { node with log := log }
        (modifyLeadership { node with log := log } (fun leadership =>
          { leadership with noopIndex := index })) :=
      still_modifyLeadership _ (fun _ => rfl)
    exact ((hlogged.eases.trans hnoop.eases).handles
      (handles_replicate _)).serves (serves_publishEvents _)

theorem handles_becomeLeader (hrole : node.role = .candidate)
    (hnone : node.leadership = none) :
    Handles input node node.becomeLeader :=
  (eases_crowned hrole hnone).handles (handles_beginTerm node.crowned)

theorem handles_startElection {asked : Option VoteRequest}
    (hstart : node.startElection = .ok (asked, after)) :
    Handles .electionTimeout node after := by
  have hresigned : Eases .electionTimeout node node.resigned := by
    unfold resigned
    split
    · exact eases_becomeFollower node _
    · exact (Still.refl node).eases
  have hnone := resigned_leadership node
  rw [startElection_eq] at hstart
  simp only [successor] at hstart
  split at hstart
  · simp [Except.map] at hstart
  simp only [Except.map, Except.ok.injEq] at hstart
  rw [show after = (node.resigned.campaign (node.resigned.term + 1)).2 from
    (congrArg Prod.snd hstart).symm]
  generalize node.resigned = start at hresigned hnone
  refine hresigned.handles ?_
  unfold campaign
  rcases LogStore.saveVote start.log (start.term + 1) (some start.id) with
    ⟨outcome, log⟩
  rcases outcome with fault | ⟨⟩
  · have hdesists : Eases .electionTimeout start
        { start with log := log, role := .follower, votes := [] } :=
      ⟨prepares_of_same rfl (.of_same rfl) rfl (.refl _) (Nat.le_refl _)
          (fun _ => Or.inr rfl) (fun hsome => by simp [hnone] at hsome)
          (fun _ hawaits => hawaits.congr rfl),
        fun hcalm => hcalm.congr rfl rfl rfl (fun _ hquery => hquery) rfl⟩
    exact hdesists.only
  · have hstands : Eases .electionTimeout start
        (start.candidacy log (start.term + 1)) :=
      eases_candidacy hnone log (Nat.lt_succ_self _)
    dsimp only
    split
    · exact hstands.handles (handles_becomeLeader rfl hnone)
    · exact hstands.only

theorem handles_handleVote (node : Node L σ) (request : VoteRequest) :
    Handles input node (node.handleVote request).2 := by
  have hadopted : Eases input node (if node.term < request.term then
      node.becomeFollower request.term else node) := by
    split
    · exact eases_becomeFollower node _
    · exact (Still.refl node).eases
  unfold handleVote
  dsimp only
  generalize (if node.term < request.term then
    node.becomeFollower request.term else node) = voter at hadopted ⊢
  refine hadopted.handles (Still.eases ?_).only
  split
  · simp only [persistVote]
    rcases LogStore.saveVote voter.log voter.term (some request.candidate) with
      ⟨outcome, log⟩
    rcases outcome with fault | ⟨⟩ <;> exact .of_same rfl
  · exact .refl voter

theorem handles_handleVoteResponse
    (hleads : node.leadership.isSome = true → node.role = .leader)
    (member : NodeId) (response : VoteResponse) :
    Handles input node (node.handleVoteResponse member response).2 := by
  cases response with
  | error kind => exact (Still.refl node).eases.only
  | ok vote =>
      simp only [handleVoteResponse]
      split
      · exact (eases_becomeFollower node _).only
      · split
        · rename_i hcounts
          have hcounted : Still node (node.countVote member) ∧
              (node.countVote member).leadership = node.leadership := by
            unfold countVote
            split <;> exact ⟨.of_same rfl, rfl⟩
          obtain ⟨hstill, hsame⟩ := hcounted
          have hnone : node.leadership = none := by
            by_contra hsome
            have hled := hleads (Option.isSome_iff_ne_none.mpr hsome)
            simp [hcounts.1] at hled
          split
          · exact hstill.eases.handles (handles_becomeLeader
              (hstill.role.trans hcounts.1) (hsame.trans hnone))
          · exact hstill.eases.only
        · exact (Still.refl node).eases.only

theorem handles_handleAppend (node : Node L σ) (request : AppendRequest) :
    Handles input node (node.handleAppend request).2 := by
  have hreceptive : Eases input node (node.receptive request) := by
    unfold receptive
    split
    · have hlearns : Still (node.becomeFollower request.term)
          { node.becomeFollower request.term with
            leader := some request.leader } := .of_same rfl
      exact (eases_becomeFollower node request.term).trans hlearns.eases
    · have hlearns : Still node { node with leader := some request.leader } :=
        .of_same rfl
      exact hlearns.eases
  rw [handleAppend_eq]
  split
  · exact (Still.refl node).eases.only
  · generalize node.receptive request = follower at hreceptive
    refine hreceptive.handles ?_
    unfold receive
    dsimp only
    split
    · exact (Still.refl follower).eases.only
    · split
      · exact (Still.refl follower).eases.only
      · split
        · rename_i log _
          have hmerged : Still follower { follower with log := log } :=
            .of_same rfl
          exact hmerged.eases.only
        · rename_i matched log _
          have hmerged : Still follower { follower with log := log } :=
            .of_same rfl
          exact hmerged.eases.handles (handles_followCommit
            { follower with log := log } (min request.commitIndex matched))

/-- What a leader notes of a peer's answer makes a query ready only until the
queries are served. -/
theorem handles_noting {leadership : Leadership} (noted : Leadership)
    (hleadership : node.leadership = some leadership)
    (hround : noted.round = leadership.round)
    (hhandles : Handles input (node.noting noted) after) :
    Handles input node after.serveQueries := by
  have hnoted : Prepares input node (node.noting noted) :=
    prepares_noting noted hleadership hround
  have hcompletes := hnoted.completes hhandles.completes
  exact ⟨hcompletes.serves (serves_serveQueries after),
    fun hcalm => hcompletes.calm (.refl _) hcalm.awaits⟩

theorem handles_handleAppendResponse {peer : NodeId}
    {response : AppendResponse} {outcome : Bool}
    (hheeded : node.handleAppendResponse peer response =
      .ok (outcome, after)) : Handles input node after := by
  unfold handleAppendResponse at hheeded
  split at hheeded
  · obtain ⟨-, rfl⟩ := Prod.mk.inj (Except.ok.inj hheeded)
    exact (Still.refl node).eases.only
  rename_i appended
  split at hheeded
  · obtain ⟨-, rfl⟩ := Prod.mk.inj (Except.ok.inj hheeded)
    exact (eases_becomeFollower node _).only
  split at hheeded
  · obtain ⟨-, rfl⟩ := Prod.mk.inj (Except.ok.inj hheeded)
    exact (Still.refl node).eases.only
  split at hheeded
  · obtain ⟨-, rfl⟩ := Prod.mk.inj (Except.ok.inj hheeded)
    exact (Still.refl node).eases.only
  rename_i leadership hleadership
  split at hheeded
  · obtain ⟨-, rfl⟩ := Prod.mk.inj (Except.ok.inj hheeded)
    exact (Still.refl node).eases.only
  rename_i next hnext
  split at hheeded
  · rw [show after = (node.acceptProgress (Leadership.acknowledge leadership
      peer appended.round) peer appended.lastLogIndex).2.serveQueries from
      (Prod.mk.inj (Except.ok.inj hheeded)).2.symm]
    generalize hheld : max ((Leadership.acknowledge leadership peer
      appended.round).matchIndex.getD peer 0)
      (min appended.lastLogIndex (LogStore.lastIndex node.log)) = held
    rcases hcommit : (node.noting (Leadership.progress
      (Leadership.acknowledge leadership peer appended.round) peer
      held)).advanceCommit with ⟨advanced, leader⟩
    have hadvanced : Handles input (node.noting (Leadership.progress
        (Leadership.acknowledge leadership peer appended.round) peer held))
        (node.noting (Leadership.progress (Leadership.acknowledge leadership
          peer appended.round) peer held)).advanceCommit.2 :=
      handles_advanceCommit _
    rw [hcommit] at hadvanced
    rw [acceptProgress_eq appended.lastLogIndex hheld.symm hcommit]
    refine handles_noting (Leadership.progress (Leadership.acknowledge
      leadership peer appended.round) peer held) hleadership rfl ?_
    dsimp only
    split
    · exact hadvanced.serves (serves_sendAppends leader [peer])
    · exact hadvanced
  · obtain ⟨tried, htried, heq⟩ := exists_of_bind hheeded
    obtain ⟨-, rfl⟩ := Prod.mk.inj (Except.ok.inj heq)
    rw [acceptRefusal_eq htried]
    exact handles_noting (Leadership.retreat (Leadership.acknowledge leadership
      peer appended.round) peer (max 1 (min (next - 1)
        (appended.lastLogIndex + 1)))) hleadership rfl ((Still.refl _).eases.only.serves
          (serves_sendAppends _ [peer]))

theorem still_lost (node : Node L σ) (command : PendingCommand)
    (commands : List PendingCommand) : Still node (node.lost command commands) :=
  (quiet_lost node command commands).still
    ((informs_answerAll node _ (by simp)).trans
      (informs_forgetCommands _ _ _))

theorem Appends.eases {commands : List PendingCommand}
    (happends : Appends node commands after) : Eases input node after := by
  induction happends with
  | done => exact (Still.refl _).eases
  | @issue node _ command _ index log _ _ ih =>
      have hlogged : Still node { node with log := log } := .of_same rfl
      have hnoted : Still { node with log := log }
          (modifyLeadership { node with log := log } (fun leadership =>
            { leadership with
              sequencer := leadership.sequencer.appended
                command.request.session command.request.sequence index })) :=
        still_modifyLeadership _ (fun _ => rfl)
      have hissued : Still (modifyLeadership { node with log := log }
          (fun leadership => { leadership with
            sequencer := leadership.sequencer.appended
              command.request.session command.request.sequence index }))
          (node.issued command index log) := .of_same rfl
      exact ((hlogged.eases.trans hnoted.eases).trans hissued.eases).trans ih
  | @lose node command commands _ log _ =>
      have hlogged : Still node { node with log := log } := .of_same rfl
      exact hlogged.eases.trans (still_lost _ command commands).eases

theorem eases_admitted (node : Node L σ) (record : Session)
    (submission : Submission) :
    Eases input node (node.admitted record submission) := by
  cases submission with
  | ready commands => exact (appends_appendReady node commands).eases
  | held => exact (Still.refl node).eases
  | inFlight index command =>
      have hawaited : Still node
          (node.await index (command.tickets.map .command)) := .of_same rfl
      exact hawaited.eases
  | stale command => exact (still_answerAll node _ (by simp)).eases

theorem handles_submitCommand {ticket : Ticket} {request : CommandRequest}
    (hsubmit : node.submitCommand ticket request = .ok after) :
    Handles input node after := by
  unfold submitCommand at hsubmit
  split at hsubmit
  · obtain rfl := Except.ok.inj hsubmit
    exact (still_answer node ticket (by simp)).eases.only
  split at hsubmit
  · obtain rfl := Except.ok.inj hsubmit
    exact (still_answer node ticket (by simp)).eases.only
  split at hsubmit
  · obtain rfl := Except.ok.inj hsubmit
    exact (still_answer node ticket (by simp)).eases.only
  split at hsubmit
  · obtain rfl := Except.ok.inj hsubmit
    exact (still_answer node ticket (by simp)).eases.only
  rename_i record _ _ _ leadership hleadership
  obtain ⟨⟨sequencer, submission⟩, -, heq⟩ := exists_of_bind hsubmit
  obtain rfl := Except.ok.inj heq
  have hsequenced : Still node (node.sequenced leadership sequencer) :=
    (quiet_leadership { leadership with sequencer := sequencer } hleadership
      rfl).still (.of_same rfl)
  have hadmitted : Eases input node
      ((node.sequenced leadership sequencer).admitted record submission) :=
    hsequenced.eases.trans (eases_admitted _ record submission)
  rw [follow_eq]
  split
  · exact hadmitted.handles (handles_replicate _)
  · exact hadmitted.only

theorem handles_appendOperation {waiter : Waiter} {operation : Operation}
    {next : Node L σ → Node L σ}
    (hnext : ∀ node, Handles input node (next node)) :
    Handles input node (node.appendOperation waiter operation next) := by
  have hrefusal : ∀ kind output,
      waiter.refusal kind ≠ .query (.ok output) := by
    intro kind output
    cases waiter <;> simp [Waiter.refusal]
  unfold appendOperation
  split
  · exact (still_answer node waiter.ticket (hrefusal _)).eases.only
  · split
    · rename_i log _
      have hlogged : Still node { node with log := log } := .of_same rfl
      exact (hlogged.eases.trans (still_answer { node with log := log }
        waiter.ticket (hrefusal _)).eases).only
    · rename_i index log _
      have hentered : Still node
          (await { node with log := log } index [waiter]) := .of_same rfl
      exact hentered.eases.handles (hnext _)

/-- What a client has received of its events is no matter of its queries. -/
theorem eases_acknowledgeEvents (node : Node L σ) (session : SessionId)
    (sequence : Int) :
    Eases input node (node.acknowledgeEvents session sequence) := by
  unfold acknowledgeEvents
  split
  · exact (Still.refl node).eases
  · rename_i record _
    split
    · have hsame : node.executor.SameEntries
          (node.executor.acknowledge session sequence) :=
        fun _ _ hcommits => hcommits.acknowledge session sequence
      have hacknowledged : Still node (node.modifySessions
          (·.update session (fun record => record.acknowledge sequence))) :=
        ⟨rfl, rfl, rfl, rfl, rfl, rfl, rfl, hsame, .of_same rfl⟩
      exact hacknowledged.eases
    · have hresent : Still node (node.modifyLeadership (fun leadership =>
          { leadership with
            publisher :=
              leadership.publisher.resendFrom session record.eventAck })) :=
        still_modifyLeadership node (fun _ => rfl)
      exact hresent.eases

theorem handles_submitKeepAlive (node : Node L σ) (ticket : Ticket)
    (request : KeepAliveRequest) :
    Handles input node (node.submitKeepAlive ticket request) := by
  unfold submitKeepAlive
  dsimp only
  split
  · exact (still_answer node ticket (by simp)).eases.only
  · exact handles_appendOperation (fun node =>
      ((eases_acknowledgeEvents node _ _).handles
        (handles_replicate _)).serves (serves_publishEvents _))

theorem handles_submitUnregister (node : Node L σ) (ticket : Ticket)
    (request : UnregisterRequest) :
    Handles input node (node.submitUnregister ticket request) := by
  unfold submitUnregister
  split
  · exact (still_answer node ticket (by simp)).eases.only
  · exact handles_appendOperation handles_replicate

theorem handles_publish (node : Node L σ) (request : PublishRequest) :
    Handles input node (node.publish request).2 := by
  unfold Node.publish
  split
  · exact (Still.refl node).eases.only
  · dsimp only
    split
    · exact (Still.refl node).eases.only
    · exact (eases_acknowledgeEvents node _ _).only.serves
        (serves_publishEvents _)

omit [LogStore L] [FaithfulLog L] [StateMachine σ] in
/-- What is asked for: any index that the client has seen, and if the answer has
to be fresh, whatever is committed in the leader's term. -/
theorem asked?_cases {query : PendingQuery}
    (hasked : node.asked? input = some query) :
    input = .query query.ticket query.request ∧
      query.request.index ≤ query.readIndex ∧
      (isFresh query = false ∧ query.round = 0 ∨
        isFresh query = true ∧ ∃ leadership,
          node.leadership = some leadership ∧
          query.round = leadership.round + 1 ∧
          node.commitIndex ≤ query.readIndex ∧
          leadership.noopIndex ≤ query.readIndex) := by
  unfold asked? at hasked
  split at hasked
  · rename_i ticket request
    split at hasked
    · rename_i hconsistency
      obtain rfl := Option.some.inj hasked
      refine ⟨rfl, Nat.le_refl _, Or.inl ⟨?_, rfl⟩⟩
      simp [isFresh, hconsistency]
    · cases hasked
    · rename_i leadership hconsistency hleadership
      obtain rfl := Option.some.inj hasked
      refine ⟨rfl, Nat.le_max_right _ _, Or.inr ⟨?_, leadership, hleadership,
        rfl, ?_, ?_⟩⟩
      · simp [isFresh, hconsistency]
      · exact Nat.le_trans (Nat.le_max_left _ _) (Nat.le_max_left _ _)
      · exact Nat.le_trans (Nat.le_max_right _ _) (Nat.le_max_left _ _)
  · cases hasked

theorem responds_submitQuery (node : Node L σ) (ticket : Ticket)
    (request : QueryRequest) :
    Responds (.query ticket request) node (node.submitQuery ticket request) := by
  have hsubmitted : node.submitQuery ticket request =
      match node.asked? (.query ticket request) with
      | some query => node.enqueue query
      | none => node.answer ticket (.query (.error .noLeader)) := by
    simp only [submitQuery, asked?]
    cases request.consistency <;> cases node.leadership <;> rfl
  rw [hsubmitted]
  cases hasked : node.asked? (.query ticket request) with
  | none => exact (still_answer node ticket (by simp)).eases.only.responds hasked
  | some query =>
      have hposed : node.posed (.query ticket request) =
          { node with queries := node.queries ++ [query] } := by
        rw [posed, hasked, Option.toList_some]
      obtain ⟨-, -, hcases⟩ := asked?_cases hasked
      simp only [enqueue]
      rw [← hposed]
      rcases hcases with ⟨hstale, hround⟩ |
        ⟨hfresh, leadership, hleadership, hround, -, -⟩
      · rw [if_pos hround]
        have hserved := serves_serveQueries
          (node.posed (.query ticket request))
        have hcompletes : Completes (.query ticket request)
            (node.posed (.query ticket request))
            (node.posed (.query ticket request)) :=
          (Still.refl _).eases.only.completes
        refine ⟨hcompletes.serves hserved, fun hcalm =>
          hcompletes.calm (.refl _) (fun other hother => ?_)⟩
        rw [hposed, List.mem_append, List.mem_singleton] at hother
        rcases hother with hother | rfl
        · exact (hcalm.awaits other hother).congr rfl
        · exact ⟨fun _ => hround, fun hfresh => by simp [hstale] at hfresh⟩
      · have hsome : (node.posed
            (.query ticket request)).leadership.isSome = true :=
          Option.isSome_of_mem hleadership
        rw [if_neg (by omega), replicate, if_pos hsome]
        have hadvanced : Completes (.query ticket request)
            (node.posed (.query ticket request)).broadcast _ :=
          (handles_advanceCommit _).completes
        refine ⟨((eases_broadcast _).completes hadvanced).serves
          (serves_serveQueries _), fun hcalm =>
          hadvanced.calm (.refl _) (fun other hother => ?_)⟩
        -- The query waits for the broadcast that was just begun.
        have hbegun : (node.posed
            (.query ticket request)).broadcast.queries =
            node.queries ++ [query] := congrArg Node.queries hposed
        rw [hbegun, List.mem_append, List.mem_singleton] at hother
        have hlater : (node.posed
            (.query ticket request)).broadcast.leadership =
            some { leadership with round := leadership.round + 1 } := by
          change node.leadership.map _ = _
          rw [hleadership, Option.map_some]
        rcases hother with hother | rfl
        · exact (hcalm.awaits other hother).round.congr rfl
        · exact ⟨fun hstale => by simp [hfresh] at hstale,
            fun _ => ⟨_, hlater, Nat.le_of_eq hround⟩⟩

/-- Every step prepares, applies and then answers. -/
theorem step_responds {output : Output}
    (hleads : node.leadership.isSome = true → node.role = .leader)
    (hstep : node.step input = .ok (output, after)) :
    Responds input node after := by
  cases stepsTo hstep with
  | clock now =>
      have hticks : Still node { node with now := now } := .of_same rfl
      exact hticks.eases.only.responds rfl
  | electionTimeout hstart =>
      exact (handles_startElection hstart).responds rfl
  | heartbeat => exact (handles_replicate node).responds rfl
  | @vote request _ _ _ hvote =>
      have hhandles : Handles (.vote request) node
        (node.handleVote request).2 := handles_handleVote node request
      rw [hvote] at hhandles
      exact hhandles.responds rfl
  | @voteResponse sender response _ _ hheeded =>
      have hhandles : Handles (.voteResponse sender response) node
        (node.handleVoteResponse sender response).2 :=
        handles_handleVoteResponse hleads sender response
      rw [hheeded] at hhandles
      exact hhandles.responds rfl
  | @append request _ _ _ happend =>
      have hhandles : Handles (.append request) node
        (node.handleAppend request).2 := handles_handleAppend node request
      rw [happend] at hhandles
      exact hhandles.responds rfl
  | appendResponse hheeded =>
      exact (handles_handleAppendResponse hheeded).responds rfl
  | command hsubmit => exact (handles_submitCommand hsubmit).responds rfl
  | query ticket request => exact responds_submitQuery node ticket request
  | register ticket request =>
      exact (handles_appendOperation handles_replicate).responds rfl
  | keepAlive ticket request =>
      exact (handles_submitKeepAlive node ticket request).responds rfl
  | unregister ticket request =>
      exact (handles_submitUnregister node ticket request).responds rfl
  | publish request => exact (handles_publish node request).responds rfl
  | shutdown => exact (eases_shutdown node).only.responds rfl

/-! ### What the queries are told -/

/-- Whether a query is dropped, because the node stops or because it gives up
the leadership that the query needs. -/
def Drops (input : Input) (before after : Node L σ) (query : PendingQuery) :
    Prop :=
  input = .shutdown ∨ isFresh query = true ∧ Deposed before after

/-- Why a query that waits is answered, and what it is told. -/
inductive Answered (start : Executor σ) (input : Input)
    (before after : Node L σ) (query : PendingQuery) : QueryResponse → Prop where
  | dropped (hdrops : Drops input before after query) :
      Answered start input before after query (.error .noLeader)
  /-- An entry that was applied closes the session. -/
  | closed {index : Nat} (hlt : before.lastApplied < index)
      (hle : index ≤ after.lastApplied) (hcloses : start.Closes
        (entries after.log) query.request.session index) :
      Answered start input before after query (.error .unknownSession)
  | served (hready : after.Ready query) :
      Answered start input before after query (after.reading query)

/-- What a step tells the queries that wait, and why. -/
structure Judges (start : Executor σ) (input : Input)
    (verdict : PendingQuery → Option QueryResponse)
    (before after : Node L σ) : Prop where
  disposes : Disposes verdict before after
  answered : ∀ query response, verdict query = some response →
    Answered start input before after query response
  /-- A query whose session is closed is told so, unless it was dropped
  before. -/
  closes : ∀ query index, before.lastApplied < index →
    index ≤ after.lastApplied →
    start.Closes (entries after.log) query.request.session index →
    verdict query = some (.error .unknownSession) ∨
      verdict query = some (.error .noLeader) ∧ Drops input before after query
  /-- A query that has to be fresh is dropped, unless the node leads on. -/
  leads : ∀ query ∈ before.queries, isFresh query = true →
    before.leadership.isSome = true →
    verdict query ≠ some (.error .noLeader) →
    after.leadership.isSome = true ∧ after.term = before.term

/-- A step that prepares, applies and then answers judges every query that
waits. -/
theorem Completes.judges (hcompletes : Completes input before after)
    (hlog : Sound after.log) {machine : σ}
    (hcommits : (Executor.start machine).Commits
      ((entries after.log).take before.lastApplied) before.executor) :
    ∃ verdict, Judges (.start machine) input verdict before after := by
  obtain ⟨ready, count, hprepares, hserves⟩ := hcompletes
  have hframe := hserves.frame.trans (applyNext_frame ready count)
  have hkept : after.log = ready.log := congrArg Frame.log hframe
  have hlast : after.lastApplied = (ready.applyNext count).lastApplied :=
    congrArg Frame.lastApplied hframe
  have hterm : after.term = ready.term := congrArg Frame.term hframe
  rw [hkept] at hlog hcommits
  rw [← hprepares.lastApplied] at hcommits
  obtain ⟨dropping, hdropping, hdrops⟩ := hprepares.verdicts
  obtain ⟨sessions, hshuts, hclosed⟩ := (consumes_applyNext hlog
    (hprepares.executor _ _ hcommits) count).shuts
  obtain ⟨serving, hserving, hserved⟩ := hserves.verdicts
  have hdeposed : ∀ query, (input = .shutdown ∨
      isFresh query = true ∧ Deposed before ready) →
      Drops input before after query := by
    refine fun query => Or.imp_right (And.imp_right (Or.imp ?_ ?_))
    · exact fun hlt => hterm ▸ hlt
    · exact (show after.role = ready.role
        from congrArg Frame.role hframe).trans
  simp only [hprepares.lastApplied, ← hlast, ← hkept] at hclosed
  refine ⟨_, (hdropping.trans hshuts).trans hserving,
    fun query response hsome => ?_, fun query index hlt hle hcloses => ?_,
    fun query hquery hfresh hleads hstays => ?_⟩
  · rcases Option.or_eq_some_iff.mp hsome with hsome | ⟨-, hsome⟩
    · rcases Option.or_eq_some_iff.mp hsome with hsome | ⟨-, hsome⟩
      · obtain ⟨rfl, hcases⟩ := hdrops query response hsome
        exact .dropped (hdeposed query hcases)
      · rw [closing, Option.ite_none_right_eq_some, Option.some.injEq] at hsome
        obtain ⟨hmem, rfl⟩ := hsome
        obtain ⟨index, hlt, hle, hcloses⟩ := (hclosed _).mp hmem
        exact .closed hlt hle hcloses
    · obtain ⟨hready, rfl⟩ := hserved query response hsome
      rw [← hserves.reading]
      exact .served ((hserves.ready query).mpr hready)
  · have hmem := (hclosed query.request.session).mpr ⟨index, hlt, hle, hcloses⟩
    cases hdropped : dropping query with
    | none => exact Or.inl (by simp [closing, hmem])
    | some response =>
        obtain ⟨rfl, hcases⟩ := hdrops query response hdropped
        exact Or.inr ⟨by simp, hdeposed query hcases⟩
  · have hnone : dropping query = none := by
      cases hdropped : dropping query with
      | none => rfl
      | some response =>
          obtain ⟨rfl, -⟩ := hdrops query response hdropped
          exact absurd (by simp [hdropped]) hstays
    obtain ⟨hready, hsame⟩ := hprepares.leads hleads query
      ((hdropping.queries query).mpr ⟨hquery, hnone⟩) hfresh
    have hbare : after.leadership.map Leadership.bare =
        ready.leadership.map Leadership.bare := congrArg Frame.leadership hframe
    have hsome := congrArg Option.isSome hbare
    rw [Option.isSome_map, Option.isSome_map] at hsome
    exact ⟨hsome.trans hready, hterm.trans hsame⟩

end SessionRaft.Node
