/-
Every step of a node is a chain of moves, and what a step tells at once holds
of the node it leaves.
-/
import SessionRaft.Proofs.ElectionMoves

namespace SessionRaft

/-- What the answer to a request with entries says of the one who gives it. -/
def Standing.Confirms {σ : Type} (standing : Standing σ)
    (request : AppendRequest) (response : AppendResponse) : Prop :=
  ∀ appended, response = .ok appended →
    appended.term = standing.term ∧ appended.round = request.round ∧
      request.term ≤ standing.term ∧
      (appended.succeeded = true → request.term = standing.term ∧
        appended.lastLogIndex =
          request.prevLogIndex + request.entries.length ∧
        standing.Joined request)

namespace Node

open FaithfulLog

variable {L σ : Type} [LogStore L] [FaithfulLog L] [StateMachine σ]

variable {steady : Prop} {input : Input} {node : Node L σ}

/-- The follower to which a request with entries of its term turns a node. -/
def receptive (node : Node L σ) (request : AppendRequest) : Node L σ :=
  { (if node.term < request.term ∨ node.role ≠ .follower then
      node.becomeFollower request.term else node) with
    leader := some request.leader }

theorem receptive_cases {request : AppendRequest}
    (hterm : ¬request.term < node.term) :
    Proceeds steady (.append request) node (node.receptive request) ∧
      (node.receptive request).term = request.term ∧
      (node.receptive request).role = .follower := by
  unfold receptive
  by_cases hturns : node.term < request.term ∨ node.role ≠ .follower
  · simp only [hturns, ↓reduceIte]
    refine ⟨(proceeds_becomeFollower node request.term).trans
      (Quiet.proceeds ⟨rfl, rfl⟩), ?_, becomeFollower_role node _⟩
    exact (becomeFollower_term node _).trans (by omega)
  · simp only [hturns, ↓reduceIte]
    refine ⟨Quiet.proceeds ⟨rfl, rfl⟩, ?_, ?_⟩
    · have hle : ¬node.term < request.term := fun hlt => hturns (Or.inl hlt)
      change node.term = request.term
      omega
    · by_cases hrole : node.role = .follower
      · exact hrole
      · exact absurd (Or.inr hrole) hturns

/-- Answer a request with entries of the present term. -/
def receive (node : Node L σ) (request : AppendRequest) :
    (AppendResponse × Bool) × Node L σ :=
  let previous := request.prevLogIndex
  if LogStore.lastIndex node.log < previous then
    ((node.appended false (LogStore.lastIndex node.log) request.round, true),
      node)
  else if LogStore.termAt node.log previous ≠ request.prevLogTerm then
    ((node.appended false (previous - 1) request.round, true), node)
  else
    match merge node.commitIndex node.log previous request.entries with
    | (.error kind, log) => ((.error kind, true), { node with log := log })
    | (.ok matched, log) =>
        let node := { node with log := log }.followCommit
          (min request.commitIndex matched)
        ((node.appended true matched request.round, true), node)

omit [FaithfulLog L] in
theorem handleAppend_eq (node : Node L σ) (request : AppendRequest) :
    node.handleAppend request =
      if request.term < node.term then
        ((node.appended false (LogStore.lastIndex node.log) request.round,
          false), node)
      else (node.receptive request).receive request := rfl

theorem proceeds_merge {request : AppendRequest} {log : L}
    {outcome : Except ErrorKind Nat} (hterm : request.term = node.term)
    (hrole : node.role = .follower)
    (hprevious : request.prevLogIndex ≤ LogStore.lastIndex node.log)
    (hjoin : LogStore.termAt node.log request.prevLogIndex =
      request.prevLogTerm)
    (hmerge : merge node.commitIndex node.log request.prevLogIndex
      request.entries = (outcome, log)) :
    Proceeds steady (.append request) node { node with log := log } := by
  intro hlog
  rw [lastIndex_eq_length hlog.sound] at hprevious
  rw [termAt_eq_termOf hlog.sound] at hjoin
  obtain ⟨hafter, hstored, hspliced, -⟩ := merge_cases hlog hprevious hmerge
  refine ⟨hafter, .single ?_⟩
  have hmove : Move steady (.append request) node.standing _ :=
    .merge rfl hterm hrole hprevious hjoin hspliced
  simp only [standing, hstored] at hmove ⊢
  exact hmove

omit [StateMachine σ] in
/-- After a merge that came to its end, the log holds what was received. -/
theorem joined_of_merge {request : AppendRequest} {log : L} {matched : Nat}
    (hlog : Fit steady node.log)
    (hprevious : request.prevLogIndex ≤ LogStore.lastIndex node.log)
    (hjoin : LogStore.termAt node.log request.prevLogIndex =
      request.prevLogTerm)
    (hmerge : merge node.commitIndex node.log request.prevLogIndex
      request.entries = (.ok matched, log)) :
    matched = request.prevLogIndex + request.entries.length ∧
      ({ node with log := log } : Node L σ).standing.Joined request := by
  rw [lastIndex_eq_length hlog.sound] at hprevious
  rw [termAt_eq_termOf hlog.sound] at hjoin
  obtain ⟨-, -, hspliced, hdone⟩ := merge_cases hlog hprevious hmerge
  obtain ⟨hmatched, hmatches⟩ := hdone matched rfl
  obtain ⟨hkept, hsame⟩ := spliced_prefix hprevious hspliced
  exact ⟨hmatched, hkept, hsame.trans hjoin, hmatches⟩

theorem proceeds_followCommit {request : AppendRequest} {matched : Nat}
    (hterm : request.term = node.term)
    (hmatched : matched = request.prevLogIndex + request.entries.length)
    (hjoined : node.standing.Joined request) :
    Proceeds steady (.append request) node
      (node.followCommit (min request.commitIndex matched)) := by
  unfold followCommit
  split
  · rename_i hlt
    have hhear : Proceeds steady (.append request) node
        { node with commitIndex := min request.commitIndex matched } :=
      proceeds_of_move rfl (fun _ =>
        (Move.hear rfl hterm hjoined (Nat.min_le_left _ _)
          (hmatched ▸ Nat.min_le_right _ _) hlt :
          Move steady _ node.standing _))
    exact hhear.trans (proceeds_applyCommitted _)
  · exact Proceeds.refl _ node

theorem receive_cases {request : AppendRequest} {response : AppendResponse}
    {restart : Bool} {after : Node L σ} (hlog : Fit steady node.log)
    (hterm : request.term = node.term) (hrole : node.role = .follower)
    (happend : node.receive request = ((response, restart), after)) :
    Proceeds steady (.append request) node after ∧
      after.standing.Confirms request response := by
  have hrefused : ∀ index, response = node.appended false index request.round →
      node.standing.Confirms request response := by
    rintro index rfl answer hanswer
    simp only [appended, Response.ok.injEq] at hanswer
    subst hanswer
    exact ⟨rfl, rfl, Nat.le_of_eq hterm, by simp⟩
  unfold receive at happend
  dsimp only at happend
  split at happend
  · simp only [Prod.mk.injEq] at happend
    obtain ⟨⟨rfl, -⟩, rfl⟩ := happend
    exact ⟨Proceeds.refl _ node, hrefused _ rfl⟩
  · rename_i hprevious
    split at happend
    · simp only [Prod.mk.injEq] at happend
      obtain ⟨⟨rfl, -⟩, rfl⟩ := happend
      exact ⟨Proceeds.refl _ node, hrefused _ rfl⟩
    · rename_i hjoin
      have hjoin : LogStore.termAt node.log request.prevLogIndex =
          request.prevLogTerm := Decidable.of_not_not hjoin
      have hprevious := Nat.le_of_not_lt hprevious
      split at happend
      · rename_i kind log hmerge
        simp only [Prod.mk.injEq] at happend
        obtain ⟨⟨rfl, -⟩, rfl⟩ := happend
        exact ⟨proceeds_merge hterm hrole hprevious hjoin hmerge,
          fun _ heq => by simp at heq⟩
      · rename_i matched log hmerge
        simp only [Prod.mk.injEq] at happend
        obtain ⟨⟨rfl, -⟩, rfl⟩ := happend
        obtain ⟨hmatched, hjoined⟩ :=
          joined_of_merge hlog hprevious hjoin hmerge
        refine ⟨(proceeds_merge hterm hrole hprevious hjoin hmerge).trans
          (proceeds_followCommit hterm hmatched hjoined), ?_⟩
        intro answer hanswer
        simp only [appended, Response.ok.injEq] at hanswer
        subst hanswer
        have hentries : (followCommit { node with log := log }
            (min request.commitIndex matched)).standing.entries =
            entries log := congrArg entries (followCommit_log _ _)
        have hkept : request.term = (followCommit { node with log := log }
            (min request.commitIndex matched)).term := by
          rw [followCommit_term]
          exact hterm
        refine ⟨rfl, rfl, Nat.le_of_eq hkept, fun _ => ⟨hkept, hmatched, ?_⟩⟩
        simp only [Standing.Joined, hentries]
        exact hjoined

theorem handleAppend_cases {request : AppendRequest}
    {response : AppendResponse} {restart : Bool} {after : Node L σ}
    (happend : node.handleAppend request = ((response, restart), after)) :
    Proceeds steady (.append request) node after ∧
      (Fit steady node.log → after.standing.Confirms request response) := by
  rw [handleAppend_eq] at happend
  split at happend
  · rename_i hstale
    simp only [Prod.mk.injEq] at happend
    obtain ⟨⟨rfl, -⟩, rfl⟩ := happend
    refine ⟨Proceeds.refl _ node, fun _ answer hanswer => ?_⟩
    simp only [appended, Response.ok.injEq] at hanswer
    subst hanswer
    exact ⟨rfl, rfl, Nat.le_of_lt hstale, by simp⟩
  · rename_i hterm
    obtain ⟨hreceptive, hsame, hrole⟩ : Proceeds steady (.append request) node
        (node.receptive request) ∧ _ := receptive_cases hterm
    refine ⟨fun hlog => ?_, fun hlog =>
      (receive_cases (hreceptive hlog).1 hsame.symm hrole happend).2⟩
    exact hreceptive.trans (receive_cases (hreceptive hlog).1 hsame.symm hrole
      happend).1 hlog

/-- Noting an answer changes the leadership as the standing tells. -/
theorem heed_bare (leadership : Leadership) (peer : NodeId)
    (appended : Appended) (next last : Nat) :
    (leadership.heed peer appended next last).bare =
      leadership.bare.heed peer appended next last := by
  unfold Leadership.heed
  simp only
  split <;> rfl

/-- A leader that has noted a peer's answer. -/
theorem proceeds_heed {peer : NodeId} {appended : Appended}
    {leadership : Leadership} {next : Nat}
    (hterm : appended.term = node.term) (hrole : node.role = .leader)
    (hleadership : node.leadership = some leadership)
    (hnext : leadership.nextIndex.get? peer = some next) :
    Proceeds steady (.appendResponse peer (.ok appended)) node
      { node with
        leadership := some (leadership.heed peer appended next
          (LogStore.lastIndex node.log)) } := by
  refine proceeds_of_move rfl (fun hlog => ?_)
  have hbare : node.standing.leadership = some leadership.bare := by
    simp [standing, hleadership]
  have hmove : Move steady (.appendResponse peer (.ok appended))
      node.standing _ := .heed rfl hterm hrole hbare hnext
  simpa only [standing, Option.map_some, heed_bare, lastIndex_eq_length hlog.sound]
    using hmove

theorem proceeds_acceptProgress (node : Node L σ) (leadership : Leadership)
    (peer : NodeId) (index : Nat) :
    Proceeds steady input
      { node with
        leadership := some (Leadership.progress leadership peer
          (max (leadership.matchIndex.getD peer 0)
            (min index (LogStore.lastIndex node.log)))) }
      (node.acceptProgress leadership peer index).2 := by
  unfold acceptProgress
  dsimp only
  split
  · exact (proceeds_advanceCommit _).trans (proceeds_sendAppends _ _)
  · exact proceeds_advanceCommit _

omit [FaithfulLog L] [StateMachine σ] in
theorem acceptRefusal_eq {leadership : Leadership} {peer : NodeId}
    {next hint : Nat} {after : Node L σ}
    (hrefusal : node.acceptRefusal leadership peer next hint = .ok after) :
    after = sendAppends { node with
      leadership := some (Leadership.retreat leadership peer
        (max 1 (min (next - 1) (hint + 1)))) } [peer] := by
  simp only [acceptRefusal, successor, bind, Except.bind] at hrefusal
  split at hrefusal
  · simp at hrefusal
  · rename_i following hfollowing
    split at hfollowing
    · simp at hfollowing
    · simp only [Except.ok.injEq] at hfollowing
      simp only [pure, Except.pure, Except.ok.injEq] at hrefusal
      rw [← hrefusal, ← hfollowing]

theorem handleAppendResponse_cases {peer : NodeId}
    {response : AppendResponse} {outcome : Bool} {after : Node L σ}
    (happend : node.handleAppendResponse peer response =
      .ok (outcome, after)) :
    Proceeds steady (.appendResponse peer response) node after := by
  unfold handleAppendResponse at happend
  split at happend
  · obtain ⟨-, rfl⟩ := Prod.mk.inj (Except.ok.inj happend)
    exact Proceeds.refl _ node
  · rename_i appended
    split at happend
    · obtain ⟨-, rfl⟩ := Prod.mk.inj (Except.ok.inj happend)
      exact proceeds_becomeFollower node _
    · rename_i hnewer
      split at happend
      · obtain ⟨-, rfl⟩ := Prod.mk.inj (Except.ok.inj happend)
        exact Proceeds.refl _ node
      · rename_i hleads
        have hterm : appended.term = node.term := by
          have hnotOlder : ¬appended.term < node.term := fun hlt =>
            hleads (Or.inr hlt)
          omega
        have hrole : node.role = .leader :=
          Decidable.of_not_not (fun hne => hleads (Or.inl hne))
        split at happend
        · obtain ⟨-, rfl⟩ := Prod.mk.inj (Except.ok.inj happend)
          exact Proceeds.refl _ node
        · rename_i leadership hleadership
          split at happend
          · obtain ⟨-, rfl⟩ := Prod.mk.inj (Except.ok.inj happend)
            exact Proceeds.refl _ node
          · rename_i next hnext
            have hheeded : Proceeds steady _ node _ :=
              proceeds_heed hterm hrole hleadership hnext
            split at happend
            · rename_i hsucceeded
              rw [Leadership.heed, if_pos hsucceeded] at hheeded
              obtain ⟨-, rfl⟩ := Prod.mk.inj (Except.ok.inj happend)
              exact (hheeded.trans (proceeds_acceptProgress _ _ _ _)).trans
                (proceeds_serveQueries _)
            · rename_i hrefused
              rw [Leadership.heed, if_neg hrefused] at hheeded
              dsimp only at happend
              obtain ⟨tried, htried, heq⟩ := exists_of_bind happend
              obtain ⟨-, rfl⟩ := Prod.mk.inj (Except.ok.inj heq)
              rw [acceptRefusal_eq htried]
              exact (hheeded.trans (proceeds_sendAppends _ _)).trans
                (proceeds_serveQueries _)

theorem proceeds_acknowledgeEvents (node : Node L σ) (session : SessionId)
    (sequence : Int) :
    Proceeds steady input node (node.acknowledgeEvents session sequence) := by
  unfold acknowledgeEvents
  split
  · exact Proceeds.refl input node
  · split
    · exact proceeds_of_move rfl (fun _ =>
        (Move.acknowledge session sequence :
          Move steady input node.standing _))
    · rename_i record _ _
      exact (quiet_modifyLeadership node (f := fun leadership =>
        { leadership with
          publisher :=
            leadership.publisher.resendFrom session record.eventAck })
        (fun _ => rfl)).proceeds

/-- The node once a command is appended at an index. -/
def issued (node : Node L σ) (command : PendingCommand) (index : Nat)
    (log : L) : Node L σ :=
  ({ node with log := log }.modifyLeadership (fun leadership =>
    { leadership with
      sequencer := leadership.sequencer.appended command.request.session
        command.request.sequence index })).await
    index (command.tickets.map .command)

/-- The node once a command cannot be appended: it is refused with all that
were due after it, and so is what is held of its session. -/
def lost (node : Node L σ) (command : PendingCommand)
    (commands : List PendingCommand) : Node L σ :=
  (node.failCommands (command :: commands) .internalError).forgetCommands
    command.request.session .internalError

omit [StateMachine σ] in
theorem quiet_lost (node : Node L σ) (command : PendingCommand)
    (commands : List PendingCommand) : Quiet node (node.lost command commands) :=
  (quiet_failCommands _ _ _).trans (quiet_forgetCommands _ _ _)

/-- Commands that are due are appended, one after the other, up to the first
that cannot be. -/
inductive Appends : Node L σ → List PendingCommand → Node L σ → Prop where
  | done {node : Node L σ} : Appends node [] node
  | issue {node after : Node L σ} {command : PendingCommand}
      {commands : List PendingCommand} {index : Nat} {log : L}
      (happend : LogStore.append node.log node.term (.command
        command.request.session command.request.sequence node.now
          command.request.command) = (.ok index, log))
      (hrest : Appends (node.issued command index log) commands after) :
      Appends node (command :: commands) after
  | lose {node : Node L σ} {command : PendingCommand}
      {commands : List PendingCommand} {fault : LogFault} {log : L}
      (happend : LogStore.append node.log node.term (.command
        command.request.session command.request.sequence node.now
          command.request.command) = (.error fault, log)) :
      Appends node (command :: commands)
        (lost { node with log := log } command commands)

omit [FaithfulLog L] [StateMachine σ] in
theorem appends_appendReady (node : Node L σ)
    (commands : List PendingCommand) :
    Appends node commands (node.appendReady commands) := by
  induction commands generalizing node with
  | nil => exact .done
  | cons command commands ih =>
      unfold appendReady
      dsimp only
      split
      · rename_i fault log happend
        exact .lose happend
      · rename_i index log happend
        exact .issue happend (ih _)

theorem Appends.proceeds {after : Node L σ} {commands : List PendingCommand}
    (happends : Appends node commands after) (hrole : node.role = .leader) :
    Proceeds steady input node after := by
  induction happends with
  | done => exact Proceeds.refl input _
  | @issue node after command commands index log happend _ ih =>
      refine (proceeds_append hrole happend).trans (Proceeds.trans ?_
        (ih hrole))
      exact ((quiet_modifyLeadership { node with log := log }
        (f := fun leadership => { leadership with
          sequencer := leadership.sequencer.appended command.request.session
            command.request.sequence index })
        (fun _ => rfl)).trans (quiet_await _ _ _)).proceeds
  | lose happend =>
      exact (proceeds_append hrole happend).trans (quiet_lost _ _ _).proceeds

theorem proceeds_follow (hrole : node.role = .leader) (session : Session)
    (submission : Submission) :
    Proceeds steady input node (node.follow session submission) := by
  unfold follow
  cases submission with
  | ready commands =>
      exact ((appends_appendReady node commands).proceeds hrole).trans
        (proceeds_replicate _)
  | held => exact Proceeds.refl input node
  | inFlight index command => exact (quiet_await _ _ _).proceeds
  | stale command => exact (quiet_answerAll _ _ (by simp)).proceeds

theorem proceeds_submitCommand {ticket : Ticket} {request : CommandRequest}
    {after : Node L σ} (hsubmit : node.submitCommand ticket request = .ok after) :
    Proceeds steady input node after := by
  have hrefused : ∀ response, Except.ok (node.answer ticket (.command response)) =
      (.ok after : Except Overflow (Node L σ)) →
      Proceeds steady input node after := by
    intro response heq
    simp only [Except.ok.injEq] at heq
    exact heq ▸ (quiet_answer node ticket (by simp)).proceeds
  unfold submitCommand at hsubmit
  split at hsubmit
  · exact hrefused _ hsubmit
  · rename_i hrole
    have hrole : node.role = .leader := Decidable.of_not_not hrole
    split at hsubmit
    · exact hrefused _ hsubmit
    · rename_i session _
      split at hsubmit
      · exact hrefused _ hsubmit
      · split at hsubmit
        · exact hrefused _ hsubmit
        · rename_i leadership hleadership
          simp only [bind, Except.bind] at hsubmit
          split at hsubmit
          · simp at hsubmit
          · rename_i submitted _
            simp only [pure, Except.pure, Except.ok.injEq] at hsubmit
            rw [← hsubmit]
            exact (quiet_leadership { leadership with
              sequencer := submitted.1 } hleadership rfl).proceeds.trans
                (proceeds_follow (by exact hrole) _ _)

/-- What comes once a query waits. -/
theorem proceeds_waiting (node : Node L σ) (query : PendingQuery) :
    Proceeds steady input { node with queries := node.queries ++ [query] }
      (node.enqueue query) := by
  unfold enqueue
  dsimp only
  split
  · exact proceeds_serveQueries _
  · exact (proceeds_replicate _).trans (proceeds_serveQueries _)

theorem proceeds_enqueue {ticket : Ticket} {request : QueryRequest}
    {query : PendingQuery} (hticket : query.ticket = ticket)
    (hrequest : query.request = request)
    (hround : isFresh query = true → ∃ leadership,
      node.leadership = some leadership ∧
        query.round = leadership.round + 1) :
    Proceeds steady (.query ticket request) node (node.enqueue query) := by
  have hask : Proceeds steady (.query ticket request) node
      { node with queries := node.queries ++ [query] } := by
    refine proceeds_of_move rfl (fun _ => (Move.ask rfl hticket hrequest
      (fun hfresh => ?_) : Move steady _ node.standing _))
    obtain ⟨leadership, hleadership, hnext⟩ := hround hfresh
    exact ⟨leadership.bare, by simp [standing, hleadership], hnext⟩
  exact hask.trans (proceeds_waiting node query)

theorem proceeds_submitQuery (node : Node L σ) (ticket : Ticket)
    (request : QueryRequest) :
    Proceeds steady (.query ticket request) node (node.submitQuery ticket request) := by
  unfold submitQuery
  split
  · rename_i hconsistency
    exact proceeds_enqueue rfl rfl (fun hfresh => by
      simp [isFresh, hconsistency] at hfresh)
  · exact (quiet_answer node ticket (by simp)).proceeds
  · rename_i leadership _ hleadership
    exact proceeds_enqueue rfl rfl (fun _ => ⟨leadership, hleadership, rfl⟩)

theorem proceeds_appendOperation {waiter : Waiter} {operation : Operation}
    {next : Node L σ → Node L σ}
    (hnext : ∀ node, Proceeds steady input node (next node)) :
    Proceeds steady input node (node.appendOperation waiter operation next) := by
  have hanswer : ∀ node : Node L σ, ∀ kind, Proceeds steady input node
      (node.answer waiter.ticket (waiter.refusal kind)) := fun node kind =>
    (quiet_answer node _ (by cases waiter <;> simp [Waiter.refusal])).proceeds
  unfold appendOperation
  split
  · exact hanswer node _
  · rename_i hrole
    have hrole : node.role = .leader := Decidable.of_not_not hrole
    split
    · rename_i fault log happend
      exact (proceeds_append hrole happend).trans (hanswer _ _)
    · rename_i index log happend
      exact ((proceeds_append hrole happend).trans
        (quiet_await _ _ _).proceeds).trans (hnext _)

theorem proceeds_submitKeepAlive (node : Node L σ) (ticket : Ticket)
    (request : KeepAliveRequest) :
    Proceeds steady input node (node.submitKeepAlive ticket request) := by
  unfold submitKeepAlive
  dsimp only
  split
  · exact (quiet_answer node ticket (by simp)).proceeds
  · exact proceeds_appendOperation (fun node =>
      ((proceeds_acknowledgeEvents node _ _).trans
        (proceeds_replicate _)).trans (quiet_publishEvents _).proceeds)

theorem proceeds_submitUnregister (node : Node L σ) (ticket : Ticket)
    (request : UnregisterRequest) :
    Proceeds steady input node (node.submitUnregister ticket request) := by
  unfold submitUnregister
  split
  · exact (quiet_answer node ticket (by simp)).proceeds
  · exact proceeds_appendOperation proceeds_replicate

theorem proceeds_publish (node : Node L σ) (request : PublishRequest) :
    Proceeds steady input node (node.publish request).2 := by
  unfold publish
  split
  · exact Proceeds.refl input node
  · dsimp only
    split
    · exact Proceeds.refl input node
    · exact (proceeds_acknowledgeEvents node _ _).trans
        (quiet_publishEvents _).proceeds

/-- What a node does about an input, what it tells and what becomes of it. -/
inductive StepsTo (node : Node L σ) : Input → Output → Node L σ → Prop where
  | clock (now : Nat) : StepsTo node (.clock now) .none { node with now := now }
  | electionTimeout {asked : Option VoteRequest} {after : Node L σ}
      (hstart : node.startElection = .ok (asked, after)) :
      StepsTo node .electionTimeout (.election asked) after
  | heartbeat : StepsTo node .heartbeat .none node.heartbeat
  | vote {request : VoteRequest} {response : VoteResponse} {restart : Bool}
      {after : Node L σ}
      (hvote : node.handleVote request = ((response, restart), after)) :
      StepsTo node (.vote request) (.vote response restart) after
  | voteResponse {sender : NodeId} {response : VoteResponse} {outcome : Bool}
      {after : Node L σ}
      (hheeded : node.handleVoteResponse sender response = (outcome, after)) :
      StepsTo node (.voteResponse sender response) (.won outcome) after
  | append {request : AppendRequest} {response : AppendResponse}
      {restart : Bool} {after : Node L σ}
      (happend : node.handleAppend request = ((response, restart), after)) :
      StepsTo node (.append request) (.append response restart) after
  | appendResponse {sender : NodeId} {response : AppendResponse}
      {outcome : Bool} {after : Node L σ}
      (hheeded : node.handleAppendResponse sender response =
        .ok (outcome, after)) :
      StepsTo node (.appendResponse sender response) (.advanced outcome) after
  | command {ticket : Ticket} {request : CommandRequest} {after : Node L σ}
      (hsubmit : node.submitCommand ticket request = .ok after) :
      StepsTo node (.command ticket request) .none after
  | query (ticket : Ticket) (request : QueryRequest) :
      StepsTo node (.query ticket request) .none
        (node.submitQuery ticket request)
  | register (ticket : Ticket) (request : RegisterRequest) :
      StepsTo node (.register ticket request) .none
        (node.submitRegister ticket request)
  | keepAlive (ticket : Ticket) (request : KeepAliveRequest) :
      StepsTo node (.keepAlive ticket request) .none
        (node.submitKeepAlive ticket request)
  | unregister (ticket : Ticket) (request : UnregisterRequest) :
      StepsTo node (.unregister ticket request) .none
        (node.submitUnregister ticket request)
  | publish (request : PublishRequest) :
      StepsTo node (.publish request) (.published (node.publish request).1)
        (node.publish request).2
  | shutdown : StepsTo node .shutdown .none node.shutdown

omit [FaithfulLog L] in
theorem stepsTo {output : Output} {after : Node L σ}
    (hstep : node.step input = .ok (output, after)) :
    node.StepsTo input output after := by
  cases input with
  | electionTimeout =>
      obtain ⟨_, hstart, heq⟩ := exists_of_bind hstep
      obtain ⟨rfl, rfl⟩ := Prod.mk.inj (Except.ok.inj heq)
      exact .electionTimeout hstart
  | appendResponse sender response =>
      obtain ⟨_, hheeded, heq⟩ := exists_of_bind hstep
      obtain ⟨rfl, rfl⟩ := Prod.mk.inj (Except.ok.inj heq)
      exact .appendResponse hheeded
  | command ticket request =>
      obtain ⟨_, hsubmit, heq⟩ := exists_of_bind hstep
      obtain ⟨rfl, rfl⟩ := Prod.mk.inj (Except.ok.inj heq)
      exact .command hsubmit
  | _ =>
      obtain ⟨rfl, rfl⟩ := Prod.mk.inj (Except.ok.inj hstep)
      constructor <;> rfl

/-- A step is a chain of moves. -/
theorem step_proceeds {output : Output} {after : Node L σ}
    (hstep : node.step input = .ok (output, after)) :
    Proceeds steady input node after := by
  cases stepsTo hstep with
  | clock now => exact Quiet.proceeds ⟨rfl, rfl⟩
  | electionTimeout hstart => exact (startElection_cases hstart).1
  | heartbeat => exact proceeds_replicate node
  | vote hvote => exact (handleVote_cases hvote).1
  | voteResponse hheeded => exact (handleVoteResponse_cases hheeded).1
  | append happend => exact (handleAppend_cases happend).1
  | appendResponse hheeded => exact handleAppendResponse_cases hheeded
  | command hsubmit => exact proceeds_submitCommand hsubmit
  | query ticket request => exact proceeds_submitQuery node ticket request
  | register _ _ => exact proceeds_appendOperation proceeds_replicate
  | keepAlive ticket request =>
      exact proceeds_submitKeepAlive node ticket request
  | unregister ticket request =>
      exact proceeds_submitUnregister node ticket request
  | publish request => exact proceeds_publish node request
  | shutdown => exact proceeds_shutdown node

/-- What a step tells about a vote holds of the node it leaves. -/
theorem step_vouches {request : VoteRequest} {response : VoteResponse}
    {restart : Bool} {after : Node L σ}
    (hstep : node.step (.vote request) = .ok (.vote response restart, after))
    (hlog : Sound node.log) : after.standing.Vouches request response := by
  cases stepsTo hstep with
  | vote hvote => exact (handleVote_cases hvote).2 (Fit.of_sound hlog)

/-- What a step tells about entries holds of the node it leaves. -/
theorem step_confirms {request : AppendRequest} {response : AppendResponse}
    {restart : Bool} {after : Node L σ}
    (hstep : node.step (.append request) =
      .ok (.append response restart, after))
    (hlog : Sound node.log) : after.standing.Confirms request response := by
  cases stepsTo hstep with
  | append happend => exact (handleAppend_cases happend).2 (Fit.of_sound hlog)

/-- A step that tells of a won election wins it. -/
theorem step_wins {output : Output} {after : Node L σ}
    (hstep : node.step input = .ok (output, after)) (hlog : Fit steady node.log)
    (hwon : output = .won true ∨
      (∃ request, output = .election (some request)) ∧ after.quorum ≤ 1) :
    Wins steady input node.standing after.standing := by
  rcases hwon with rfl | ⟨⟨request, rfl⟩, hquorum⟩
  · cases stepsTo hstep with
    | voteResponse hheeded => exact (handleVoteResponse_cases hheeded).2 rfl hlog
  · cases stepsTo hstep with
    | electionTimeout hstart =>
        exact (startElection_cases hstart).2 rfl hquorum hlog

end Node

end SessionRaft
