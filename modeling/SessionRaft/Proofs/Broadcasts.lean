/-
What a step of a node queues to have the log copied.  A step queues nothing for
the peers, replies to one of them or broadcasts once; and what it queues
describes the log of the node that it leaves.
-/
import SessionRaft.Proofs.Attendance
import SessionRaft.Proofs.Deliveries
import SessionRaft.Proofs.Exchanges

namespace SessionRaft

open FaithfulLog

/-- A request with entries, and the peer that is to receive it. -/
def Outbound.request? : Outbound → Option (NodeId × AppendRequest)
  | .append receiver request => some (receiver, request)
  | _ => none

theorem Outbound.request?_eq_some {message : Outbound} {receiver : NodeId}
    {request : AppendRequest} :
    message.request? = some (receiver, request) ↔
      message = .append receiver request := by
  cases message <;> simp [request?]

/-- Whether an input is a peer's answer to a request with entries. -/
def Input.isAnswer : Input → Bool
  | appendResponse _ _ => true
  | _ => false

namespace Node

section Requests

variable {L σ : Type}

/-- The requests with entries that nobody has taken yet. -/
def requests (node : Node L σ) : List (NodeId × AppendRequest) :=
  node.outbox.filterMap Outbound.request?

theorem mem_requests {node : Node L σ} {receiver : NodeId}
    {request : AppendRequest} :
    (receiver, request) ∈ node.requests ↔
      .append receiver request ∈ node.outbox := by
  simp only [requests, List.mem_filterMap, Outbound.request?_eq_some,
    exists_eq_right]

/-- A leadership that goes on was there before, so many broadcasts earlier. -/
def Resumes (count : Nat) (before after : Node L σ) : Prop :=
  ∀ later, after.leadership = some later → after.term = before.term ∧
    ∃ leadership, before.leadership = some leadership ∧
      later.round = leadership.round + count

/-- Nothing is queued for the peers, and nothing is broadcast. -/
structure Mute (before after : Node L σ) : Prop where
  peers : after.peers = before.peers
  requests : after.requests = before.requests
  rounds : Resumes 0 before after

variable {count : Nat} {node before middle after : Node L σ}

theorem Mute.of_none (hpeers : after.peers = before.peers)
    (hrequests : after.requests = before.requests)
    (hleadership : after.leadership = none) : Mute before after :=
  ⟨hpeers, hrequests, fun _ hsome => by simp [hleadership] at hsome⟩

theorem Mute.of_same (hpeers : after.peers = before.peers)
    (hrequests : after.requests = before.requests)
    (hterm : after.term = before.term)
    (hleadership : after.leadership = before.leadership) : Mute before after :=
  ⟨hpeers, hrequests, fun later hlater =>
    ⟨hterm, later, hleadership ▸ hlater, rfl⟩⟩

theorem Mute.refl (node : Node L σ) : Mute node node :=
  .of_same rfl rfl rfl rfl

/-- What comes before a broadcast does not count. -/
theorem Mute.resumes (hmute : Mute before middle)
    (hresumes : Resumes count middle after) : Resumes count before after := by
  intro later hlater
  obtain ⟨hterm, between, hbetween, hround⟩ := hresumes later hlater
  obtain ⟨hsame, leadership, hleadership, hearlier⟩ :=
    hmute.rounds between hbetween
  exact ⟨hterm.trans hsame, leadership, hleadership, by omega⟩

theorem Resumes.mute (hresumes : Resumes count before middle)
    (hmute : Mute middle after) : Resumes count before after := by
  intro later hlater
  obtain ⟨hterm, between, hbetween, hround⟩ := hmute.rounds later hlater
  obtain ⟨hsame, leadership, hleadership, hearlier⟩ :=
    hresumes between hbetween
  exact ⟨hterm.trans hsame, leadership, hleadership, by omega⟩

theorem Mute.trans (hfirst : Mute before middle) (hsecond : Mute middle after) :
    Mute before after :=
  ⟨hsecond.peers.trans hfirst.peers, hsecond.requests.trans hfirst.requests,
    hfirst.resumes hsecond.rounds⟩

end Requests

variable {L σ : Type} [LogStore L] [FaithfulLog L]
  {count : Nat} {input : Input} {receivers : List NodeId}
  {node before middle after : Node L σ}

/-- The requests are part of the mail. -/
theorem requests_eq (node : Node L σ) :
    node.requests = node.standing.mail.filterMap Outbound.request? := by
  simp only [requests, standing, List.filterMap_filter]
  congr 1
  funext message
  cases message <;> rfl

/-- What the peers are told depends on part of the standing only. -/
theorem Mute.of_standing (other : Standing σ)
    (hstanding : after.standing = { other with
      id := before.id
      members := before.members
      term := before.term
      mail := before.standing.mail
      leadership := before.standing.leadership }) : Mute before after := by
  have hid : after.id = before.id := congrArg Standing.id hstanding
  have hmembers : after.members = before.members :=
    congrArg Standing.members hstanding
  refine ⟨by rw [Node.peers, Node.peers, hid, hmembers], ?_,
    fun later hlater => ?_⟩
  · rw [requests_eq, requests_eq, hstanding]
  · have hbare : before.leadership.map Leadership.bare = some later.bare := by
      have hsame := congrArg Standing.leadership hstanding
      simp only [standing, hlater, Option.map_some] at hsame
      exact hsame.symm
    obtain ⟨leadership, hleadership, hsame⟩ := Option.map_eq_some_iff.mp hbare
    have hround : leadership.bare.round = later.bare.round :=
      congrArg Leadership.round hsame
    exact ⟨congrArg Standing.term hstanding, leadership, hleadership,
      hround.symm⟩

theorem Quiet.mute (hquiet : Quiet before after) : Mute before after :=
  .of_standing before.standing hquiet.standing

theorem Outlasts.leads (houtlasts : Outlasts before after) :
    after.leadership.isSome = before.leadership.isSome := by
  obtain ⟨-, -, _, _, _, _, hstanding⟩ := houtlasts
  have hbare := congrArg Option.isSome
    (congrArg Standing.leadership hstanding)
  simp only [Node.standing, Option.isSome_map] at hbare
  exact hbare

theorem Outlasts.mute (houtlasts : Outlasts before after) :
    Mute before after := by
  obtain ⟨-, -, applied, executor, queries, served, hstanding⟩ := houtlasts
  exact .of_standing { before.standing with
    lastApplied := applied
    executor := executor
    queries := queries
    served := served } hstanding

/-- Who follows has nothing to send. -/
theorem mute_becomeFollower (node : Node L σ) (term : Nat) :
    Mute node (node.becomeFollower term) := by
  have hspared := spared_becomeFollower node term
  refine .of_none ?_ ?_ ?_
  · rw [peers, peers, hspared.id, hspared.members]
  · rw [requests, requests, hspared.outbox]
  · exact becomeFollower_leadership node term

omit [LogStore L] [FaithfulLog L] in
/-- A log that was written to is not sent yet. -/
theorem mute_log (node : Node L σ) (log : L) :
    Mute node { node with log := log } :=
  .of_same rfl rfl rfl rfl

theorem Appends.mute {commands : List PendingCommand}
    (happends : Appends node commands after) : Mute node after := by
  induction happends with
  | done => exact .refl _
  | @issue node _ command _ index log _ _ ih =>
      have hissued : Quiet { node with log := log }
          (node.issued command index log) :=
        (quiet_modifyLeadership { node with log := log }
          (f := fun leadership => { leadership with
            sequencer := leadership.sequencer.appended command.request.session
              command.request.sequence index }) (fun _ => rfl)).trans
          (quiet_await _ _ _)
      exact ((mute_log node log).trans hissued.mute).trans ih
  | @lose node command commands _ log _ =>
      exact (mute_log node log).trans (quiet_lost _ command commands).mute

theorem mute_admitted (node : Node L σ) (record : Session)
    (submission : Submission) :
    Mute node (node.admitted record submission) := by
  cases submission with
  | ready commands => exact (appends_appendReady node commands).mute
  | held => exact .refl node
  | inFlight index command => exact (quiet_await node _ _).mute
  | stale command => exact (quiet_answerAll node _ (by simp)).mute

/-! ### What the peers are due -/

/-- A request that a node would make for a peer, but for what was committed
since. -/
def Owes (node : Node L σ) (peer : NodeId) (request : AppendRequest) : Prop :=
  request.commitIndex ≤ node.commitIndex ∧ node.createAppend? peer =
    some { request with commitIndex := node.commitIndex }

/-- Some peers are sent what they are due, each one request. -/
def Posts (receivers : List NodeId) (before after : Node L σ) : Prop :=
  ∃ due : NodeId → AppendRequest,
    after.requests = before.requests ++
      receivers.map (fun peer => (peer, due peer)) ∧
    ∀ peer, after.Owes peer (due peer)

omit [FaithfulLog L] in
theorem posts_sendAppends (hsome : node.leadership.isSome = true)
    (receivers : List NodeId) :
    Posts receivers node (node.sendAppends receivers) := by
  obtain ⟨leadership, hleadership⟩ := Option.isSome_iff_exists.mp hsome
  obtain ⟨due, hdue⟩ : ∃ due, ∀ peer, node.createAppend? peer =
      some (due peer) ∧ (due peer).commitIndex = node.commitIndex :=
    ⟨fun peer => _, fun peer =>
      ⟨by rw [createAppend?, hleadership, Option.map_some], rfl⟩⟩
  refine ⟨due, ?_, fun peer => ?_⟩
  · simp only [sendAppends, send, requests, List.filterMap_append]
    congr 1
    simp [hdue, Outbound.request?, List.filterMap_map, Function.comp_def]
  · obtain ⟨hcreate, hcommit⟩ := hdue peer
    refine ⟨Nat.le_of_eq hcommit, ?_⟩
    have hsame : (node.sendAppends receivers).commitIndex =
      (due peer).commitIndex := hcommit.symm
    rw [hsame]
    exact hcreate

omit [FaithfulLog L] in
/-- What a peer is due depends on no more than this of a node. -/
theorem createAppend?_congr (hlog : after.log = before.log)
    (hconfig : after.config = before.config) (hid : after.id = before.id)
    (hterm : after.term = before.term)
    (hcommit : after.commitIndex = before.commitIndex)
    (hbare : after.leadership.map Leadership.bare =
      before.leadership.map Leadership.bare) (peer : NodeId) :
    after.createAppend? peer = before.createAppend? peer := by
  have hwhole : ∀ node : Node L σ, node.createAppend? peer =
      (node.leadership.map Leadership.bare).bind (fun leadership =>
        createAppend? { node with leadership := some leadership } peer) := by
    intro node
    cases hleadership : node.leadership with
    | none => simp only [createAppend?, hleadership]; rfl
    | some leadership => simp only [createAppend?, hleadership]; rfl
  rw [hwhole after, hwhole before, hbare]
  congr 1
  funext leadership
  simp only [createAppend?, nextFor, hlog, hconfig, hid, hterm, hcommit]

theorem Owes.outlasts {peer : NodeId} {request : AppendRequest}
    (howes : before.Owes peer request) (houtlasts : Outlasts before after) :
    after.Owes peer request := by
  obtain ⟨hle, hcreate⟩ := howes
  obtain ⟨hlog, hconfig, _, _, _, _, hstanding⟩ := houtlasts
  have hcommit : after.commitIndex = before.commitIndex :=
    congrArg Standing.commitIndex hstanding
  refine ⟨hcommit ▸ hle, ?_⟩
  rw [hcommit, ← hcreate]
  exact createAppend?_congr hlog hconfig (congrArg Standing.id hstanding)
    (congrArg Standing.term hstanding) hcommit
    (congrArg Standing.leadership hstanding) peer

omit [FaithfulLog L] in
theorem Owes.commits {peer : NodeId} {request : AppendRequest}
    (howes : node.Owes peer request) {target : Nat}
    (hle : node.commitIndex ≤ target) :
    Owes { node with commitIndex := target } peer request := by
  obtain ⟨hbefore, hcreate⟩ := howes
  refine ⟨Nat.le_trans hbefore hle, ?_⟩
  obtain ⟨leadership, hleadership, hrequest⟩ :=
    Option.map_eq_some_iff.mp hcreate
  have hlater := congrArg (fun request : AppendRequest =>
    { request with commitIndex := target }) hrequest
  exact Option.map_eq_some_iff.mpr ⟨leadership, hleadership, hlater⟩

theorem Posts.outlasts (hposts : Posts receivers before middle)
    (houtlasts : Outlasts middle after) : Posts receivers before after := by
  obtain ⟨due, hrequests, howes⟩ := hposts
  exact ⟨due, houtlasts.mute.requests.trans hrequests,
    fun peer => (howes peer).outlasts houtlasts⟩

omit [FaithfulLog L] in
theorem Mute.posts (hmute : Mute before middle)
    (hposts : Posts receivers middle after) : Posts receivers before after := by
  obtain ⟨due, hrequests, howes⟩ := hposts
  exact ⟨due, hmute.requests ▸ hrequests, howes⟩

section Steps

variable [StateMachine σ]

omit [FaithfulLog L] in
/-- What is committed stays committed. -/
theorem commitIndex_le_advanceCommit (node : Node L σ) :
    node.commitIndex ≤ node.advanceCommit.2.commitIndex := by
  unfold advanceCommit
  cases htarget : node.leadership.bind node.commitTarget? with
  | none => exact Nat.le_refl _
  | some target =>
      obtain ⟨leadership, -, htarget⟩ := Option.bind_eq_some_iff.mp htarget
      have hcommit := congrArg Frame.commitIndex
        (applyCommitted_frame { node with commitIndex := target })
      exact Nat.le_trans (Nat.le_of_lt (commitTarget?_spec htarget).1)
        (Nat.le_of_eq hcommit.symm)

theorem mute_advanceCommit (node : Node L σ) :
    Mute node node.advanceCommit.2 := by
  obtain ⟨target, houtlasts⟩ := outlasts_advanceCommit node
  have hcommits : Mute node { node with commitIndex := target } :=
    .of_same rfl rfl rfl rfl
  exact hcommits.trans houtlasts.mute

theorem Posts.advanceCommit (hposts : Posts receivers before node) :
    Posts receivers before node.advanceCommit.2 := by
  obtain ⟨due, hrequests, howes⟩ := hposts
  obtain ⟨target, houtlasts⟩ := outlasts_advanceCommit node
  have hcommit : node.advanceCommit.2.commitIndex = target := by
    obtain ⟨-, -, _, _, _, _, hstanding⟩ := houtlasts
    exact congrArg Standing.commitIndex hstanding
  have hle := hcommit ▸ node.commitIndex_le_advanceCommit
  exact ⟨due, (mute_advanceCommit node).requests.trans hrequests,
    fun peer => ((howes peer).commits hle).outlasts houtlasts⟩

/-- A leader sends every peer what it is due and begins another round. -/
structure Rounds (before after : Node L σ) : Prop where
  peers : after.peers = before.peers
  posts : Posts before.peers before after
  counts : Resumes 1 before after

omit [StateMachine σ] in
theorem Rounds.outlasts (hrounds : Rounds before middle)
    (houtlasts : Outlasts middle after) : Rounds before after :=
  ⟨houtlasts.mute.peers.trans hrounds.peers,
    hrounds.posts.outlasts houtlasts, hrounds.counts.mute houtlasts.mute⟩

omit [FaithfulLog L] [StateMachine σ] in
theorem Mute.before_rounds (hmute : Mute before middle)
    (hrounds : Rounds middle after) : Rounds before after :=
  ⟨hrounds.peers.trans hmute.peers,
    hmute.peers ▸ hmute.posts hrounds.posts, hmute.resumes hrounds.counts⟩

/-- Nothing is sent, or every peer is sent what it is due. -/
def Tells (before after : Node L σ) : Prop :=
  Mute before after ∨ Rounds before after

omit [FaithfulLog L] [StateMachine σ] in
theorem Mute.tells (hmute : Mute before middle) (htells : Tells middle after) :
    Tells before after :=
  htells.imp hmute.trans hmute.before_rounds

omit [StateMachine σ] in
theorem Tells.outlasts (htells : Tells before middle)
    (houtlasts : Outlasts middle after) : Tells before after :=
  htells.imp (fun hmute => hmute.trans houtlasts.mute)
    (fun hrounds => hrounds.outlasts houtlasts)

/-- A peer that was answered by is sent what it is due, within the same
round. -/
structure Replies (peer : NodeId) (before after : Node L σ) : Prop where
  peers : after.peers = before.peers
  posts : Posts [peer] before after
  resumes : Resumes 0 before after

omit [FaithfulLog L] [StateMachine σ] in
theorem Mute.replies {peer : NodeId} (hmute : Mute before middle)
    (hsome : middle.leadership.isSome = true) :
    Replies peer before (middle.sendAppends [peer]) :=
  ⟨hmute.peers, hmute.posts (posts_sendAppends hsome [peer]),
    fun later hlater => hmute.rounds later hlater⟩

omit [StateMachine σ] in
theorem Replies.outlasts {peer : NodeId} (hreplies : Replies peer before middle)
    (houtlasts : Outlasts middle after) : Replies peer before after :=
  ⟨houtlasts.mute.peers.trans hreplies.peers,
    hreplies.posts.outlasts houtlasts, hreplies.resumes.mute houtlasts.mute⟩

theorem rounds_replicate (hsome : node.leadership.isSome = true) :
    Rounds node node.replicate := by
  have hposts : Posts node.peers node node.broadcast :=
    posts_sendAppends (by simpa [modifyLeadership] using hsome) node.peers
  have hcounts : Resumes 1 node node.broadcast := by
    intro later hlater
    obtain ⟨leadership, hleadership, rfl⟩ := Option.map_eq_some_iff.mp hlater
    exact ⟨rfl, leadership, hleadership, rfl⟩
  have hmute := mute_advanceCommit node.broadcast
  rw [replicate, if_pos hsome]
  exact ⟨hmute.peers, hposts.advanceCommit, hcounts.mute hmute⟩

theorem tells_replicate (node : Node L σ) : Tells node node.replicate := by
  by_cases hsome : node.leadership.isSome = true
  · exact Or.inr (rounds_replicate hsome)
  · rw [replicate, if_neg hsome]
    exact Or.inl (.refl node)

/-- A leadership begins with a broadcast, or it ends at once. -/
theorem beginTerm_cases (node : Node L σ)
    (hsome : node.leadership.isSome = true) :
    Mute node node.beginTerm ∧ node.beginTerm.leadership = none ∨
      Rounds node node.beginTerm := by
  unfold beginTerm
  rcases LogStore.append node.log node.term .noOp with ⟨outcome, log⟩
  rcases outcome with fault | index
  · exact Or.inl ⟨(mute_log node log).trans (mute_becomeFollower _ _),
      becomeFollower_leadership _ _⟩
  · have hnoop : Quiet { node with log := log }
        (modifyLeadership { node with log := log } (fun leadership =>
          { leadership with noopIndex := index })) :=
      quiet_modifyLeadership _ (fun _ => rfl)
    have hleads : (modifyLeadership { node with log := log }
        (fun leadership => { leadership with
          noopIndex := index })).leadership.isSome = true := by
      simpa [modifyLeadership] using hsome
    exact Or.inr (((mute_log node log).trans hnoop.mute).before_rounds
      ((rounds_replicate hleads).outlasts (outlasts_publishEvents _)))

/-- What a step queues for the peers. -/
inductive Sends (input : Input) (node after : Node L σ) : Prop where
  | mute (hmute : Mute node after)
  /-- One peer is sent what it is due once it has answered. -/
  | reply {peer : NodeId} {leadership : Leadership}
      (hanswer : input.isAnswer = true)
      (hleadership : node.leadership = some leadership)
      (hknown : (leadership.nextIndex.get? peer).isSome = true)
      (hreplies : Replies peer node after)
  | rounds (hanswer : input.isAnswer = false) (hrounds : Rounds node after)
  /-- A leader broadcasts for the first time in its term. -/
  | begins (hanswer : input.isAnswer = false)
      (hpeers : after.peers = node.peers) (hposts : Posts node.peers node after)
      (hfirst : ∀ leadership, after.leadership = some leadership →
        leadership.round = 1 ∧ node.term ≤ after.term ∧
          (node.term = after.term → node.role = .candidate))

omit [FaithfulLog L] [StateMachine σ] in
theorem Tells.sends (htells : Tells node after)
    (hanswer : input.isAnswer = false) : Sends input node after := by
  rcases htells with hmute | hrounds
  · exact .mute hmute
  · exact .rounds hanswer hrounds

/-- Whoever comes to lead broadcasts, unless it steps down again at once. -/
theorem becomeLeader_cases (node : Node L σ) :
    Mute node node.becomeLeader ∨
      Posts node.peers node node.becomeLeader ∧
        node.becomeLeader.peers = node.peers ∧
        ∀ leadership, node.becomeLeader.leadership = some leadership →
          leadership.round = 1 ∧ node.becomeLeader.term = node.term := by
  rcases node.crowned.beginTerm_cases rfl with
    ⟨hmute, hnone⟩ | ⟨hpeers, hposts, hcounts⟩
  · exact Or.inl (.of_none hmute.peers hmute.requests hnone)
  · refine Or.inr ⟨hposts, hpeers, fun later hlater => ?_⟩
    obtain ⟨hterm, leadership, hleadership, hround⟩ := hcounts later hlater
    obtain rfl := Option.some.inj hleadership
    exact ⟨hround, hterm⟩

omit [StateMachine σ] in
theorem mute_resigned (node : Node L σ) : Mute node node.resigned := by
  unfold resigned
  split
  · exact mute_becomeFollower node _
  · exact .refl node

omit [StateMachine σ] in
theorem resigned_term (node : Node L σ) : node.resigned.term = node.term := by
  unfold resigned
  split
  · rw [becomeFollower_term, Nat.max_self]
  · rfl

omit [StateMachine σ] [FaithfulLog L] in
/-- Asking for votes is not a request with entries. -/
theorem candidacy_requests (node : Node L σ) (log : L) (term : Nat) :
    (node.candidacy log term).requests = node.requests := by
  simp only [requests, candidacy, send, List.filterMap_append]
  rw [List.append_right_eq_self, List.filterMap_eq_nil_iff]
  intro message hmessage
  obtain ⟨peer, -, rfl⟩ := List.mem_map.mp hmessage
  rfl

theorem sends_startElection {asked : Option VoteRequest}
    (hstart : node.startElection = .ok (asked, after)) :
    Sends .electionTimeout node after := by
  have hresigned := mute_resigned node
  have hnone := resigned_leadership node
  have hterm := resigned_term node
  rw [startElection_eq] at hstart
  simp only [successor] at hstart
  split at hstart
  · simp [Except.map] at hstart
  simp only [Except.map, Except.ok.injEq] at hstart
  rw [show after = (node.resigned.campaign (node.resigned.term + 1)).2 from
    (congrArg Prod.snd hstart).symm]
  generalize node.resigned = start at hresigned hnone hterm
  unfold campaign
  rcases LogStore.saveVote start.log (start.term + 1) (some start.id) with
    ⟨outcome, log⟩
  rcases outcome with fault | ⟨⟩
  · exact .mute (.of_none hresigned.peers hresigned.requests hnone)
  · have hcandidacy : Mute node (start.candidacy log (start.term + 1)) :=
      .of_none hresigned.peers
        ((candidacy_requests start log _).trans hresigned.requests) hnone
    dsimp only
    split
    · rcases (start.candidacy log (start.term + 1)).becomeLeader_cases with
        hmute | ⟨hposts, hpeers, hfirst⟩
      · exact .mute (hcandidacy.trans hmute)
      · refine .begins rfl (hpeers.trans hcandidacy.peers)
          (hcandidacy.peers ▸ hcandidacy.posts hposts)
          (fun leadership hleadership => ?_)
        obtain ⟨hround, hled⟩ := hfirst leadership hleadership
        have hlater : (start.candidacy log (start.term + 1)).term =
          start.term + 1 := rfl
        exact ⟨hround, by omega, fun hsame => by omega⟩
    · exact .mute hcandidacy

omit [StateMachine σ] in
theorem mute_handleVote (node : Node L σ) (request : VoteRequest) :
    Mute node (node.handleVote request).2 := by
  have hadopted : Mute node (if node.term < request.term then
      node.becomeFollower request.term else node) := by
    split
    · exact mute_becomeFollower node _
    · exact .refl node
  unfold handleVote
  dsimp only
  generalize (if node.term < request.term then
    node.becomeFollower request.term else node) = voter at hadopted ⊢
  split
  · simp only [persistVote]
    rcases LogStore.saveVote voter.log voter.term (some request.candidate) with
      ⟨outcome, log⟩
    rcases outcome with fault | ⟨⟩ <;>
      exact hadopted.trans (.of_same rfl rfl rfl rfl)
  · exact hadopted

theorem sends_handleVoteResponse (node : Node L σ) (member : NodeId)
    (response : VoteResponse) :
    Sends (.voteResponse member response) node
      (node.handleVoteResponse member response).2 := by
  cases response with
  | error kind => exact .mute (.refl node)
  | ok vote =>
      simp only [handleVoteResponse]
      split
      · exact .mute (mute_becomeFollower node _)
      · split
        · rename_i hcounts
          have hcounted : Mute node (node.countVote member) ∧
              (node.countVote member).term = node.term := by
            unfold countVote
            split
            · exact ⟨.refl node, rfl⟩
            · exact ⟨.of_same rfl rfl rfl rfl, rfl⟩
          obtain ⟨hmuted, hterm⟩ := hcounted
          split
          · rcases (node.countVote member).becomeLeader_cases with
              hmute | ⟨hposts, hpeers, hfirst⟩
            · exact .mute (hmuted.trans hmute)
            · refine .begins rfl (hpeers.trans hmuted.peers)
                (hmuted.peers ▸ hmuted.posts hposts)
                (fun leadership hleadership => ?_)
              obtain ⟨hround, hled⟩ := hfirst leadership hleadership
              exact ⟨hround, Nat.le_of_eq (hled.trans hterm).symm,
                fun _ => hcounts.1⟩
          · exact .mute hmuted
        · exact .mute (.refl node)

theorem mute_handleAppend (node : Node L σ) (request : AppendRequest) :
    Mute node (node.handleAppend request).2 := by
  have hreceptive : Mute node (node.receptive request) := by
    unfold receptive
    split
    · exact (mute_becomeFollower node request.term).trans
        (.of_same rfl rfl rfl rfl)
    · exact .of_same rfl rfl rfl rfl
  rw [handleAppend_eq]
  split
  · exact .refl node
  · generalize node.receptive request = follower at hreceptive
    refine hreceptive.trans ?_
    unfold receive
    dsimp only
    split
    · exact .refl follower
    · split
      · exact .refl follower
      · split
        · exact mute_log follower _
        · rename_i matched log _
          have hcommits : Mute follower { follower with
              log := log
              commitIndex := max follower.commitIndex
                (min request.commitIndex matched) } :=
            .of_same rfl rfl rfl rfl
          exact hcommits.trans (outlasts_followCommit
            { follower with log := log } (min request.commitIndex matched)).mute

omit [LogStore L] [FaithfulLog L] [StateMachine σ] in
/-- What a leader notes of its peers does not reach them. -/
theorem mute_noting {leadership : Leadership} (noted : Leadership)
    (hleadership : node.leadership = some leadership)
    (hround : noted.round = leadership.round) :
    Mute node (node.noting noted) := by
  refine ⟨rfl, rfl, fun later hlater => ⟨rfl, leadership, hleadership, ?_⟩⟩
  rw [← Option.some.inj hlater, hround, Nat.add_zero]

theorem acceptProgress_replies {leadership : Leadership} (noted : Leadership)
    (hleadership : node.leadership = some leadership)
    (hround : noted.round = leadership.round) (peer : NodeId) (index : Nat) :
    Mute node (node.acceptProgress noted peer index).2 ∨
      Replies peer node (node.acceptProgress noted peer index).2 := by
  generalize hheld : max (noted.matchIndex.getD peer 0)
    (min index (LogStore.lastIndex node.log)) = held
  rcases hcommit : (node.noting
    (Leadership.progress noted peer held)).advanceCommit with
    ⟨advanced, leader⟩
  have hnoted : Mute node (node.noting (Leadership.progress noted peer held)) :=
    mute_noting _ hleadership hround
  have hmute := hnoted.trans (mute_advanceCommit _)
  obtain ⟨target, houtlasts⟩ := outlasts_advanceCommit
    (node.noting (Leadership.progress noted peer held))
  have hleads := houtlasts.leads
  rw [hcommit] at hmute hleads
  rw [acceptProgress_eq index hheld.symm hcommit]
  dsimp only
  split
  · exact Or.inr (hmute.replies hleads)
  · exact Or.inl hmute

theorem sends_handleAppendResponse {peer : NodeId}
    {response : AppendResponse} {outcome : Bool}
    (hheeded : node.handleAppendResponse peer response =
      .ok (outcome, after)) :
    Sends (.appendResponse peer response) node after := by
  unfold handleAppendResponse at hheeded
  split at hheeded
  · obtain ⟨-, rfl⟩ := Prod.mk.inj (Except.ok.inj hheeded)
    exact .mute (.refl node)
  rename_i appended
  split at hheeded
  · obtain ⟨-, rfl⟩ := Prod.mk.inj (Except.ok.inj hheeded)
    exact .mute (mute_becomeFollower node _)
  split at hheeded
  · obtain ⟨-, rfl⟩ := Prod.mk.inj (Except.ok.inj hheeded)
    exact .mute (.refl node)
  split at hheeded
  · obtain ⟨-, rfl⟩ := Prod.mk.inj (Except.ok.inj hheeded)
    exact .mute (.refl node)
  rename_i leadership hleadership
  split at hheeded
  · obtain ⟨-, rfl⟩ := Prod.mk.inj (Except.ok.inj hheeded)
    exact .mute (.refl node)
  rename_i next hnext
  have hanswers : ∀ {middle : Node L σ},
      Mute node middle ∨ Replies peer node middle →
      Sends (.appendResponse peer (.ok appended)) node
        middle.serveQueries := by
    rintro middle (hmute | hreplies)
    · exact .mute (hmute.trans (outlasts_serveQueries middle).mute)
    · exact .reply rfl hleadership (by rw [hnext]; rfl)
        (hreplies.outlasts (outlasts_serveQueries middle))
  split at hheeded
  · rw [show after = (node.acceptProgress (Leadership.acknowledge leadership
      peer appended.round) peer appended.lastLogIndex).2.serveQueries from
      (Prod.mk.inj (Except.ok.inj hheeded)).2.symm]
    exact hanswers (acceptProgress_replies
      (Leadership.acknowledge leadership peer appended.round) hleadership rfl
      peer _)
  · obtain ⟨tried, htried, heq⟩ := exists_of_bind hheeded
    obtain ⟨-, rfl⟩ := Prod.mk.inj (Except.ok.inj heq)
    rw [acceptRefusal_eq htried]
    exact hanswers (Or.inr (Mute.replies
      (mute_noting (Leadership.retreat _ _ _) hleadership rfl) rfl))

theorem tells_submitCommand {ticket : Ticket} {request : CommandRequest}
    (hsubmit : node.submitCommand ticket request = .ok after) :
    Tells node after := by
  unfold submitCommand at hsubmit
  split at hsubmit
  · obtain rfl := Except.ok.inj hsubmit
    exact Or.inl (quiet_answer node ticket (by simp)).mute
  split at hsubmit
  · obtain rfl := Except.ok.inj hsubmit
    exact Or.inl (quiet_answer node ticket (by simp)).mute
  split at hsubmit
  · obtain rfl := Except.ok.inj hsubmit
    exact Or.inl (quiet_answer node ticket (by simp)).mute
  split at hsubmit
  · obtain rfl := Except.ok.inj hsubmit
    exact Or.inl (quiet_answer node ticket (by simp)).mute
  rename_i record _ _ _ leadership hleadership
  obtain ⟨⟨sequencer, submission⟩, -, heq⟩ := exists_of_bind hsubmit
  obtain rfl := Except.ok.inj heq
  have hadmitted : Mute node
      ((node.sequenced leadership sequencer).admitted record submission) :=
    (quiet_leadership { leadership with sequencer := sequencer } hleadership
      rfl).mute.trans (mute_admitted _ record submission)
  rw [follow_eq]
  split
  · exact hadmitted.tells (tells_replicate _)
  · exact Or.inl hadmitted

theorem tells_submitQuery (node : Node L σ) (ticket : Ticket)
    (request : QueryRequest) :
    Tells node (node.submitQuery ticket request) := by
  have henqueued : ∀ query, Tells node (node.enqueue query) := by
    intro query
    have hasked : Mute node { node with queries := node.queries ++ [query] } :=
      .of_same rfl rfl rfl rfl
    unfold enqueue
    dsimp only
    split
    · exact Or.inl (hasked.trans (outlasts_serveQueries _).mute)
    · exact hasked.tells
        ((tells_replicate _).outlasts (outlasts_serveQueries _))
  unfold submitQuery
  split
  · exact henqueued _
  · exact Or.inl (quiet_answer node ticket (by simp)).mute
  · exact henqueued _

omit [FaithfulLog L] [StateMachine σ] in
theorem tells_appendOperation {waiter : Waiter} {operation : Operation}
    {next : Node L σ → Node L σ} (hnext : ∀ node, Tells node (next node)) :
    Tells node (node.appendOperation waiter operation next) := by
  unfold appendOperation
  split
  · exact Or.inl (.of_same rfl rfl rfl rfl)
  · split
    · exact Or.inl (.of_same rfl rfl rfl rfl)
    · rename_i index log _
      have hentered : Mute node
          (await { node with log := log } index [waiter]) :=
        .of_same rfl rfl rfl rfl
      exact hentered.tells (hnext _)

omit [StateMachine σ] in
theorem mute_acknowledgeEvents (node : Node L σ) (session : SessionId)
    (sequence : Int) : Mute node (node.acknowledgeEvents session sequence) := by
  unfold acknowledgeEvents
  split
  · exact .refl node
  · split
    · exact .of_same rfl rfl rfl rfl
    · rename_i record _ _
      exact (quiet_modifyLeadership node (f := fun leadership =>
        { leadership with
          publisher :=
            leadership.publisher.resendFrom session record.eventAck })
        (fun _ => rfl)).mute

theorem tells_submitKeepAlive (node : Node L σ) (ticket : Ticket)
    (request : KeepAliveRequest) :
    Tells node (node.submitKeepAlive ticket request) := by
  unfold submitKeepAlive
  dsimp only
  split
  · exact Or.inl (.of_same rfl rfl rfl rfl)
  · exact tells_appendOperation (fun node =>
      ((mute_acknowledgeEvents node _ _).tells (tells_replicate _)).outlasts
        (outlasts_publishEvents _))

theorem tells_submitUnregister (node : Node L σ) (ticket : Ticket)
    (request : UnregisterRequest) :
    Tells node (node.submitUnregister ticket request) := by
  unfold submitUnregister
  split
  · exact Or.inl (.of_same rfl rfl rfl rfl)
  · exact tells_appendOperation tells_replicate

omit [StateMachine σ] in
theorem mute_publish (node : Node L σ) (request : PublishRequest) :
    Mute node (node.publish request).2 := by
  unfold Node.publish
  split
  · exact .refl node
  · dsimp only
    split
    · exact .refl node
    · exact (mute_acknowledgeEvents node _ _).trans
        (outlasts_publishEvents _).mute

omit [StateMachine σ] in
theorem mute_shutdown (node : Node L σ) : Mute node node.shutdown := by
  have hdropped := dropAll_standing node (fun _ => true)
  refine .of_none ?_ ?_ ?_
  · exact congrArg₂
      (fun id members => members.filter (fun member => member != id))
      (congrArg Standing.id hdropped) (congrArg Standing.members hdropped)
  · exact congrArg (List.filterMap Outbound.request?) (dropAll_outbox node _)
  · exact (shutdown_dismisses node).1

/-- Every step queues nothing for the peers, replies to one of them or
broadcasts once. -/
theorem step_sends {output : Output}
    (hstep : node.step input = .ok (output, after)) :
    Sends input node after := by
  cases stepsTo hstep with
  | clock now => exact .mute (.of_same rfl rfl rfl rfl)
  | electionTimeout hstart => exact sends_startElection hstart
  | heartbeat => exact (tells_replicate node).sends rfl
  | @vote request _ _ _ hvote =>
      have hmute := mute_handleVote node request
      rw [hvote] at hmute
      exact .mute hmute
  | @voteResponse sender response _ _ hheeded =>
      have hsends := sends_handleVoteResponse node sender response
      rwa [hheeded] at hsends
  | @append request _ _ _ happend =>
      have hmute := mute_handleAppend node request
      rw [happend] at hmute
      exact .mute hmute
  | appendResponse hheeded => exact sends_handleAppendResponse hheeded
  | command hsubmit => exact (tells_submitCommand hsubmit).sends rfl
  | query ticket request =>
      exact (tells_submitQuery node ticket request).sends rfl
  | register ticket request =>
      exact (tells_appendOperation tells_replicate).sends rfl
  | keepAlive ticket request =>
      exact (tells_submitKeepAlive node ticket request).sends rfl
  | unregister ticket request =>
      exact (tells_submitUnregister node ticket request).sends rfl
  | publish request => exact .mute (mute_publish node request)
  | shutdown => exact .mute (mute_shutdown node)

omit [FaithfulLog L] [StateMachine σ] in
theorem Appends.config {commands : List PendingCommand}
    (happends : Appends node commands after) : after.config = node.config := by
  induction happends with
  | done => rfl
  | issue _ _ ih => exact ih
  | @lose node command commands _ log _ =>
      exact congrArg Frame.config (forgetCommands_frame
        (failCommands { node with log := log } (command :: commands)
          .internalError) command.request.session .internalError)

/-- Nothing that a node does changes how it is configured. -/
theorem Act.config {handed : List LogEntry} {demands : List Demand}
    (hact : Act input node handed demands after) :
    after.config = node.config := by
  cases hact with
  | follow term _ => exact (spared_becomeFollower node term).config
  | count member _ =>
      unfold countVote
      split <;> rfl
  | @advance target _ _ =>
      exact congrArg Frame.config (applyNext_frame
        { node with commitIndex := target } (target - node.lastApplied))
  | publish => exact (outlasts_publishEvents node).config
  | @submit _ _ _ leadership sequencer submission _ _ _ _ _ _ =>
      cases submission with
      | ready commands =>
          exact (appends_appendReady (node.sequenced leadership sequencer)
            commands).config
      | _ => rfl
  | acknowledge _ _ =>
      unfold acknowledgeEvents
      split
      · rfl
      · split <;> rfl
  | retire _ =>
      simp only [shutdown, dropLeadership, failWaiters, failQueries]
      cases node.leadership <;> rfl
  | _ => rfl

theorem Acts.config {handed : List LogEntry} {demands : List Demand}
    (hacts : Acts input node handed demands after) :
    after.config = node.config := by
  induction hacts with
  | refl => rfl
  | tail _ hact ih => exact hact.config.trans ih

end Steps

/-! ### What a request says -/

/-- A request describes the log of a node: it carries the entries behind one
index, no more than fit in a batch, and tells the term of the entry there. -/
structure Describes (node : Node L σ) (request : AppendRequest) : Prop where
  leader : request.leader = node.id
  term : request.term = node.term
  previous : request.prevLogIndex ≤ LogStore.lastIndex node.log
  joins : request.prevLogTerm = termOf (entries node.log) request.prevLogIndex
  carries : request.entries = ((entries node.log).drop
    request.prevLogIndex).take node.config.maxEntriesPerAppend
  brings : request.entries = [] →
    request.prevLogIndex = LogStore.lastIndex node.log
  committed : request.commitIndex ≤ LogStore.lastIndex node.log

/-- What a node would send describes its log, if it tries nobody past its end
and has committed no more than there is. -/
theorem Owes.describes {peer : NodeId} {request : AppendRequest}
    (howes : node.Owes peer request) (hlog : Sound node.log)
    (hcommit : node.commitIndex ≤ LogStore.lastIndex node.log)
    (hbatch : 0 < node.config.maxEntriesPerAppend)
    (hwithin : ∀ leadership, node.leadership = some leadership →
      leadership.Within (LogStore.lastIndex node.log)) :
    node.Describes request ∧ ∃ leadership,
      node.leadership = some leadership ∧ request.round = leadership.round := by
  obtain ⟨hle, hcreate⟩ := howes
  obtain ⟨leadership, hleadership, hrequest⟩ :=
    Option.map_eq_some_iff.mp hcreate
  have hfirst : 1 ≤ node.nextFor leadership peer := Nat.le_max_left _ _
  have hlast : node.nextFor leadership peer ≤
      LogStore.lastIndex node.log + 1 := by
    unfold nextFor Table.getD
    cases hnext : leadership.nextIndex.get? peer with
    | none => exact Nat.max_le.mpr ⟨Nat.succ_pos _, Nat.le_refl _⟩
    | some index =>
        exact Nat.max_le.mpr ⟨Nat.succ_pos _,
          (hwithin leadership hleadership).next peer index hnext⟩
  obtain ⟨term, leader, previous, previousTerm, carried, commit, round⟩ :=
    request
  simp only [AppendRequest.mk.injEq] at hrequest
  obtain ⟨hterm, hleader, hprevious, hjoins, hcarries, -, hround⟩ := hrequest
  generalize node.nextFor leadership peer = next at *
  have hcarried : carried = ((entries node.log).drop previous).take
      node.config.maxEntriesPerAppend := by
    rw [← hcarries, show next = previous + 1 by omega, entriesFrom_eq hlog]
  have hlength := lastIndex_eq_length hlog
  refine ⟨⟨hleader.symm, hterm.symm, ?_, ?_, hcarried, fun hnil => ?_,
    Nat.le_trans hle hcommit⟩, leadership, hleadership, hround.symm⟩
  · change previous ≤ _
    omega
  · rw [← hjoins, termAt_eq_termOf hlog, hprevious]
  · have hnone := congrArg List.length (hcarried.symm.trans hnil)
    rw [List.length_take, List.length_drop, List.length_nil] at hnone
    change previous = _
    omega

end Node

end SessionRaft
