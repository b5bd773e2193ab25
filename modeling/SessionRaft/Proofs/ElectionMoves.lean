/-
The moves of an election: asking for votes, giving one, counting them and
beginning to lead.
-/
import SessionRaft.Proofs.Strides

namespace SessionRaft

/-- What the answer to a request for votes says of the one who gives it. -/
def Standing.Vouches {σ : Type} (standing : Standing σ) (request : VoteRequest)
    (response : VoteResponse) : Prop :=
  ∀ term, response = .ok ⟨term, true⟩ →
    term = standing.term ∧ standing.stored = (term, some request.candidate)

/-- Somewhere in a chain of moves an election is won, in the term with which
the chain ends. -/
def Wins {σ : Type} [StateMachine σ] (steady : Prop) (input : Input)
    (before after : Standing σ) : Prop :=
  ∃ candidate, Moves steady input before candidate ∧
    candidate.role = .candidate ∧
    candidate.quorum ≤ candidate.votes.length ∧
    candidate.term = after.term ∧
    Moves steady input candidate.led after

theorem Wins.moves {σ : Type} [StateMachine σ] {steady : Prop} {input : Input}
    {before after : Standing σ}
    (hwins : Wins steady input before after) :
    Moves steady input before after := by
  obtain ⟨candidate, hbefore, hrole, hquorum, -, hafter⟩ := hwins
  exact (hbefore.tail (.lead hrole hquorum)).trans hafter

namespace Node

open FaithfulLog

variable {L σ : Type} [LogStore L] [FaithfulLog L] [StateMachine σ]

variable {steady : Prop} {input : Input} {node : Node L σ}

/-- A vote that cannot be stored leaves the log as it was. -/
theorem saveVote_failed {log after : L} (hlog : Fit steady log) {term : Nat}
    {votedFor : Option NodeId} {fault : LogFault}
    (hsave : LogStore.saveVote log term votedFor = (.error fault, after)) :
    Fit steady after ∧ entries after = entries log ∧ stored after = stored log := by
  obtain ⟨hafter, hentries, hcases⟩ := saveVote_cases hlog hsave
  rcases hcases with ⟨heq, -⟩ | ⟨fault, -, hstored⟩
  · simp at heq
  · exact ⟨hafter, hentries, hstored⟩

theorem saveVote_done {log after : L} (hlog : Fit steady log) {term : Nat}
    {votedFor : Option NodeId}
    (hsave : LogStore.saveVote log term votedFor = (.ok (), after)) :
    Fit steady after ∧ entries after = entries log ∧
      stored after = (term, votedFor) := by
  obtain ⟨hafter, hentries, hcases⟩ := saveVote_cases hlog hsave
  rcases hcases with ⟨-, hstored⟩ | ⟨fault, heq, -⟩
  · exact ⟨hafter, hentries, hstored⟩
  · simp at heq

/-- Writing to the log without an effect on what it says. -/
theorem proceeds_of_same_log {log : L} (hsound : Fit steady node.log → Fit steady log ∧
    entries log = entries node.log ∧ stored log = stored node.log) :
    Proceeds steady input node { node with log := log } := by
  intro hlog
  obtain ⟨hafter, hentries, hstored⟩ := hsound hlog
  refine ⟨hafter, ?_⟩
  have hsame : { node with log := log }.standing = node.standing := by
    simp only [standing, hentries, hstored]
  rw [hsame]
  exact .refl

/-- Appending an entry of the present term, unless that fails. -/
theorem proceeds_append {log : L} {operation : Operation}
    {outcome : Except LogFault Nat} (hrole : node.role = .leader)
    (happend : LogStore.append node.log node.term operation = (outcome, log)) :
    Proceeds steady input node { node with log := log } := by
  intro hlog
  obtain ⟨hafter, hstored, hcases⟩ := append_cases hlog happend
  rcases hcases with ⟨-, hentries⟩ | ⟨fault, -, hentries⟩
  · refine ⟨hafter, .single ?_⟩
    have hmove : Move steady input node.standing _ := .extend operation hrole
    simp only [standing, hstored, hentries] at hmove ⊢
    exact hmove
  · exact proceeds_of_same_log (fun _ => ⟨hafter, hentries, hstored⟩) hlog

omit [FaithfulLog L] in
theorem applyCommitted_term (node : Node L σ) :
    node.applyCommitted.term = node.term :=
  congrArg Frame.term (applyCommitted_frame node)

omit [FaithfulLog L] in
theorem advanceCommit_term (node : Node L σ) :
    node.advanceCommit.2.term = node.term := by
  unfold advanceCommit
  split
  · rfl
  · exact applyCommitted_term _

omit [FaithfulLog L] in
theorem replicate_term (node : Node L σ) : node.replicate.term = node.term := by
  unfold replicate
  split
  · exact advanceCommit_term _
  · rfl

omit [StateMachine σ] in
theorem newLeadership_bare (hlog : Sound node.log) :
    node.newLeadership.bare = node.standing.newLeadership := by
  simp only [newLeadership, Leadership.bare, Standing.newLeadership, standing,
    lastIndex_eq_length hlog]
  rfl

/-- The node as it leads before anything is appended. -/
def crowned (node : Node L σ) : Node L σ :=
  { node with
    role := .leader
    leader := some node.id
    votes := []
    leadership := some node.newLeadership }

omit [StateMachine σ] in
theorem crowned_standing (hlog : Sound node.log) :
    node.crowned.standing = node.standing.led := by
  simp only [standing, crowned, Standing.led, Option.map_some,
    newLeadership_bare hlog]

/-- Append the first entry of a leadership, which ends if that fails. -/
def beginTerm (node : Node L σ) : Node L σ :=
  match LogStore.append node.log node.term .noOp with
  | (.error _, log) => { node with log := log }.becomeFollower node.term
  | (.ok index, log) =>
      ({ node with log := log }.modifyLeadership (fun leadership =>
        { leadership with noopIndex := index })).replicate.publishEvents

theorem proceeds_beginTerm (hrole : node.role = .leader) :
    Proceeds steady input node node.beginTerm ∧ node.beginTerm.term = node.term := by
  unfold beginTerm
  rcases happend : LogStore.append node.log node.term .noOp with
    ⟨outcome, log⟩
  have hextended : Proceeds steady input node { node with log := log } :=
    proceeds_append hrole happend
  rcases outcome with fault | index
  · refine ⟨hextended.trans (proceeds_becomeFollower _ _), ?_⟩
    rw [becomeFollower_term]
    exact Nat.max_self _
  · have hnoop : Quiet { node with log := log }
        (modifyLeadership { node with log := log } (fun leadership =>
          { leadership with noopIndex := index })) :=
      quiet_modifyLeadership _ (fun _ => rfl)
    refine ⟨(hextended.trans hnoop.proceeds).trans
      ((proceeds_replicate _).trans (quiet_publishEvents _).proceeds), ?_⟩
    exact (congrArg Standing.term (quiet_publishEvents _).standing).trans
      (replicate_term _)

/-- A candidate with enough votes wins. -/
theorem wins_becomeLeader {before : Node L σ}
    (hbefore : Proceeds steady input before node) (hrole : node.role = .candidate)
    (hquorum : node.hasQuorum = true) (hlog : Fit steady before.log) :
    Fit steady node.becomeLeader.log ∧
      Wins steady input before.standing node.becomeLeader.standing := by
  obtain ⟨hnode, hmoves⟩ := hbefore hlog
  obtain ⟨hbegins, hterm⟩ : Proceeds steady input node.crowned
      node.crowned.beginTerm ∧ node.crowned.beginTerm.term = node.crowned.term :=
    proceeds_beginTerm rfl
  obtain ⟨hafter, hleads⟩ := hbegins hnode
  rw [crowned_standing hnode.sound] at hleads
  exact ⟨hafter, node.standing, hmoves, hrole, of_decide_eq_true hquorum,
    hterm.symm, hleads⟩

/-- The node before an election: without a leadership. -/
def resigned (node : Node L σ) : Node L σ :=
  if node.leadership.isSome then node.becomeFollower node.term else node

/-- The node as it asks for votes, once its own vote is stored. -/
def candidacy (node : Node L σ) (log : L) (term : Nat) : Node L σ :=
  let candidate := { node with
    log := log
    term := term
    votedFor := some node.id
    role := .candidate
    leader := none
    votes := [node.id] }
  candidate.send (candidate.peers.map (fun peer =>
    .vote peer candidate.voteRequest))

/-- Ask for votes in a term if the own vote can be stored. -/
def campaign (node : Node L σ) (term : Nat) :
    Option VoteRequest × Node L σ :=
  match LogStore.saveVote node.log term (some node.id) with
  | (.error _, log) =>
      (none, { node with log := log, role := .follower, votes := [] })
  | (.ok (), log) =>
      (some (node.candidacy log term).voteRequest,
        if (node.candidacy log term).hasQuorum then
          (node.candidacy log term).becomeLeader
        else node.candidacy log term)

omit [FaithfulLog L] in
theorem startElection_eq (node : Node L σ) :
    node.startElection = (successor node.resigned.term).map
      (fun term => node.resigned.campaign term) := by
  unfold startElection resigned
  dsimp only
  generalize (if node.leadership.isSome then node.becomeFollower node.term
    else node) = start
  cases successor start.term with
  | error overflow => rfl
  | ok term =>
      simp only [bind, Except.bind, Except.map, persistVote, campaign]
      rcases hsave : LogStore.saveVote start.log term (some start.id) with
        ⟨outcome, log⟩
      cases outcome <;> rfl

omit [StateMachine σ] in
theorem resigned_leadership (node : Node L σ) :
    node.resigned.leadership = none := by
  unfold resigned
  split
  · exact becomeFollower_leadership node _
  · rename_i hnone
    simpa using hnone

theorem proceeds_resigned (node : Node L σ) :
    Proceeds steady input node node.resigned := by
  unfold resigned
  split
  · exact proceeds_becomeFollower node _
  · exact Proceeds.refl input node

theorem proceeds_candidacy {log : L}
    (hleadership : node.leadership = none)
    (hsave : LogStore.saveVote node.log (node.term + 1) (some node.id) =
      (.ok (), log)) :
    Proceeds steady input node (node.candidacy log (node.term + 1)) := by
  intro hlog
  obtain ⟨hafter, hentries, hstored⟩ := saveVote_done hlog hsave
  refine ⟨hafter, .single ?_⟩
  have hmail : ∀ request : VoteRequest,
      (node.peers.map (fun peer => Outbound.vote peer request)).filter
        Outbound.isMail =
      node.peers.map (fun peer => Outbound.vote peer request) := by
    intro request
    rw [List.filter_eq_self]
    intro message hmessage
    obtain ⟨peer, -, rfl⟩ := List.mem_map.mp hmessage
    rfl
  have hlast : LogStore.lastIndex log = (entries node.log).length := by
    rw [lastIndex_eq_length hafter.sound, hentries]
  have hlastTerm : LogStore.lastTerm log = lastTermOf (entries node.log) := by
    rw [lastTerm_eq_lastTermOf hafter.sound, hentries]
  have hstanding : (node.candidacy log (node.term + 1)).standing =
      { node.standing with
        term := node.term + 1
        votedFor := some node.id
        role := .candidate
        votes := [node.id]
        stored := (node.term + 1, some node.id)
        mail := node.standing.mail ++ node.standing.peers.map (fun peer =>
          .vote peer { node.standing.voteRequest with
            term := node.term + 1 }) } := by
    simp only [candidacy, send, voteRequest, standing, List.filter_append,
      hlast, hlastTerm, hentries, hstored]
    congr 2
    exact hmail _
  rw [hstanding]
  exact .stand (by simp [standing, hleadership])

theorem campaign_cases (steady : Prop) (input : Input)
    (hleadership : node.leadership = none) :
    Proceeds steady input node (node.campaign (node.term + 1)).2 ∧
      ((node.campaign (node.term + 1)).1.isSome = true →
        (node.campaign (node.term + 1)).2.quorum ≤ 1 → ∀ before : Node L σ,
          Proceeds steady input before node → Fit steady before.log →
          Wins steady input before.standing
            (node.campaign (node.term + 1)).2.standing) := by
  unfold campaign
  rcases hsave : LogStore.saveVote node.log (node.term + 1) (some node.id) with
    ⟨outcome, log⟩
  rcases outcome with fault | ⟨⟩
  · refine ⟨?_, by simp⟩
    -- A vote that cannot be stored leaves the node in its term.
    have hyield : Proceeds steady input node
        { node with role := .follower, votes := [] } := by
      refine proceeds_of_move rfl (fun _ => ?_)
      have hmove : Move steady input node.standing _ := .yield (by
        intro hsome
        simp [standing, hleadership] at hsome)
      simpa [standing, hleadership] using hmove
    exact hyield.trans (proceeds_of_same_log (fun hlog =>
      saveVote_failed hlog hsave))
  · have hcandidacy : Proceeds steady input node
        (node.candidacy log (node.term + 1)) :=
      proceeds_candidacy hleadership hsave
    by_cases hquorum : (node.candidacy log (node.term + 1)).hasQuorum = true
    · simp only [hquorum, ↓reduceIte]
      refine ⟨fun hlog => ?_, fun _ _ before hbefore hlog =>
        (wins_becomeLeader (hbefore.trans hcandidacy) rfl hquorum hlog).2⟩
      obtain ⟨hafter, hwins⟩ := wins_becomeLeader hcandidacy rfl hquorum hlog
      exact ⟨hafter, hwins.moves⟩
    · simp only [hquorum]
      refine ⟨hcandidacy, fun _ hone => absurd (decide_eq_true ?_) hquorum⟩
      exact hone

/-- An election is a chain of moves, and is won if the own vote suffices. -/
theorem startElection_cases {request : Option VoteRequest}
    {after : Node L σ} (hstart : node.startElection = .ok (request, after)) :
    Proceeds steady input node after ∧
      (request.isSome = true → after.quorum ≤ 1 → Fit steady node.log →
        Wins steady input node.standing after.standing) := by
  rw [startElection_eq] at hstart
  simp only [successor] at hstart
  split at hstart
  · simp [Except.map] at hstart
  · simp only [Except.map, Except.ok.injEq] at hstart
    have hcampaign := campaign_cases steady input (resigned_leadership node)
    rw [hstart] at hcampaign
    exact ⟨(proceeds_resigned node).trans hcampaign.1, fun hsome hquorum =>
      hcampaign.2 hsome hquorum node (proceeds_resigned node)⟩

theorem proceeds_grant {request : VoteRequest} {log : L}
    (hterm : request.term = node.term)
    (hfree : node.canVoteFor request.candidate = true)
    (hlog : node.isUpToDate request = true)
    (hsave : LogStore.saveVote node.log node.term (some request.candidate) =
      (.ok (), log)) :
    Proceeds steady (.vote request) node
      { node with votedFor := some request.candidate, log := log } := by
  intro hsound
  obtain ⟨hafter, hentries, hstored⟩ := saveVote_done hsound hsave
  refine ⟨hafter, .single ?_⟩
  have hvoted : node.votedFor = none ∨
      node.votedFor = some request.candidate := by
    unfold canVoteFor at hfree
    cases hvotedFor : node.votedFor with
    | none => exact Or.inl rfl
    | some voted =>
        rw [hvotedFor] at hfree
        exact Or.inr (congrArg some (of_decide_eq_true hfree))
  rw [isUpToDate, decide_eq_true_eq, lastTerm_eq_lastTermOf hsound.sound,
    lastIndex_eq_length hsound.sound] at hlog
  have hmove : Move steady (.vote request) node.standing _ :=
    .grant rfl hterm hvoted hlog
  simp only [standing, hentries, hstored] at hmove ⊢
  exact hmove

theorem handleVote_cases {request : VoteRequest} {response : VoteResponse}
    {restart : Bool} {after : Node L σ}
    (hvote : node.handleVote request = ((response, restart), after)) :
    Proceeds steady (.vote request) node after ∧
      (Fit steady node.log → after.standing.Vouches request response) := by
  unfold handleVote at hvote
  have hadopted : Proceeds steady (.vote request) node
      (if node.term < request.term then node.becomeFollower request.term
        else node) := by
    split
    · exact proceeds_becomeFollower node _
    · exact Proceeds.refl _ node
  have hterm : request.term ≤ (if node.term < request.term then
      node.becomeFollower request.term else node).term := by
    split
    · rw [becomeFollower_term]
      exact Nat.le_max_right _ _
    · omega
  dsimp only at hvote
  generalize (if node.term < request.term then
    node.becomeFollower request.term else node) = voter at hvote hadopted hterm
  split at hvote
  · rename_i hgrants
    obtain ⟨hle, hfree, hlog⟩ := hgrants
    have hsame : request.term = voter.term := by omega
    simp only [persistVote] at hvote
    rcases hsave : LogStore.saveVote voter.log voter.term
      (some request.candidate) with ⟨outcome, log⟩
    rw [hsave] at hvote
    rcases outcome with fault | ⟨⟩
    · simp only [Except.isOk, Except.toBool, Prod.mk.injEq] at hvote
      obtain ⟨⟨rfl, -⟩, rfl⟩ := hvote
      refine ⟨hadopted.trans (proceeds_of_same_log (fun hsound =>
        saveVote_failed hsound hsave)), fun _ => ?_⟩
      intro term hterm
      simp at hterm
    · simp only [Except.isOk, Except.toBool, Prod.mk.injEq] at hvote
      obtain ⟨⟨rfl, -⟩, rfl⟩ := hvote
      refine ⟨hadopted.trans (proceeds_grant hsame hfree hlog hsave),
        fun hsound => ?_⟩
      intro term hterm
      simp only [Response.ok.injEq, Vote.mk.injEq, and_true] at hterm
      subst hterm
      exact ⟨rfl, (saveVote_done (hadopted hsound).1 hsave).2.2⟩
  · simp only [Prod.mk.injEq] at hvote
    obtain ⟨⟨rfl, -⟩, rfl⟩ := hvote
    refine ⟨hadopted, fun _ => ?_⟩
    intro term hterm
    simp at hterm

theorem proceeds_countVote {member : NodeId}
    (hrole : node.role = .candidate) (hmember : member ∈ node.members) :
    Proceeds steady (.voteResponse member (.ok ⟨node.term, true⟩)) node
      (node.countVote member) := by
  unfold countVote
  split
  · exact Proceeds.refl _ node
  · rename_i hnew
    exact proceeds_of_move rfl (fun _ =>
      (Move.count rfl hrole hmember hnew : Move steady _ node.standing _))

theorem handleVoteResponse_cases {member : NodeId} {response : VoteResponse}
    {outcome : Bool} {after : Node L σ}
    (hvote : node.handleVoteResponse member response = (outcome, after)) :
    Proceeds steady (.voteResponse member response) node after ∧
      (outcome = true → Fit steady node.log → Wins steady
        (.voteResponse member response) node.standing after.standing) := by
  unfold handleVoteResponse at hvote
  split at hvote
  · simp only [Prod.mk.injEq] at hvote
    obtain ⟨rfl, rfl⟩ := hvote
    exact ⟨Proceeds.refl _ node, by simp⟩
  · rename_i vote
    split at hvote
    · simp only [Prod.mk.injEq] at hvote
      obtain ⟨rfl, rfl⟩ := hvote
      exact ⟨proceeds_becomeFollower node _, by simp⟩
    · rename_i hnewer
      split at hvote
      · rename_i hcounts
        obtain ⟨hrole, hterm, hvoted, hmember⟩ := hcounts
        have hvote' : vote = ⟨node.term, true⟩ := by
          obtain ⟨term, voted⟩ := vote
          simp only at hnewer hterm hvoted
          rw [hvoted, Nat.le_antisymm hterm (Nat.le_of_not_lt hnewer)]
        rw [hvote']
        have hcounted : Proceeds steady _ node (node.countVote member) :=
          proceeds_countVote hrole hmember
        have hstill : (node.countVote member).role = .candidate := by
          unfold countVote
          split <;> exact hrole
        simp only at hvote
        split at hvote
        · rename_i hquorum
          simp only [Prod.mk.injEq] at hvote
          obtain ⟨rfl, rfl⟩ := hvote
          refine ⟨fun hlog => ?_, fun _ hlog =>
            (wins_becomeLeader hcounted hstill hquorum hlog).2⟩
          obtain ⟨hafter, hwins⟩ :=
            wins_becomeLeader hcounted hstill hquorum hlog
          exact ⟨hafter, hwins.moves⟩
        · simp only [Prod.mk.injEq] at hvote
          obtain ⟨rfl, rfl⟩ := hvote
          exact ⟨hcounted, by simp⟩
      · simp only [Prod.mk.injEq] at hvote
        obtain ⟨rfl, rfl⟩ := hvote
        exact ⟨Proceeds.refl _ node, by simp⟩

end Node

end SessionRaft
