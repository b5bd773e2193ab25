/-
What a node says of its own part.  A node that leads names itself as the
leader, and one that does not lead names another node or none, unless it won
the election of its term and could not append the entry with which its
leadership was to begin.
-/
import SessionRaft.ByteProgram
import SessionRaft.Proofs.Acts
import SessionRaft.Proofs.Lives

namespace SessionRaft

/-- What a node says of its own part. -/
structure Title where
  id : NodeId
  term : Nat
  role : Role
  leader : Option NodeId
  /-- Whether it keeps what a leader keeps. -/
  leads : Bool

def Frame.title {L : Type} (frame : Frame L) : Title where
  id := frame.id
  term := frame.term
  role := frame.role
  leader := frame.leader
  leads := frame.leadership.isSome

namespace Node

open FaithfulLog

section Handlers

variable {L σ : Type}

/-- What a node says of its own part. -/
def title (node : Node L σ) : Title := node.frame.title

theorem title_eq (node : Node L σ) : node.title =
    ⟨node.id, node.term, node.role, node.leader, node.leadership.isSome⟩ := by
  simp only [title, Frame.title, frame, Option.isSome_map]

theorem title_congr {before after : Node L σ} (hid : after.id = before.id)
    (hterm : after.term = before.term) (hrole : after.role = before.role)
    (hleader : after.leader = before.leader)
    (hleads : after.leadership.isSome = before.leadership.isSome) :
    after.title = before.title := by
  rw [title_eq, title_eq, hid, hterm, hrole, hleader, hleads]

theorem modifyLeadership_title (node : Node L σ)
    (f : Leadership → Leadership) :
    (node.modifyLeadership f).title = node.title :=
  title_congr rfl rfl rfl rfl Option.isSome_map

theorem forgetCommands_title (node : Node L σ) (session : SessionId)
    (kind : ErrorKind) :
    (node.forgetCommands session kind).title = node.title :=
  congrArg Frame.title (forgetCommands_frame node session kind)

theorem publishEvents_title (node : Node L σ) :
    node.publishEvents.title = node.title :=
  congrArg Frame.title (publishEvents_frame node)

theorem acknowledgeEvents_title (node : Node L σ) (session : SessionId)
    (sequence : Int) :
    (node.acknowledgeEvents session sequence).title = node.title := by
  unfold acknowledgeEvents
  split
  · rfl
  · split
    · rfl
    · exact modifyLeadership_title node _

theorem publish_title (node : Node L σ) (request : PublishRequest) :
    (node.publish request).2.title = node.title := by
  unfold publish
  split
  · rfl
  · dsimp only
    split
    · rfl
    · exact (publishEvents_title _).trans (acknowledgeEvents_title node _ _)

variable [LogStore L]

theorem appendOperation_title (node : Node L σ) (waiter : Waiter)
    (operation : Operation) {next : Node L σ → Node L σ}
    (hnext : ∀ node : Node L σ, (next node).title = node.title) :
    (node.appendOperation waiter operation next).title = node.title := by
  unfold appendOperation
  split
  · rfl
  · split
    · rfl
    · exact hnext _

theorem Appends.title {node after : Node L σ} {commands : List PendingCommand}
    (happends : Appends node commands after) : after.title = node.title := by
  induction happends with
  | done => rfl
  | issue _ _ ih =>
      exact ih.trans (title_congr rfl rfl rfl rfl Option.isSome_map)
  | lose _ => exact forgetCommands_title _ _ _

variable [StateMachine σ]

theorem applyCommitted_title (node : Node L σ) :
    node.applyCommitted.title = node.title := by
  unfold title
  rw [applyCommitted_frame]
  rfl

theorem advanceCommit_title (node : Node L σ) :
    node.advanceCommit.2.title = node.title := by
  unfold advanceCommit
  split
  · rfl
  · exact applyCommitted_title _

theorem replicate_title (node : Node L σ) :
    node.replicate.title = node.title := by
  unfold replicate
  split
  · exact (advanceCommit_title node.broadcast).trans
      (modifyLeadership_title node _)
  · rfl

theorem submitCommand_title {node after : Node L σ} {ticket : Ticket}
    {request : CommandRequest}
    (hsubmit : node.submitCommand ticket request = .ok after) :
    after.title = node.title := by
  unfold submitCommand at hsubmit
  split at hsubmit
  · exact Except.ok.inj hsubmit ▸ rfl
  · split at hsubmit
    · exact Except.ok.inj hsubmit ▸ rfl
    · split at hsubmit
      · exact Except.ok.inj hsubmit ▸ rfl
      · split at hsubmit
        · exact Except.ok.inj hsubmit ▸ rfl
        · rename_i leadership hleadership
          obtain ⟨⟨sequencer, submission⟩, -, heq⟩ := exists_of_bind hsubmit
          obtain rfl := Except.ok.inj heq
          have hsequenced : (node.sequenced leadership sequencer).title =
              node.title :=
            title_congr rfl rfl rfl rfl (by simp [sequenced, hleadership])
          refine Eq.trans ?_ hsequenced
          cases submission with
          | ready commands =>
              exact (replicate_title _).trans
                (appends_appendReady _ commands).title
          | _ => rfl

theorem submitQuery_title (node : Node L σ) (ticket : Ticket)
    (request : QueryRequest) :
    (node.submitQuery ticket request).title = node.title := by
  have henqueue : ∀ query, (node.enqueue query).title = node.title := by
    intro query
    unfold enqueue
    dsimp only
    split
    · rfl
    · exact replicate_title { node with queries := node.queries ++ [query] }
  unfold submitQuery
  split
  · exact henqueue _
  · rfl
  · exact henqueue _

theorem submitKeepAlive_title (node : Node L σ) (ticket : Ticket)
    (request : KeepAliveRequest) :
    (node.submitKeepAlive ticket request).title = node.title := by
  unfold submitKeepAlive
  dsimp only
  split
  · rfl
  · exact appendOperation_title node _ _ (fun node =>
      (publishEvents_title _).trans ((replicate_title _).trans
        (acknowledgeEvents_title node _ _)))

theorem submitUnregister_title (node : Node L σ) (ticket : Ticket)
    (request : UnregisterRequest) :
    (node.submitUnregister ticket request).title = node.title := by
  unfold submitUnregister
  split
  · rfl
  · exact appendOperation_title node _ _ replicate_title

theorem acceptProgress_title (node : Node L σ) (leadership : Leadership)
    (peer : NodeId) (index : Nat) :
    (node.acceptProgress leadership peer index).2.title =
      ({ node with leadership := some (Leadership.progress leadership peer
        (max (leadership.matchIndex.getD peer 0)
          (min index (LogStore.lastIndex node.log)))) } : Node L σ).title := by
  unfold acceptProgress
  dsimp only
  split <;> exact advanceCommit_title _

theorem receive_title (node : Node L σ) (request : AppendRequest) :
    (node.receive request).2.title = node.title := by
  unfold receive
  dsimp only
  split
  · rfl
  · split
    · rfl
    · split
      · rfl
      · unfold followCommit
        split
        · exact applyCommitted_title _
        · rfl

end Handlers

/-! ### Elections -/

section Elections

variable {L σ : Type} [LogStore L]

omit [LogStore L] in
theorem stepDown_title (node : Node L σ) :
    node.stepDown.title = { node.title with leads := false } := by
  unfold stepDown
  split
  · rename_i hsome
    obtain ⟨leadership, hleadership⟩ := Option.isSome_iff_exists.mp hsome
    rw [title_eq, title_eq]
    simp only [dropLeadership, hleadership]
    rfl
  · rename_i hnone
    rw [title_eq]
    simp only [Bool.not_eq_true] at hnone
    rw [hnone]

theorem becomeFollower_title (node : Node L σ) (term : Nat) :
    (node.becomeFollower term).title =
      ⟨node.id, max node.term term, .follower,
        if node.term < term then none else node.leader, false⟩ := by
  rw [becomeFollower_eq, stepDown_title, title_eq]
  unfold adoptTerm
  split
  · rename_i hlt
    simp only [persistVote, Nat.max_eq_right (Nat.le_of_lt hlt)]
  · rename_i hge
    simp only [Nat.max_eq_left (Nat.le_of_not_lt hge)]

variable [StateMachine σ]

/-- An input makes a node the candidate that wins the election. -/
inductive Elects (node : Node L σ) : Input → Node L σ → Prop where
  /-- A member's vote was still missing. -/
  | vote {member : NodeId} (hrole : node.role = .candidate)
      (hmember : member ∈ node.members)
      (hquorum : (node.countVote member).hasQuorum = true) :
      Elects node (.voteResponse member (.ok ⟨node.term, true⟩))
        (node.countVote member)
  /-- Its own vote is enough. -/
  | alone {term : Nat} {log : L} (hterm : successor node.term = .ok term)
      (hsave : LogStore.saveVote node.log term (some node.id) = (.ok (), log))
      (hquorum : (node.candidacy log term).hasQuorum = true) :
      Elects node .electionTimeout (node.candidacy log term)

/-- The node wins the election, but cannot append the entry with which its
leadership is to begin. -/
def Forfeits (node : Node L σ) (input : Input) : Prop :=
  ∃ candidate fault log, node.Elects input candidate ∧
    LogStore.append candidate.log candidate.term .noOp = (.error fault, log)

/-- What becomes of a node's title in a step. -/
inductive Entitles (node : Node L σ) (input : Input) (output : Output) :
    Title → Prop where
  /-- It stays what it is. -/
  | keeps (hwon : output ≠ .won true) : Entitles node input output node.title
  /-- The node follows, because its own vote could not be stored. -/
  | desists (hrole : node.role ≠ .leader) (hwon : output ≠ .won true) :
      Entitles node input output { node.title with role := .follower }
  /-- The node neither leads nor names itself. -/
  | yields {title : Title} (hid : title.id = node.id)
      (hrole : title.role ≠ .leader) (hleads : title.leads = false)
      (hleader : title.leader ≠ some node.id) (hwon : output ≠ .won true) :
      Entitles node input output title
  /-- The node wins the election, and leads. -/
  | leads (hrole : node.role ≠ .leader) {candidate : Node L σ} {index : Nat}
      {log : L} (helects : node.Elects input candidate)
      (happend : LogStore.append candidate.log candidate.term .noOp =
        (.ok index, log))
      (hwon : input ≠ .electionTimeout → output = .won true) :
      Entitles node input output
        ⟨node.id, candidate.term, .leader, some node.id, true⟩
  /-- The node wins the election, and follows at once. -/
  | forfeits (hrole : node.role ≠ .leader) {candidate : Node L σ}
      {fault : LogFault} {log : L} (helects : node.Elects input candidate)
      (happend : LogStore.append candidate.log candidate.term .noOp =
        (.error fault, log))
      (hwon : input ≠ .electionTimeout → output = .won true) :
      Entitles node input output
        ⟨node.id, candidate.term, .follower, some node.id, false⟩

variable {node after : Node L σ} {input : Input} {output : Output}

omit [StateMachine σ] in
theorem Entitles.of_title {title : Title} (htitle : title = node.title)
    (hwon : output ≠ .won true) : node.Entitles input output title :=
  htitle ▸ .keeps hwon

/-- A candidate that wins leads if it can append. -/
theorem becomeLeader_title {candidate : Node L σ} {index : Nat} {log : L}
    (happend : LogStore.append candidate.log candidate.term .noOp =
      (.ok index, log)) :
    candidate.becomeLeader.title =
      ⟨candidate.id, candidate.term, .leader, some candidate.id, true⟩ := by
  have hdone : LogStore.append candidate.crowned.log candidate.crowned.term
      .noOp = (.ok index, log) := happend
  change candidate.crowned.beginTerm.title = _
  simp only [beginTerm, hdone]
  rw [publishEvents_title, replicate_title, modifyLeadership_title, title_eq]
  rfl

/-- A candidate that wins and cannot append follows, and names itself. -/
theorem forfeited_title {candidate : Node L σ} {fault : LogFault} {log : L}
    (happend : LogStore.append candidate.log candidate.term .noOp =
      (.error fault, log)) :
    candidate.becomeLeader.title =
      ⟨candidate.id, candidate.term, .follower, some candidate.id, false⟩ := by
  have hfails : LogStore.append candidate.crowned.log candidate.crowned.term
      .noOp = (.error fault, log) := happend
  change candidate.crowned.beginTerm.title = _
  simp only [beginTerm, hfails]
  rw [becomeFollower_title]
  simp only [crowned, Nat.max_self, Nat.lt_irrefl, ↓reduceIte]

/-- A candidate that wins leads, unless nothing can be appended. -/
theorem entitles_becomeLeader {candidate : Node L σ}
    (hrole : node.role ≠ .leader) (hid : candidate.id = node.id)
    (helects : node.Elects input candidate)
    (hwon : input ≠ .electionTimeout → output = .won true) :
    node.Entitles input output candidate.becomeLeader.title := by
  rcases happend : LogStore.append candidate.log candidate.term .noOp with
    ⟨fault | index, log⟩
  · rw [forfeited_title happend, hid]
    exact .forfeits hrole helects happend hwon
  · rw [becomeLeader_title happend, hid]
    exact .leads hrole helects happend hwon

omit [StateMachine σ] in
/-- A node that follows in a newer term names no leader. -/
theorem entitles_becomeFollower {term : Nat} (hlt : node.term < term)
    (hwon : output ≠ .won true) :
    node.Entitles input output (node.becomeFollower term).title := by
  rw [becomeFollower_title, if_pos hlt]
  exact .yields rfl (by simp) rfl (by simp) hwon

theorem entitles_startElection {asked : Option VoteRequest}
    (hrole : node.role ≠ .leader) (hnone : node.leadership = none)
    (hstart : node.startElection = .ok (asked, after)) :
    node.Entitles .electionTimeout (.election asked) after.title := by
  have hresigned : node.resigned = node := by simp [resigned, hnone]
  rw [startElection_eq, hresigned] at hstart
  cases hterm : successor node.term with
  | error overflow => simp [hterm, Except.map] at hstart
  | ok term =>
      simp only [hterm, Except.map, Except.ok.injEq, campaign] at hstart
      rcases hsave : LogStore.saveVote node.log term (some node.id) with
        ⟨fault | ⟨⟩, log⟩
      · simp only [hsave, Prod.mk.injEq] at hstart
        obtain ⟨-, rfl⟩ := hstart
        exact .desists hrole (by simp)
      · simp only [hsave, Prod.mk.injEq] at hstart
        obtain ⟨-, rfl⟩ := hstart
        split
        · rename_i hquorum
          exact entitles_becomeLeader hrole rfl (.alone hterm hsave hquorum)
            (fun hinput => absurd rfl hinput)
        · rw [title_eq]
          exact .yields rfl (by simp [candidacy, send])
            (by simp [candidacy, send, hnone]) (by simp [candidacy, send])
            (by simp)

omit [StateMachine σ] in
/-- Giving a vote leaves the title alone. -/
theorem entitles_handleVote (node : Node L σ) (request : VoteRequest) :
    node.Entitles (.vote request)
      (.vote (node.handleVote request).1.1 (node.handleVote request).1.2)
      (node.handleVote request).2.title := by
  have hadopted : ∀ output, output ≠ .won true →
      node.Entitles (.vote request) output
        (if node.term < request.term then node.becomeFollower request.term
          else node).title := by
    intro output hwon
    split
    · rename_i hnewer
      exact entitles_becomeFollower hnewer hwon
    · exact .keeps hwon
  unfold handleVote
  dsimp only
  generalize (if node.term < request.term then
    node.becomeFollower request.term else node) = voter at hadopted ⊢
  split
  · simp only [persistVote]
    rcases LogStore.saveVote voter.log voter.term
      (some request.candidate) with ⟨fault | ⟨⟩, log⟩
    · exact hadopted _ (by simp)
    · exact hadopted _ (by simp)
  · exact hadopted _ (by simp)

theorem entitles_handleVoteResponse (node : Node L σ) (member : NodeId)
    (response : VoteResponse) :
    node.Entitles (.voteResponse member response)
      (.won (node.handleVoteResponse member response).1)
      (node.handleVoteResponse member response).2.title := by
  cases response with
  | error kind => exact .keeps (by simp [handleVoteResponse])
  | ok vote =>
      simp only [handleVoteResponse]
      split
      · rename_i hnewer
        exact entitles_becomeFollower hnewer (by simp)
      · rename_i hnewer
        split
        · rename_i hcounts
          obtain ⟨hrole, hterm, hvoted, hmember⟩ := hcounts
          have hvote : vote = ⟨node.term, true⟩ := by
            obtain ⟨term, voted⟩ := vote
            simp only at hnewer hterm hvoted
            rw [hvoted, Nat.le_antisymm hterm (Nat.le_of_not_lt hnewer)]
          have hcounted : (node.countVote member).title = node.title := by
            unfold countVote
            split <;> rfl
          split
          · rename_i hquorum
            rw [hvote]
            refine entitles_becomeLeader (by simp [hrole]) ?_
              (.vote hrole hmember hquorum) (fun _ => rfl)
            unfold countVote
            split <;> rfl
          · exact .of_title hcounted (by simp)
        · exact .keeps (by simp)

/-- A node that takes a request of another leader neither leads nor names
itself. -/
theorem entitles_handleAppend {request : AppendRequest}
    (hforeign : request.leader ≠ node.id)
    (hleads : node.leadership.isSome = true → node.role = .leader) :
    node.Entitles (.append request)
      (.append (node.handleAppend request).1.1 (node.handleAppend request).1.2)
      (node.handleAppend request).2.title := by
  rw [handleAppend_eq]
  split
  · exact .keeps (by simp)
  · rw [receive_title]
    unfold receptive
    split
    · have htitle := becomeFollower_title node request.term
      rw [title_eq, Title.mk.injEq] at htitle
      obtain ⟨hid, -, hrole, -, hnone⟩ := htitle
      rw [title_eq]
      exact .yields hid (by simp [hrole]) hnone (by simpa using hforeign)
        (by simp)
    · rename_i hturns
      have hrole : node.role = .follower :=
        Decidable.of_not_not (fun hrole => hturns (Or.inr hrole))
      rw [title_eq]
      refine .yields rfl (by simp [hrole]) ?_ (by simpa using hforeign)
        (by simp)
      cases hsome : node.leadership.isSome with
      | false => rfl
      | true => simp [hleads hsome] at hrole

theorem entitles_handleAppendResponse {peer : NodeId}
    {response : AppendResponse} {outcome : Bool}
    (hheeded : node.handleAppendResponse peer response =
      .ok (outcome, after)) :
    node.Entitles (.appendResponse peer response) (.advanced outcome)
      after.title := by
  unfold handleAppendResponse at hheeded
  split at hheeded
  · obtain ⟨-, rfl⟩ := Prod.mk.inj (Except.ok.inj hheeded)
    exact .keeps (by simp)
  · rename_i appended
    split at hheeded
    · rename_i hnewer
      obtain ⟨-, rfl⟩ := Prod.mk.inj (Except.ok.inj hheeded)
      exact entitles_becomeFollower hnewer (by simp)
    · split at hheeded
      · obtain ⟨-, rfl⟩ := Prod.mk.inj (Except.ok.inj hheeded)
        exact .keeps (by simp)
      · split at hheeded
        · obtain ⟨-, rfl⟩ := Prod.mk.inj (Except.ok.inj hheeded)
          exact .keeps (by simp)
        · rename_i leadership hleadership
          have hnotes : ∀ noted : Leadership,
              ({ node with leadership := some noted } : Node L σ).title =
                node.title :=
            fun noted => title_congr rfl rfl rfl rfl (by simp [hleadership])
          split at hheeded
          · obtain ⟨-, rfl⟩ := Prod.mk.inj (Except.ok.inj hheeded)
            exact .keeps (by simp)
          · split at hheeded
            · obtain ⟨-, rfl⟩ := Prod.mk.inj (Except.ok.inj hheeded)
              have hprogress := acceptProgress_title node
                (Leadership.acknowledge leadership peer appended.round) peer
                appended.lastLogIndex
              exact .of_title (hprogress.trans (hnotes _)) (by simp)
            · obtain ⟨tried, htried, heq⟩ := exists_of_bind hheeded
              obtain ⟨-, rfl⟩ := Prod.mk.inj (Except.ok.inj heq)
              rw [acceptRefusal_eq htried]
              exact .of_title (hnotes _) (by simp)

/-- What becomes of a node's title in a step of a node that a server runs. -/
theorem step_entitles (hstep : node.step input = .ok (output, after))
    (hrunning : input ≠ .shutdown)
    (hforeign : ∀ request, input = .append request →
      request.leader ≠ node.id)
    (hpatient : input = .electionTimeout → node.role ≠ .leader)
    (hleads : node.leadership.isSome = true → node.role = .leader) :
    node.Entitles input output after.title := by
  cases stepsTo hstep with
  | clock now => exact .keeps (by simp)
  | electionTimeout hstart =>
      have hrole := hpatient rfl
      refine entitles_startElection hrole ?_ hstart
      exact Option.not_isSome_iff_eq_none.mp (fun hsome => hrole (hleads hsome))
  | heartbeat => exact .of_title (replicate_title node) (by simp)
  | @vote request response restart after hvote =>
      have hentitles := entitles_handleVote node request
      rwa [hvote] at hentitles
  | @voteResponse sender response outcome after hheeded =>
      have hentitles := entitles_handleVoteResponse node sender response
      rwa [hheeded] at hentitles
  | @append request response restart after happend =>
      have hentitles := entitles_handleAppend (hforeign request rfl) hleads
      rwa [happend] at hentitles
  | appendResponse hheeded => exact entitles_handleAppendResponse hheeded
  | command hsubmit => exact .of_title (submitCommand_title hsubmit) (by simp)
  | query ticket request =>
      exact .of_title (submitQuery_title node ticket request) (by simp)
  | register _ _ =>
      exact .of_title (appendOperation_title node _ _ replicate_title)
        (by simp)
  | keepAlive ticket request =>
      exact .of_title (submitKeepAlive_title node ticket request) (by simp)
  | unregister ticket request =>
      exact .of_title (submitUnregister_title node ticket request) (by simp)
  | publish request => exact .of_title (publish_title node request) (by simp)
  | shutdown => exact absurd rfl hrunning

/-- Whoever is elected begins to lead. -/
theorem Elects.step {candidate : Node L σ}
    (helects : node.Elects input candidate) (hnone : node.leadership = none)
    (hstep : node.step input = .ok (output, after)) :
    after = candidate.becomeLeader ∧ candidate.id = node.id ∧
      (input ≠ .electionTimeout → output = .won true) := by
  cases helects with
  | @vote member hrole hmember hquorum =>
      cases stepsTo hstep with
      | voteResponse hheeded =>
          simp only [handleVoteResponse, Nat.lt_irrefl, hrole, hmember,
            hquorum, Nat.le_refl, and_self, ↓reduceIte, Prod.mk.injEq]
            at hheeded
          obtain ⟨rfl, rfl⟩ := hheeded
          refine ⟨rfl, ?_, fun _ => rfl⟩
          unfold countVote
          split <;> rfl
  | alone hterm hsave hquorum =>
      cases stepsTo hstep with
      | electionTimeout hstart =>
          have hresigned : node.resigned = node := by simp [resigned, hnone]
          rw [startElection_eq, hresigned] at hstart
          simp only [hterm, Except.map, campaign, hsave, hquorum, ↓reduceIte,
            Except.ok.injEq, Prod.mk.injEq] at hstart
          exact ⟨hstart.2.symm, rfl, fun hinput => absurd rfl hinput⟩

omit [StateMachine σ] in
/-- A node that begins on its log knows no leader. -/
theorem start_title {id : NodeId} {members : List NodeId} {config : Config}
    {log : L} {machine : σ} {fresh : Node L σ}
    (hstart : Node.start id members config log machine = .ok fresh) :
    fresh.title = ⟨id, fresh.term, .follower, none, false⟩ := by
  unfold Node.start at hstart
  split at hstart
  · simp at hstart
  · split at hstart
    · simp at hstart
    · obtain rfl := Except.ok.inj hstart
      rfl

end Elections

end Node

/-! ### Lives -/

namespace Life

variable {L σ : Type} [LogStore L] [StateMachine σ]

/-- A server runs the node: it does not stop it, passes on requests with
entries of other nodes, and lets it ask for votes only while it does not
lead. -/
structure Served (life : Life L σ) : Prop where
  running : Incident.input .shutdown ∉ life.incidents
  foreign : ∀ request, Incident.input (.append request) ∈ life.incidents →
    request.leader ≠ life.start.id
  patient : ∀ time,
    life.incidents[time]? = some (.input .electionTimeout) →
      (life.node time).role ≠ .leader

/-- At a time the node wins an election, but cannot append the entry with
which its leadership is to begin. -/
def Forfeits (life : Life L σ) (time : Nat) : Prop :=
  ∃ input output after, life.Takes time input output after ∧
    (life.node time).Forfeits input

/-- What a node says of its part at a time. -/
structure Titled (life : Life L σ) (time : Nat) : Prop where
  id : (life.node time).id = life.start.id
  keeps : (life.node time).role = .leader ↔
    (life.node time).leadership.isSome = true
  names : (life.node time).role = .leader →
    (life.node time).leader = some (life.node time).id
  /-- Whoever names itself leads, or has forfeited the leadership of its
  term. -/
  named : (life.node time).leader = some (life.node time).id →
    (life.node time).role = .leader ∨ ∃ earlier < time,
      life.Forfeits earlier ∧
        (life.node (earlier + 1)).term = (life.node time).term

variable {life : Life L σ} {time : Nat}

/-- What is said of a title is said of every node that has it. -/
theorem Titled.of_title {title : Title} (hid : title.id = life.start.id)
    (htitle : (life.node time).title = title)
    (hkeeps : title.role = .leader ↔ title.leads = true)
    (hnames : title.role = .leader → title.leader = some title.id)
    (hnamed : title.leader = some title.id → title.role = .leader ∨
      ∃ earlier < time, life.Forfeits earlier ∧
        (life.node (earlier + 1)).term = title.term) : life.Titled time := by
  subst htitle
  rw [Node.title_eq] at hid hkeeps hnames hnamed
  exact ⟨hid, hkeeps, hnames, hnamed⟩

/-- As long as the title stays what it is. -/
theorem Titled.keeps_title (htitled : life.Titled time)
    (htitle : (life.node (time + 1)).title = (life.node time).title) :
    life.Titled (time + 1) := by
  refine .of_title htitled.id htitle ?_ htitled.names (fun hleader => ?_)
  · rw [Node.title_eq]
    exact htitled.keeps
  · refine (htitled.named hleader).imp_right ?_
    rintro ⟨earlier, hlt, hforfeits⟩
    exact ⟨earlier, Nat.lt_succ_of_lt hlt, hforfeits⟩

/-- A step entitles the node that a server runs. -/
theorem Served.entitles (hserved : life.Served) (htitled : life.Titled time)
    {input : Input} {output : Output} {after : Node L σ}
    (htakes : life.Takes time input output after) :
    (life.node time).Entitles input output after.title := by
  have hmem := List.mem_of_getElem? htakes.1
  refine Node.step_entitles htakes.2 ?_ ?_ ?_ htitled.keeps.mpr
  · rintro rfl
    exact hserved.running hmem
  · rintro request rfl
    exact htitled.id ▸ hserved.foreign request hmem
  · rintro rfl
    exact hserved.patient time htakes.1

theorem Titled.next (hserved : life.Served) (htitled : life.Titled time)
    {input : Input} {output : Output} {after : Node L σ}
    (htakes : life.Takes time input output after) : life.Titled (time + 1) := by
  have hnext : (life.node (time + 1)).title = after.title := by
    rw [htakes.node_succ]
    rfl
  have hentitles := hserved.entitles htitled htakes
  rw [← hnext] at hentitles
  generalize htitle : (life.node (time + 1)).title = title at hentitles
  cases hentitles with
  | keeps _ => exact htitled.keeps_title htitle
  | desists hrole _ =>
      refine .of_title htitled.id htitle ?_ ?_ (fun hleader => Or.inr ?_)
      · rw [Node.title_eq]
        simpa using fun hleads => hrole (htitled.keeps.mpr hleads)
      · simp
      · obtain hleads | ⟨earlier, hlt, hforfeits⟩ := htitled.named hleader
        · exact absurd hleads hrole
        · exact ⟨earlier, Nat.lt_succ_of_lt hlt, hforfeits⟩
  | yields hid hrole hleads hleader _ =>
      refine .of_title (hid.trans htitled.id) htitle ?_ ?_ (fun hnamed => ?_)
      · simp [hrole, hleads]
      · simp [hrole]
      · exact absurd (hnamed.trans (congrArg some hid)) hleader
  | leads _ _ _ _ =>
      exact .of_title htitled.id htitle (by simp) (by simp) (by simp)
  | forfeits _ helects happend _ =>
      refine .of_title htitled.id htitle (by simp) (by simp)
        (fun _ => Or.inr ⟨time, Nat.lt_succ_self time, ?_, ?_⟩)
      · exact ⟨_, _, _, htakes, _, _, _, helects, happend⟩
      · exact congrArg Title.term htitle

theorem Valid.titled [FaithfulLog L] (hvalid : life.Valid)
    (hserved : life.Served) (time : Nat) : life.Titled time := by
  induction time with
  | zero =>
      obtain ⟨_, _, _, _, _, -, hstart⟩ := hvalid.begins
      have htitle := Node.start_title hstart
      exact .of_title (congrArg Title.id htitle).symm htitle (by simp)
        (by simp) (by simp)
  | succ time ih =>
      cases hincident : life.incidents[time]? with
      | none => exact ih.keeps_title (by rw [node_succ_of_end hincident])
      | some incident =>
          have hundergoes := (life.node time).undergoes
            (hvalid.possible time incident hincident)
          have hnext := node_succ hincident
          generalize (life.node time).undergo incident = next at *
          cases hundergoes with
          | overflow _ | unfit => exact ih.keeps_title (by rw [hnext])
          | taken hstep => exact ih.next hserved ⟨hincident, hstep⟩
          | refit _ _ => exact ih.keeps_title (by rw [hnext]; rfl)
          | restarted _ _ hstart =>
              have htitle := Node.start_title hstart
              rw [← hnext] at htitle
              exact .of_title ih.id htitle (by simp) (by simp) (by simp)

/-- What a forfeit comes to: the node follows and keeps nothing for leading,
but names itself, and tells that it has won. -/
theorem Forfeits.outcome [FaithfulLog L] (hvalid : life.Valid)
    (hserved : life.Served) (hforfeits : life.Forfeits time) :
    (life.node (time + 1)).role = .follower ∧
      (life.node (time + 1)).leadership = none ∧
      (life.node (time + 1)).leader = some (life.node (time + 1)).id ∧
      ∀ sender response outcome after,
        life.Takes time (.voteResponse sender response) (.won outcome) after →
          outcome = true := by
  obtain ⟨input, output, after, htakes, candidate, fault, log, helects,
    happend⟩ := hforfeits
  have htitled := hvalid.titled hserved time
  have hrole : (life.node time).role ≠ .leader := by
    cases helects with
    | vote hrole _ _ => simp [hrole]
    | alone _ _ _ => exact hserved.patient time htakes.1
  have hnone : (life.node time).leadership = none :=
    Option.not_isSome_iff_eq_none.mp (fun hsome =>
      hrole (htitled.keeps.mpr hsome))
  obtain ⟨rfl, -, hwon⟩ := helects.step hnone htakes.2
  have htitle : (life.node (time + 1)).title =
      ⟨candidate.id, candidate.term, .follower, some candidate.id, false⟩ := by
    rw [htakes.node_succ]
    exact Node.forfeited_title happend
  have hid := congrArg Title.id htitle
  have hleads := congrArg Title.leads htitle
  rw [Node.title_eq] at hleads
  refine ⟨congrArg Title.role htitle, by simpa using hleads,
    (congrArg Title.leader htitle).trans (congrArg some hid.symm), ?_⟩
  intro sender response outcome other hother
  obtain rfl : input = .voteResponse sender response :=
    Incident.input.inj (Option.some.inj (htakes.1.symm.trans hother.1))
  have houtput := Except.ok.inj (htakes.2.symm.trans hother.2)
  have hwon := (hwon (by simp)).symm.trans (congrArg Prod.fst houtput)
  exact (Output.won.inj hwon).symm

/-- A vote's flag tells that the node has come to lead, or has won and forfeited
the leadership. -/
theorem Valid.won_iff [FaithfulLog L] (hvalid : life.Valid)
    (hserved : life.Served) {sender : NodeId} {response : VoteResponse}
    {outcome : Bool} {after : Node L σ}
    (htakes : life.Takes time (.voteResponse sender response) (.won outcome)
      after) :
    outcome = true ↔
      ((life.node time).role ≠ .leader ∧ after.role = .leader) ∨
        life.Forfeits time := by
  have hentitles := hserved.entitles (hvalid.titled hserved time) htakes
  constructor
  · rintro rfl
    generalize htitle : after.title = title at hentitles
    cases hentitles with
    | keeps hwon => exact absurd rfl hwon
    | desists _ hwon => exact absurd rfl hwon
    | yields _ _ _ _ hwon => exact absurd rfl hwon
    | leads hrole _ _ _ =>
        exact Or.inl ⟨hrole, congrArg Title.role htitle⟩
    | forfeits _ helects happend _ =>
        exact Or.inr ⟨_, _, _, htakes, _, _, _, helects, happend⟩
  · rintro (⟨hrole, hleads⟩ | hforfeits)
    · generalize htitle : after.title = title at hentitles
      have hleads : title.role = .leader := htitle ▸ hleads
      cases hentitles with
      | keeps _ => exact absurd hleads hrole
      | desists _ _ => simp at hleads
      | yields _ hyields _ _ _ => exact absurd hleads hyields
      | leads _ _ _ hwon | forfeits _ _ _ hwon =>
          exact Output.won.inj (hwon (by simp))
    · exact (hforfeits.outcome hvalid hserved).2.2.2 _ _ _ _ htakes

/-- A node that a server runs keeps what a leader keeps exactly while it leads,
and then names itself; it names itself only then and tells a won election
exactly when it comes to lead, but for the elections that it wins without being
able to append: there it follows at once, and still names itself in that
term. -/
theorem titles_honest [FaithfulLog L] (hvalid : life.Valid)
    (hserved : life.Served) (time : Nat) :
    ((life.node time).role = .leader ↔
      (life.node time).leadership.isSome = true) ∧
    ((life.node time).role = .leader →
      (life.node time).leader = some (life.node time).id) ∧
    ((life.node time).leader = some (life.node time).id →
      (life.node time).role = .leader ∨ ∃ earlier < time,
        life.Forfeits earlier ∧
          (life.node (earlier + 1)).term = (life.node time).term) ∧
    (∀ sender response outcome after,
      life.Takes time (.voteResponse sender response) (.won outcome) after →
        (outcome = true ↔
          ((life.node time).role ≠ .leader ∧ after.role = .leader) ∨
            life.Forfeits time)) ∧
    (life.Forfeits time →
      (life.node (time + 1)).role = .follower ∧
        (life.node (time + 1)).leadership = none ∧
        (life.node (time + 1)).leader = some (life.node (time + 1)).id) := by
  have htitled := hvalid.titled hserved time
  refine ⟨htitled.keeps, htitled.names, htitled.named,
    fun _ _ _ _ => hvalid.won_iff hserved, fun hforfeits => ?_⟩
  obtain ⟨hrole, hnone, hleader, -⟩ := hforfeits.outcome hvalid hserved
  exact ⟨hrole, hnone, hleader⟩

end Life

namespace Witness

/-- A node that wins an election, and hears of a newer term. -/
def reigning : Life MemoryLog Tally where
  start := member .empty .start 1
  incidents := [
    .input .electionTimeout,
    .input (.voteResponse 2 (.ok ⟨1, true⟩)),
    .input (.append ⟨2, 3, 1, 1, [], 1, 1⟩)]

theorem reigning_valid : reigning.Valid where
  begins := ⟨1, [1, 2, 3], {}, .empty, .start, numbered_nil, rfl⟩
  possible := Life.possible_of_inputs (by simp [reigning])

theorem reigning_served : reigning.Served where
  running := by simp [reigning]
  foreign := by
    intro request hrequest
    simp only [reigning, List.mem_cons, Incident.input.injEq, reduceCtorEq,
      Input.append.injEq, List.not_mem_nil, or_false, false_or] at hrequest
    subst hrequest
    decide
  patient := by
    intro time htime
    match time with
    | 0 => decide
    | 1 | 2 => simp [reigning] at htime
    | time + 3 => simp [reigning] at htime

/-- The node names itself while it leads, and another one then. -/
theorem titles_honest_reigning : reigning.Valid ∧ reigning.Served ∧
    (reigning.node 2).role = .leader ∧
    (reigning.node 2).leader = some 1 ∧
    (reigning.node 2).leadership.isSome = true ∧
    (reigning.node 3).leader = some 3 ∧
    (reigning.node 3).leadership.isSome = false := by
  obtain ⟨hkeeps, hnames, -⟩ :=
    Life.titles_honest reigning_valid reigning_served 2
  exact ⟨reigning_valid, reigning_served, rfl, hnames rfl, hkeeps.mp rfl, rfl,
    rfl⟩

/-- A node that wins an election and cannot append. -/
def pretending : Life (Faulty MemoryLog) Tally where
  start := member ⟨.empty, { append := some 0 }⟩ .start 1
  incidents := [
    .input .electionTimeout,
    .input (.voteResponse 2 (.ok ⟨1, true⟩))]

theorem pretending_valid : pretending.Valid where
  begins := ⟨1, [1, 2, 3], {}, ⟨.empty, { append := some 0 }⟩, .start,
    ⟨rfl, rfl, rfl, numbered_nil⟩, rfl⟩
  possible := Life.possible_of_inputs (by simp [pretending])

theorem pretending_served : pretending.Served where
  running := by simp [pretending]
  foreign := by simp [pretending]
  patient := by
    intro time htime
    match time with
    | 0 => decide
    | 1 => simp [pretending] at htime
    | time + 2 => simp [pretending] at htime

/-- The node follows and keeps nothing for leading, but names itself and tells
that it has come to lead. -/
theorem titles_honest_pretending : pretending.Valid ∧ pretending.Served ∧
    ∃ after, pretending.Takes 1 (.voteResponse 2 (.ok ⟨1, true⟩)) (.won true)
        after ∧
      after.role = .follower ∧ after.leadership = none ∧
      after.leader = some after.id ∧
      ¬((pretending.node 1).role ≠ .leader ∧ after.role = .leader) ∧
      ¬(after.leader = some after.id ↔ after.role = .leader) :=
  ⟨pretending_valid, pretending_served, _, ⟨rfl, rfl⟩, rfl, rfl, rfl,
    fun hleads => absurd hleads.2 (by decide),
    fun hsame => absurd (hsame.mp rfl) (by decide)⟩

end Witness

end SessionRaft
