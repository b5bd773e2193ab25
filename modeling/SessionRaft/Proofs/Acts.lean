/-
What a node does about an input, act by act.  An act tells the whole node that
it leaves, the entries that were handed to the executor and the requests that
were taken.  A step of a node is a chain of acts; what every act preserves is
preserved by every step.
-/
import SessionRaft.Proofs.DeskTurns

namespace SessionRaft

/-- What a client can ask for. -/
inductive RequestKind where
  | command
  | query
  | register
  | keepAlive
  | unregister
deriving DecidableEq

/-- A request that is to be answered. -/
structure Demand where
  ticket : Ticket
  kind : RequestKind
deriving DecidableEq

def Answer.kind : Answer → RequestKind
  | command _ => .command
  | query _ => .query
  | register _ => .register
  | keepAlive _ => .keepAlive
  | unregister _ => .unregister

def RequestKind.refusal (error : ErrorKind) : RequestKind → Answer
  | command => .command (.error error)
  | query => .query (.error error)
  | register => .register (.error error)
  | keepAlive => .keepAlive (.error error)
  | unregister => .unregister (.error error)

def Waiter.demand : Waiter → Demand
  | command ticket => ⟨ticket, .command⟩
  | register ticket => ⟨ticket, .register⟩
  | keepAlive ticket => ⟨ticket, .keepAlive⟩
  | unregister ticket => ⟨ticket, .unregister⟩

@[simp] theorem Waiter.demand_ticket (waiter : Waiter) :
    waiter.demand.ticket = waiter.ticket := by
  cases waiter <;> rfl

@[simp] theorem Waiter.refusal_demand (waiter : Waiter) (error : ErrorKind) :
    waiter.demand.kind.refusal error = waiter.refusal error := by
  cases waiter <;> rfl

namespace Input

/-- The request of a client, if the input is one that is answered later. -/
def demands : Input → List Demand
  | command ticket _ => [⟨ticket, .command⟩]
  | query ticket _ => [⟨ticket, .query⟩]
  | register ticket _ => [⟨ticket, .register⟩]
  | keepAlive ticket _ => [⟨ticket, .keepAlive⟩]
  | unregister ticket _ => [⟨ticket, .unregister⟩]
  | _ => []

/-- The session of which a client reports the events that it has received, and
the last of these. -/
def report? : Input → Option (SessionId × Int)
  | keepAlive _ request => some (request.session, request.eventSequence)
  | publish request => some (request.session, request.eventSequence)
  | _ => none

/-- An input asks for an operation, and the waiter waits for its outcome. -/
inductive Asks : Input → Waiter → Operation → Prop where
  | command {ticket : Ticket} {request : CommandRequest} (timestamp : Nat)
      (payload : Bytes) :
      Asks (.command ticket request) (.command ticket)
        (.command request.session request.sequence timestamp payload)
  | register {ticket : Ticket} {request : RegisterRequest}
      (timeout timestamp : Nat) :
      Asks (.register ticket request) (.register ticket)
        (.register request.client timeout timestamp)
  | keepAlive {ticket : Ticket} {request : KeepAliveRequest}
      (timestamp : Nat) :
      Asks (.keepAlive ticket request) (.keepAlive ticket)
        (.keepAlive request.session request.commandSequence
          request.eventSequence timestamp)
  | unregister {ticket : Ticket} {request : UnregisterRequest}
      (timestamp : Nat) :
      Asks (.unregister ticket request) (.unregister ticket)
        (.unregister request.session timestamp)

theorem Asks.demands_eq {input : Input} {waiter : Waiter}
    {operation : Operation} (hasks : input.Asks waiter operation) :
    input.demands = [waiter.demand] := by
  cases hasks <;> rfl

end Input

namespace Node

open FaithfulLog

variable {L σ : Type} [LogStore L] [StateMachine σ]

/-- The entries that are handed to the executor while the next ones are
applied. -/
def handed (node : Node L σ) : Nat → List LogEntry
  | 0 => []
  | count + 1 =>
      match LogStore.get? node.log (node.lastApplied + 1) with
      | none => []
      | some entry =>
          entry :: ({ node with
            lastApplied := node.lastApplied + 1 }.applyEntry entry).handed count

/-- Lead with a sequencer. -/
def sequenced (node : Node L σ) (leadership : Leadership)
    (sequencer : Sequencer) : Node L σ :=
  { node with leadership := some { leadership with sequencer := sequencer } }

/-- Do what the sequencer says about a command, and replicate nothing yet. -/
def admitted (node : Node L σ) (record : Session) : Submission → Node L σ
  | .ready commands => node.appendReady commands
  | .held => node
  | .inFlight index command =>
      node.await index (command.tickets.map .command)
  | .stale command =>
      node.answerAll command.tickets
        (.command (record.cachedResult command.request.sequence))

variable [FaithfulLog L]

/-- One thing that a node does about an input, the entries that it hands to the
executor thereby and the requests that it takes. -/
inductive Act (input : Input) (node : Node L σ) :
    List LogEntry → List Demand → Node L σ → Prop where
  | clock {now : Nat} (hinput : input = .clock now) :
      Act input node [] [] { node with now := now }
  /-- Follow, in the present term or in a newer one that was told. -/
  | follow (term : Nat) (hterm : term = node.term ∨
      node.term < term ∧ input.term? = some term) :
      Act input node [] [] (node.becomeFollower term)
  /-- A write fails, and the log says what it said. -/
  | fault {log : L} (hlog : Sound log)
      (hentries : entries log = entries node.log)
      (hstored : stored log = stored node.log) :
      Act input node [] [] { node with log := log }
  /-- Follow because the own vote could not be stored. -/
  | desist (hleadership : node.leadership = none) :
      Act input node [] [] { node with role := .follower, votes := [] }
  /-- Ask for votes in the next term. -/
  | stand {log : L} (hinput : input = .electionTimeout)
      (hleadership : node.leadership = none) (hlog : Sound log)
      (hentries : entries log = entries node.log)
      (hstored : stored log = (node.term + 1, some node.id)) :
      Act input node [] [] (node.candidacy log (node.term + 1))
  | grant {request : VoteRequest} {log : L} (hinput : input = .vote request)
      (hterm : request.term = node.term) (hlog : Sound log)
      (hentries : entries log = entries node.log)
      (hstored : stored log = (node.term, some request.candidate)) :
      Act input node [] []
        { node with votedFor := some request.candidate, log := log }
  | count (member : NodeId) (hrole : node.role = .candidate) :
      Act input node [] [] (node.countVote member)
  | lead (hrole : node.role = .candidate) (hquorum : node.hasQuorum = true) :
      Act input node [] [] node.crowned
  /-- Append the entry with which a leadership begins. -/
  | inaugurate {index : Nat} {log : L} (hrole : node.role = .leader)
      (happend : LogStore.append node.log node.term .noOp = (.ok index, log)) :
      Act input node [] []
        ({ node with log := log }.modifyLeadership (fun leadership =>
          { leadership with noopIndex := index }))
  | learn {request : AppendRequest} (hinput : input = .append request)
      (hrole : node.role = .follower) :
      Act input node [] [] { node with leader := some request.leader }
  /-- Merge entries of the leader, or as many as can be stored. -/
  | merge {request : AppendRequest} {outcome : Except ErrorKind Nat} {log : L}
      (hinput : input = .append request) (hrole : node.role = .follower)
      (hprevious : request.prevLogIndex ≤ LogStore.lastIndex node.log)
      (hjoin : LogStore.termAt node.log request.prevLogIndex =
        request.prevLogTerm)
      (hmerge : Node.merge node.commitIndex node.log request.prevLogIndex
        request.entries = (outcome, log)) :
      Act input node [] [] { node with log := log }
  /-- Commit, and apply what is committed. -/
  | advance {target : Nat} (hlt : node.commitIndex < target)
      (hle : target ≤ LogStore.lastIndex node.log) :
      Act input node
        ({ node with commitIndex := target }.handed
          (target - node.lastApplied)) []
        ({ node with commitIndex := target }.applyNext
          (target - node.lastApplied))
  | serve : Act input node [] [] node.serveQueries
  | publish : Act input node [] [] node.publishEvents
  | round : Act input node [] [] (node.modifyLeadership (fun leadership =>
      { leadership with round := leadership.round + 1 }))
  | post (peers : List NodeId) : Act input node [] [] (node.sendAppends peers)
  | heed {peer : NodeId} {appended : Appended} {leadership : Leadership}
      {next : Nat} (hinput : input = .appendResponse peer (.ok appended))
      (hterm : appended.term = node.term) (hrole : node.role = .leader)
      (hleadership : node.leadership = some leadership)
      (hnext : leadership.nextIndex.get? peer = some next) :
      Act input node [] [] { node with
        leadership := some (leadership.heed peer appended next
          (LogStore.lastIndex node.log)) }
  | refuse {demand : Demand} {error : ErrorKind}
      (hinput : input.demands = [demand]) (herror : error ≠ .protocolError) :
      Act input node [] input.demands
        (node.answer demand.ticket (demand.kind.refusal error))
  /-- Answer a command that was applied. -/
  | retell {ticket : Ticket} {request : CommandRequest} {record : Session}
      (hinput : input = .command ticket request)
      (hrecord : node.executor.sessions.get? request.session = some record)
      (hold : request.sequence ≤ record.commandSequence) :
      Act input node [] input.demands (node.answer ticket
        (.command (record.cachedResult request.sequence)))
  /-- Take a command that was not applied. -/
  | submit {ticket : Ticket} {request : CommandRequest} {record : Session}
      {leadership : Leadership} {sequencer : Sequencer}
      {submission : Submission} (hinput : input = .command ticket request)
      (hrole : node.role = .leader)
      (hrecord : node.executor.sessions.get? request.session = some record)
      (hnew : record.commandSequence < request.sequence)
      (hleadership : node.leadership = some leadership)
      (hsubmit : leadership.sequencer.submit record.commandSequence
        ⟨request, [ticket]⟩ = .ok (sequencer, submission)) :
      Act input node [] input.demands
        ((node.sequenced leadership sequencer).admitted record submission)
  /-- Append what a client asks for. -/
  | enter {waiter : Waiter} {operation : Operation} {index : Nat} {log : L}
      (hasks : input.Asks waiter operation)
      (hcommand : ∀ ticket, waiter ≠ .command ticket)
      (hrole : node.role = .leader)
      (happend : LogStore.append node.log node.term operation =
        (.ok index, log)) :
      Act input node [] input.demands
        ({ node with log := log }.await index [waiter])
  /-- Let a query wait that any node can answer. -/
  | ask {ticket : Ticket} {request : QueryRequest}
      (hinput : input = .query ticket request)
      (hconsistency : request.consistency = .sequential) :
      Act input node [] input.demands { node with
        queries := node.queries ++ [⟨request.index, 0, request, ticket⟩] }
  /-- Let a query wait that has to be fresh. -/
  | askFresh {ticket : Ticket} {request : QueryRequest}
      {leadership : Leadership} (hinput : input = .query ticket request)
      (hconsistency : request.consistency = .linearizable)
      (hleadership : node.leadership = some leadership) :
      Act input node [] input.demands { node with
        queries := node.queries ++
          [⟨max (max node.commitIndex leadership.noopIndex) request.index,
            leadership.round + 1, request, ticket⟩] }
  | acknowledge {session : SessionId} {sequence : Int}
      (hreport : input.report? = some (session, sequence))
      (hrole : node.role = .leader) :
      Act input node [] [] (node.acknowledgeEvents session sequence)
  | retire (hinput : input = .shutdown) : Act input node [] [] node.shutdown

/-- Any number of acts, with everything that was handed to the executor and
taken on the way. -/
inductive Acts (input : Input) (node : Node L σ) :
    List LogEntry → List Demand → Node L σ → Prop where
  | refl : Acts input node [] [] node
  | tail {handed entries : List LogEntry} {taken demands : List Demand}
      {middle after : Node L σ} (hacts : Acts input node handed taken middle)
      (hact : Act input middle entries demands after) :
      Acts input node (handed ++ entries) (taken ++ demands) after

variable {input : Input} {node before middle after : Node L σ}
  {handed entries : List LogEntry} {taken demands : List Demand}

theorem Acts.trans (hfirst : Acts input before handed taken middle)
    (hsecond : Acts input middle entries demands after) :
    Acts input before (handed ++ entries) (taken ++ demands) after := by
  induction hsecond with
  | refl =>
      rw [List.append_nil, List.append_nil]
      exact hfirst
  | tail _ hact ih =>
      rw [← List.append_assoc, ← List.append_assoc]
      exact ih.tail hact

theorem admitted_sound (node : Node L σ) (hrole : node.role = .leader)
    (hlog : Sound node.log) (record : Session) (submission : Submission) :
    Sound (node.admitted record submission).log := by
  cases submission with
  | ready commands =>
      have hproceeds : Proceeds False .heartbeat node _ :=
        (appends_appendReady node commands).proceeds hrole
      exact (hproceeds (.of_sound hlog)).1.sound
  | _ => exact hlog

/-- An act keeps the contract of the log. -/
theorem Act.sound (hlog : Sound node.log)
    (hact : Act input node entries demands after) : Sound after.log := by
  have hfit : Fit False node.log := .of_sound hlog
  cases hact with
  | follow term _ =>
      have hproceeds : Proceeds False input node (node.becomeFollower term) :=
        proceeds_becomeFollower node term
      exact (hproceeds hfit).1.sound
  | fault hafter _ _ => exact hafter
  | stand _ _ hafter _ _ => exact hafter
  | grant _ _ hafter _ _ => exact hafter
  | count member _ =>
      unfold countVote
      split <;> exact hlog
  | inaugurate _ happend => exact (append_done hfit happend).1.sound
  | merge _ _ hprevious _ hmerge =>
      rw [lastIndex_eq_length hlog] at hprevious
      exact (merge_cases hfit hprevious hmerge).1.sound
  | @advance target _ _ =>
      have hsame := applyNext_log { node with commitIndex := target }
        (target - node.lastApplied)
      exact hsame.symm ▸ hlog
  | publish => exact (quiet_publishEvents node).log.symm ▸ hlog
  | submit _ hrole _ _ _ _ =>
      exact admitted_sound (node.sequenced _ _) hrole hlog _ _
  | enter _ _ _ happend => exact (append_done hfit happend).1.sound
  | acknowledge _ _ =>
      unfold acknowledgeEvents
      split
      · exact hlog
      · split <;> exact hlog
  | retire _ => exact (dropAll_log node _).symm ▸ hlog
  | _ => exact hlog

theorem Acts.sound (hlog : Sound before.log)
    (hacts : Acts input before entries demands after) : Sound after.log := by
  induction hacts with
  | refl => exact hlog
  | tail _ hact ih => exact hact.sound ih

/-- Acts that take the requests lead from one node to the other. -/
def ActsTo (input : Input) (before : Node L σ) (demands : List Demand)
    (after : Node L σ) : Prop :=
  Sound before.log → ∃ entries, Acts input before entries demands after

theorem Act.actsTo (hact : Act input before entries demands after) :
    ActsTo input before demands after :=
  fun _ => ⟨[] ++ entries, Acts.refl.tail hact⟩

theorem ActsTo.refl (node : Node L σ) : ActsTo input node [] node :=
  fun _ => ⟨[], .refl⟩

/-- Acts after which no more requests are taken. -/
theorem ActsTo.trans (hfirst : ActsTo input before demands middle)
    (hsecond : ActsTo input middle [] after) :
    ActsTo input before demands after := by
  intro hlog
  obtain ⟨_, hacts⟩ := hfirst hlog
  obtain ⟨_, hmore⟩ := hsecond (hacts.sound hlog)
  exact ⟨_, List.append_nil demands ▸ hacts.trans hmore⟩

/-- Acts before which no requests were taken. -/
theorem ActsTo.head (hfirst : ActsTo input before [] middle)
    (hsecond : ActsTo input middle demands after) :
    ActsTo input before demands after := by
  intro hlog
  obtain ⟨_, hacts⟩ := hfirst hlog
  obtain ⟨_, hmore⟩ := hsecond (hacts.sound hlog)
  exact ⟨_, hacts.trans hmore⟩

theorem actsTo_applyCommitted {target : Nat} (hlt : node.commitIndex < target)
    (hle : target ≤ LogStore.lastIndex node.log) :
    ActsTo input node []
      ({ node with commitIndex := target }.applyCommitted) :=
  ((Act.advance hlt hle).actsTo.trans Act.serve.actsTo).trans Act.publish.actsTo

theorem actsTo_advanceCommit (node : Node L σ) :
    ActsTo input node [] node.advanceCommit.2 := by
  unfold advanceCommit
  cases htarget : node.leadership.bind node.commitTarget? with
  | none => exact .refl node
  | some target =>
      obtain ⟨leadership, -, htarget⟩ := Option.bind_eq_some_iff.mp htarget
      obtain ⟨hlt, hle, -, -⟩ := commitTarget?_spec htarget
      exact actsTo_applyCommitted hlt hle

theorem actsTo_replicate (node : Node L σ) :
    ActsTo input node [] node.replicate := by
  unfold replicate
  split
  · exact (Act.round.actsTo.trans (Act.post node.peers).actsTo).trans
      (actsTo_advanceCommit node.broadcast)
  · exact .refl node

/-- A write that fails is a fault. -/
theorem actsTo_failed_append {operation : Operation} {fault : LogFault}
    {log : L} (happend : LogStore.append node.log node.term operation =
      (.error fault, log)) :
    ActsTo input node [] { node with log := log } := by
  intro hlog
  obtain ⟨hafter, hentries, hstored⟩ := append_failed (.of_sound hlog) happend
  exact (Act.fault hafter.sound hentries hstored).actsTo hlog

theorem actsTo_failed_vote {term : Nat} {votedFor : Option NodeId}
    {fault : LogFault} {log : L}
    (hsave : LogStore.saveVote node.log term votedFor = (.error fault, log)) :
    ActsTo input node [] { node with log := log } := by
  intro hlog
  obtain ⟨hafter, hentries, hstored⟩ := saveVote_failed (.of_sound hlog) hsave
  exact (Act.fault hafter.sound hentries hstored).actsTo hlog

theorem actsTo_beginTerm (hrole : node.role = .leader) :
    ActsTo input node [] node.beginTerm := by
  unfold beginTerm
  rcases happend : LogStore.append node.log node.term .noOp with
    ⟨outcome, log⟩
  rcases outcome with fault | index
  · exact (actsTo_failed_append happend).trans
      (Act.follow _ (Or.inl rfl)).actsTo
  · exact ((Act.inaugurate hrole happend).actsTo.trans
      (actsTo_replicate _)).trans Act.publish.actsTo

theorem actsTo_becomeLeader (hrole : node.role = .candidate)
    (hquorum : node.hasQuorum = true) :
    ActsTo input node [] node.becomeLeader := by
  have hbegins : ActsTo input node.crowned [] node.crowned.beginTerm :=
    actsTo_beginTerm rfl
  exact (Act.lead hrole hquorum).actsTo.trans hbegins

theorem actsTo_campaign (hleadership : node.leadership = none) :
    ActsTo .electionTimeout node [] (node.campaign (node.term + 1)).2 := by
  unfold campaign
  rcases hsave : LogStore.saveVote node.log (node.term + 1) (some node.id) with
    ⟨outcome, log⟩
  rcases outcome with fault | ⟨⟩
  · exact (Act.desist hleadership).actsTo.trans (actsTo_failed_vote hsave)
  · have hstands : ActsTo .electionTimeout node []
        (node.candidacy log (node.term + 1)) := by
      intro hlog
      obtain ⟨hafter, hentries, hstored⟩ :=
        saveVote_done (.of_sound hlog) hsave
      exact (Act.stand rfl hleadership hafter.sound hentries hstored).actsTo
        hlog
    by_cases hquorum : (node.candidacy log (node.term + 1)).hasQuorum = true
    · simp only [hquorum, ↓reduceIte]
      exact hstands.trans (actsTo_becomeLeader rfl hquorum)
    · simp only [hquorum]
      exact hstands

theorem actsTo_startElection {asked : Option VoteRequest}
    (hstart : node.startElection = .ok (asked, after)) :
    ActsTo .electionTimeout node [] after := by
  have hresigned : ActsTo .electionTimeout node [] node.resigned := by
    unfold resigned
    split
    · exact (Act.follow _ (Or.inl rfl)).actsTo
    · exact .refl node
  rw [startElection_eq] at hstart
  simp only [successor] at hstart
  split at hstart
  · simp [Except.map] at hstart
  · simp only [Except.map, Except.ok.injEq] at hstart
    have hcampaign := actsTo_campaign (resigned_leadership node)
    rw [hstart] at hcampaign
    exact hresigned.trans hcampaign

theorem actsTo_handleVote (node : Node L σ) (request : VoteRequest) :
    ActsTo (.vote request) node [] (node.handleVote request).2 := by
  have hadopted : ActsTo (.vote request) node []
      (if node.term < request.term then node.becomeFollower request.term
        else node) := by
    split
    · rename_i hnewer
      exact (Act.follow _ (Or.inr ⟨hnewer, rfl⟩)).actsTo
    · exact .refl node
  have hterm : request.term ≤ (if node.term < request.term then
      node.becomeFollower request.term else node).term := by
    split
    · rw [becomeFollower_term]
      exact Nat.le_max_right _ _
    · omega
  unfold handleVote
  dsimp only
  generalize (if node.term < request.term then
    node.becomeFollower request.term else node) = voter at hadopted hterm ⊢
  split
  · rename_i hgrants
    obtain ⟨hle, -, -⟩ := hgrants
    simp only [persistVote]
    rcases hsave : LogStore.saveVote voter.log voter.term
      (some request.candidate) with ⟨outcome, log⟩
    rcases outcome with fault | ⟨⟩
    · exact hadopted.trans (actsTo_failed_vote hsave)
    · have hgranted : ActsTo (.vote request) voter [] { voter with
          votedFor := some request.candidate, log := log } := by
        intro hlog
        obtain ⟨hafter, hentries, hstored⟩ :=
          saveVote_done (.of_sound hlog) hsave
        exact (Act.grant rfl (by omega) hafter.sound hentries hstored).actsTo
          hlog
      exact hadopted.trans hgranted
  · exact hadopted

theorem actsTo_handleVoteResponse (node : Node L σ) (member : NodeId)
    (response : VoteResponse) :
    ActsTo (.voteResponse member response) node []
      (node.handleVoteResponse member response).2 := by
  cases response with
  | error kind => exact .refl node
  | ok vote =>
      simp only [handleVoteResponse]
      split
      · rename_i hnewer
        exact (Act.follow _ (Or.inr ⟨hnewer, rfl⟩)).actsTo
      · split
        · rename_i hcounts
          obtain ⟨hrole, -, -, -⟩ := hcounts
          have hcounted : ActsTo (.voteResponse member (.ok vote)) node []
              (node.countVote member) := (Act.count member hrole).actsTo
          split
          · rename_i hquorum
            refine hcounted.trans (actsTo_becomeLeader ?_ hquorum)
            unfold countVote
            split <;> exact hrole
          · exact hcounted
        · exact .refl node

theorem actsTo_followCommit {target : Nat}
    (hle : target ≤ LogStore.lastIndex node.log) :
    ActsTo input node [] (node.followCommit target) := by
  unfold followCommit
  split
  · rename_i hlt
    exact actsTo_applyCommitted hlt hle
  · exact .refl node

theorem actsTo_receive {request : AppendRequest}
    (hrole : node.role = .follower) :
    ActsTo (.append request) node [] (node.receive request).2 := by
  intro hlog
  unfold receive
  dsimp only
  split
  · exact ActsTo.refl node hlog
  · rename_i hprevious
    have hprevious := Nat.le_of_not_lt hprevious
    split
    · exact ActsTo.refl node hlog
    · rename_i hjoin
      have hjoin : LogStore.termAt node.log request.prevLogIndex =
          request.prevLogTerm := Decidable.of_not_not hjoin
      split
      · rename_i kind log hmerge
        exact (Act.merge rfl hrole hprevious hjoin hmerge).actsTo hlog
      · rename_i matched log hmerge
        have hfit : Fit False node.log := .of_sound hlog
        obtain ⟨hmatched, hjoined⟩ :=
          joined_of_merge hfit hprevious hjoin hmerge
        have hle : matched ≤ LogStore.lastIndex log := by
          rw [lastIndex_eq_length hfit.sound] at hprevious
          have hafter := (merge_cases hfit hprevious hmerge).1
          rw [lastIndex_eq_length hafter.sound, hmatched]
          exact matches_length hjoined.1 hjoined.2.2
        exact ((Act.merge rfl hrole hprevious hjoin hmerge).actsTo.trans
          (actsTo_followCommit (Nat.le_trans (Nat.min_le_right _ _) hle))) hlog

theorem actsTo_handleAppend (node : Node L σ) (request : AppendRequest) :
    ActsTo (.append request) node [] (node.handleAppend request).2 := by
  rw [handleAppend_eq]
  split
  · exact .refl node
  · rename_i hstale
    have hlearns : ∀ follower : Node L σ, follower.role = .follower →
        ActsTo (.append request) follower []
          { follower with leader := some request.leader } :=
      fun follower hfollower => (Act.learn rfl hfollower).actsTo
    have hreceptive : ActsTo (.append request) node []
        (node.receptive request) := by
      unfold receptive
      split
      · have hterm : request.term = node.term ∨ node.term < request.term ∧
            Input.term? (.append request) = some request.term := by
          rcases Nat.lt_or_ge node.term request.term with hlt | hge
          · exact Or.inr ⟨hlt, rfl⟩
          · exact Or.inl (Nat.le_antisymm hge (Nat.le_of_not_lt hstale))
        exact (Act.follow _ hterm).actsTo.trans
          (hlearns _ (becomeFollower_role node _))
      · rename_i hturns
        refine hlearns node (Decidable.of_not_not (fun hrole => ?_))
        exact hturns (Or.inr hrole)
    obtain ⟨-, -, hrole⟩ : Proceeds False (.append request) node
        (node.receptive request) ∧ _ := receptive_cases hstale
    exact hreceptive.trans (actsTo_receive hrole)

theorem actsTo_acceptProgress (node : Node L σ) (leadership : Leadership)
    (peer : NodeId) (index : Nat) :
    ActsTo input
      { node with
        leadership := some (Leadership.progress leadership peer
          (max (leadership.matchIndex.getD peer 0)
            (min index (LogStore.lastIndex node.log)))) } []
      (node.acceptProgress leadership peer index).2 := by
  unfold acceptProgress
  dsimp only
  split
  · exact (actsTo_advanceCommit _).trans (Act.post [peer]).actsTo
  · exact actsTo_advanceCommit _

theorem actsTo_handleAppendResponse {peer : NodeId}
    {response : AppendResponse} {outcome : Bool}
    (hheeded : node.handleAppendResponse peer response =
      .ok (outcome, after)) :
    ActsTo (.appendResponse peer response) node [] after := by
  unfold handleAppendResponse at hheeded
  split at hheeded
  · obtain ⟨-, rfl⟩ := Prod.mk.inj (Except.ok.inj hheeded)
    exact .refl node
  · rename_i appended
    split at hheeded
    · rename_i hnewer
      obtain ⟨-, rfl⟩ := Prod.mk.inj (Except.ok.inj hheeded)
      exact (Act.follow _ (Or.inr ⟨hnewer, rfl⟩)).actsTo
    · rename_i hnewer
      split at hheeded
      · obtain ⟨-, rfl⟩ := Prod.mk.inj (Except.ok.inj hheeded)
        exact .refl node
      · rename_i hleads
        have hterm : appended.term = node.term := by
          have hnotOlder : ¬appended.term < node.term := fun hlt =>
            hleads (Or.inr hlt)
          omega
        have hrole : node.role = .leader :=
          Decidable.of_not_not (fun hne => hleads (Or.inl hne))
        split at hheeded
        · obtain ⟨-, rfl⟩ := Prod.mk.inj (Except.ok.inj hheeded)
          exact .refl node
        · rename_i leadership hleadership
          split at hheeded
          · obtain ⟨-, rfl⟩ := Prod.mk.inj (Except.ok.inj hheeded)
            exact .refl node
          · rename_i next hnext
            have hnoted : ActsTo (.appendResponse peer (.ok appended)) node []
                { node with
                  leadership := some (leadership.heed peer appended next
                    (LogStore.lastIndex node.log)) } :=
              (Act.heed rfl hterm hrole hleadership hnext).actsTo
            split at hheeded
            · rename_i hsucceeded
              rw [Leadership.heed, if_pos hsucceeded] at hnoted
              obtain ⟨-, rfl⟩ := Prod.mk.inj (Except.ok.inj hheeded)
              exact (hnoted.trans (actsTo_acceptProgress _ _ _ _)).trans
                Act.serve.actsTo
            · rename_i hrefused
              rw [Leadership.heed, if_neg hrefused] at hnoted
              obtain ⟨tried, htried, heq⟩ := exists_of_bind hheeded
              obtain ⟨-, rfl⟩ := Prod.mk.inj (Except.ok.inj heq)
              rw [acceptRefusal_eq htried]
              exact (hnoted.trans (Act.post [peer]).actsTo).trans
                Act.serve.actsTo

omit [FaithfulLog L] in
/-- Whatever is due is replicated once it is appended. -/
theorem follow_eq (node : Node L σ) (record : Session)
    (submission : Submission) :
    node.follow record submission =
      match submission with
      | .ready _ => (node.admitted record submission).replicate
      | _ => node.admitted record submission := by
  cases submission <;> rfl

theorem actsTo_submitCommand {ticket : Ticket} {request : CommandRequest}
    (hsubmit : node.submitCommand ticket request = .ok after) :
    ActsTo (.command ticket request) node [⟨ticket, .command⟩] after := by
  have hrefused : ∀ kind, kind ≠ .protocolError →
      Except.ok (node.answer ticket (.command (.error kind))) =
        (.ok after : Except Overflow (Node L σ)) →
      ActsTo (.command ticket request) node [⟨ticket, .command⟩] after := by
    intro kind hkind heq
    obtain rfl := Except.ok.inj heq
    exact (Act.refuse rfl hkind :
      Act (.command ticket request) node _ _ _).actsTo
  unfold submitCommand at hsubmit
  split at hsubmit
  · exact hrefused _ (by decide) hsubmit
  · rename_i hrole
    have hrole : node.role = .leader := Decidable.of_not_not hrole
    split at hsubmit
    · exact hrefused _ (by decide) hsubmit
    · rename_i record hrecord
      split at hsubmit
      · rename_i hold
        obtain rfl := Except.ok.inj hsubmit
        exact (Act.retell rfl hrecord hold :
          Act (.command ticket request) node _ _ _).actsTo
      · rename_i hnew
        split at hsubmit
        · exact hrefused _ (by decide) hsubmit
        · rename_i leadership hleadership
          obtain ⟨⟨sequencer, submission⟩, hsubmitted, heq⟩ :=
            exists_of_bind hsubmit
          obtain rfl := Except.ok.inj heq
          have hadmitted : ActsTo (.command ticket request) node
              [⟨ticket, .command⟩] _ :=
            (Act.submit rfl hrole hrecord (Nat.lt_of_not_le hnew) hleadership
              hsubmitted : Act (.command ticket request) node _ _ _).actsTo
          rw [follow_eq]
          split
          · exact hadmitted.trans (actsTo_replicate _)
          · exact hadmitted

theorem actsTo_enqueue {query : PendingQuery}
    (hasked : ActsTo input node demands
      { node with queries := node.queries ++ [query] }) :
    ActsTo input node demands (node.enqueue query) := by
  unfold enqueue
  dsimp only
  split
  · exact hasked.trans Act.serve.actsTo
  · exact (hasked.trans (actsTo_replicate _)).trans Act.serve.actsTo

theorem actsTo_submitQuery (node : Node L σ) (ticket : Ticket)
    (request : QueryRequest) :
    ActsTo (.query ticket request) node [⟨ticket, .query⟩]
      (node.submitQuery ticket request) := by
  unfold submitQuery
  split
  · rename_i hconsistency
    exact actsTo_enqueue (Act.ask rfl hconsistency :
      Act (.query ticket request) node _ _ _).actsTo
  · exact (Act.refuse rfl (by decide) :
      Act (.query ticket request) node _ _ _).actsTo
  · rename_i leadership hconsistency hleadership
    exact actsTo_enqueue (Act.askFresh rfl hconsistency hleadership :
      Act (.query ticket request) node _ _ _).actsTo

theorem actsTo_appendOperation {waiter : Waiter} {operation : Operation}
    {next : Node L σ → Node L σ} (hasks : input.Asks waiter operation)
    (hcommand : ∀ ticket, waiter ≠ .command ticket)
    (hnext : ∀ node : Node L σ, node.role = .leader →
      ActsTo input node [] (next node)) :
    ActsTo input node input.demands
      (node.appendOperation waiter operation next) := by
  have hrefused : ∀ (node : Node L σ) kind, kind ≠ .protocolError →
      ActsTo input node input.demands
        (node.answer waiter.ticket (waiter.refusal kind)) := by
    intro node kind hkind
    have hact : Act input node [] input.demands _ :=
      .refuse hasks.demands_eq hkind
    rw [Waiter.demand_ticket, Waiter.refusal_demand] at hact
    exact hact.actsTo
  unfold appendOperation
  split
  · exact hrefused node _ (by decide)
  · rename_i hrole
    have hrole : node.role = .leader := Decidable.of_not_not hrole
    split
    · rename_i fault log happend
      exact (actsTo_failed_append happend).head (hrefused _ _ (by decide))
    · rename_i index log happend
      exact (Act.enter hasks hcommand hrole happend).actsTo.trans
        (hnext _ hrole)

theorem actsTo_submitKeepAlive (node : Node L σ) (ticket : Ticket)
    (request : KeepAliveRequest) :
    ActsTo (.keepAlive ticket request) node [⟨ticket, .keepAlive⟩]
      (node.submitKeepAlive ticket request) := by
  unfold submitKeepAlive
  dsimp only
  split
  · exact (Act.refuse rfl (by decide) :
      Act (.keepAlive ticket request) node _ _ _).actsTo
  · refine actsTo_appendOperation (.keepAlive node.now) (by simp)
      (fun node hrole => ?_)
    have hacknowledged : ActsTo (.keepAlive ticket request) node []
        (node.acknowledgeEvents request.session request.eventSequence) :=
      (Act.acknowledge rfl hrole).actsTo
    exact (hacknowledged.trans (actsTo_replicate _)).trans Act.publish.actsTo

theorem actsTo_submitUnregister (node : Node L σ) (ticket : Ticket)
    (request : UnregisterRequest) :
    ActsTo (.unregister ticket request) node [⟨ticket, .unregister⟩]
      (node.submitUnregister ticket request) := by
  unfold submitUnregister
  split
  · exact (Act.refuse rfl (by decide) :
      Act (.unregister ticket request) node _ _ _).actsTo
  · exact actsTo_appendOperation (.unregister node.now) (by simp)
      (fun node _ => actsTo_replicate node)

theorem actsTo_publish (node : Node L σ) (request : PublishRequest) :
    ActsTo (.publish request) node [] (node.publish request).2 := by
  unfold Node.publish
  split
  · exact .refl node
  · rename_i hrole
    dsimp only
    split
    · exact .refl node
    · have hacknowledged : ActsTo (.publish request) node []
          (node.acknowledgeEvents request.session request.eventSequence) :=
        (Act.acknowledge rfl (Decidable.of_not_not hrole)).actsTo
      exact hacknowledged.trans Act.publish.actsTo

/-- A step is a chain of acts, in which the request of the input is taken
once. -/
theorem step_actsTo {output : Output}
    (hstep : node.step input = .ok (output, after)) :
    ActsTo input node input.demands after := by
  cases stepsTo hstep with
  | clock now => exact (Act.clock rfl).actsTo
  | electionTimeout hstart => exact actsTo_startElection hstart
  | heartbeat => exact actsTo_replicate node
  | @vote request _ _ _ hvote =>
      have hacts := actsTo_handleVote node request
      rwa [hvote] at hacts
  | @voteResponse sender response _ _ hheeded =>
      have hacts := actsTo_handleVoteResponse node sender response
      rwa [hheeded] at hacts
  | @append request _ _ _ happend =>
      have hacts := actsTo_handleAppend node request
      rwa [happend] at hacts
  | appendResponse hheeded => exact actsTo_handleAppendResponse hheeded
  | command hsubmit => exact actsTo_submitCommand hsubmit
  | query ticket request => exact actsTo_submitQuery node ticket request
  | register ticket request =>
      exact actsTo_appendOperation (.register _ _) (by simp)
        (fun node _ => actsTo_replicate node)
  | keepAlive ticket request => exact actsTo_submitKeepAlive node ticket request
  | unregister ticket request =>
      exact actsTo_submitUnregister node ticket request
  | publish request => exact actsTo_publish node request
  | shutdown => exact (Act.retire rfl).actsTo

end Node

end SessionRaft
