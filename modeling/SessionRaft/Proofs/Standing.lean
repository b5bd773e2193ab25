/-
What of a node the agreement of the cluster depends on, and everything that
one step can do to it.  A step of a node is a chain of moves; whatever every
move preserves is preserved by every step.
-/
import Mathlib.Logic.Relation
import SessionRaft.Node.Input
import SessionRaft.Proofs.Splice

namespace SessionRaft

/-- What of a leadership concerns the copying of the log. -/
def Leadership.bare (leadership : Leadership) : Leadership :=
  { leadership with noopIndex := 0, sequencer := .start, publisher := .start }

/-- Whether a message goes to another node. -/
def Outbound.isMail : Outbound → Bool
  | .vote _ _ => true
  | .append _ _ => true
  | .publish _ _ _ => false

/-- The tickets of the queries that were answered with a result. -/
def servedOf (answers : List (Ticket × Answer)) : List Ticket :=
  answers.filterMap (fun answer =>
    match answer.2 with
    | .query (.ok _) => some answer.1
    | _ => none)

/-- Close the sessions that lapsed before an operation. -/
def Executor.lapse {σ : Type} (executor : Executor σ) (operation : Operation) :
    Executor σ :=
  match operation.timestamp? with
  | some timestamp => executor.expire timestamp
  | none => executor

/-- What the executor does with a committed entry: the entry's timestamp closes
lapsed sessions, then the entry is applied. -/
def Executor.commit {σ : Type} [StateMachine σ] (executor : Executor σ)
    (entry : LogEntry) : Executor σ × Applied :=
  (executor.lapse entry.operation).apply entry

/-- Move the acknowledgment of a session's events. -/
def Executor.acknowledge {σ : Type} (executor : Executor σ)
    (session : SessionId) (sequence : Int) : Executor σ :=
  { executor with
    sessions := executor.sessions.update session
      (fun record => record.acknowledge sequence) }

/-- What of a node the agreement of the cluster depends on. -/
structure Standing (σ : Type) where
  id : NodeId
  members : List NodeId
  role : Role
  term : Nat
  votedFor : Option NodeId
  votes : List NodeId
  /-- The term and the vote that a restart finds. -/
  stored : Nat × Option NodeId
  entries : List LogEntry
  commitIndex : Nat
  lastApplied : Nat
  executor : Executor σ
  leadership : Option Leadership
  /-- The messages to other nodes that nobody has taken yet. -/
  mail : List Outbound
  queries : List PendingQuery
  /-- The queries answered with a result that nobody has taken yet. -/
  served : List Ticket

namespace Standing

variable {σ : Type}

def peers (standing : Standing σ) : List NodeId :=
  standing.members.filter (fun member => member != standing.id)

def quorum (standing : Standing σ) : Nat := standing.members.length / 2 + 1

def voteRequest (standing : Standing σ) : VoteRequest where
  term := standing.term
  candidate := standing.id
  lastLogIndex := standing.entries.length
  lastLogTerm := lastTermOf standing.entries

/-- The request that takes a peer at most `limit` entries from the index on
that it is due. -/
def appendRequest (standing : Standing σ) (leadership : Leadership)
    (peer : NodeId) (limit : Nat) : AppendRequest :=
  let next :=
    max 1 (leadership.nextIndex.getD peer (standing.entries.length + 1))
  { term := standing.term
    leader := standing.id
    prevLogIndex := next - 1
    prevLogTerm := termOf standing.entries (next - 1)
    entries := (standing.entries.drop (next - 1)).take limit
    commitIndex := standing.commitIndex
    round := leadership.round }

/-- The broadcasts answered by the node itself and by its peers. -/
def rounds (standing : Standing σ) (leadership : Leadership) : List Nat :=
  leadership.round ::
    standing.peers.map (fun peer => leadership.ackedRound.getD peer 0)

/-- The latest broadcast that a quorum has answered. -/
def confirmedRound (standing : Standing σ) : Nat :=
  match standing.leadership with
  | none => 0
  | some leadership =>
      ((standing.rounds leadership).mergeSort
        (fun left right => decide (right ≤ left))).getD (standing.quorum - 1) 0

def newLeadership (standing : Standing σ) : Leadership where
  nextIndex := .ofKeys standing.peers (standing.entries.length + 1)
  matchIndex := .ofKeys standing.peers 0
  noopIndex := 0
  round := 0
  ackedRound := .empty
  sequencer := .start
  publisher := .start

/-- The standing of a candidate that has just won. -/
def led (standing : Standing σ) : Standing σ :=
  { standing with
    role := .leader
    votes := []
    leadership := some standing.newLeadership }

/-- No query waits for the leadership that is about to be given up. -/
def Released (standing : Standing σ) : Prop :=
  standing.leadership.isSome = true →
    ∀ query ∈ standing.queries, Node.isFresh query = false

/-- The entries join on to a request and hold what it carries. -/
def Joined (standing : Standing σ) (request : AppendRequest) : Prop :=
  request.prevLogIndex ≤ standing.entries.length ∧
    termOf standing.entries request.prevLogIndex = request.prevLogTerm ∧
    Matches standing.entries request.prevLogIndex request.entries

end Standing

/-- What a leader notes of a peer's answer. -/
def Leadership.heed (leadership : Leadership) (peer : NodeId)
    (appended : Appended) (next last : Nat) : Leadership :=
  let leadership :=
    Node.Leadership.acknowledge leadership peer appended.round
  if appended.succeeded then
    Node.Leadership.progress leadership peer
      (max (leadership.matchIndex.getD peer 0) (min appended.lastLogIndex last))
  else
    Node.Leadership.retreat leadership peer
      (max 1 (min (next - 1) (appended.lastLogIndex + 1)))

/-- One thing that a node does while it takes an input.  Where votes are always
stored, `steady` holds. -/
inductive Move {σ : Type} [StateMachine σ] (steady : Prop) (input : Input) :
    Standing σ → Standing σ → Prop where
  | adopt {standing : Standing σ} {term : Nat} {stored : Nat × Option NodeId}
      (hterm : standing.term < term)
      (hstored : stored = (term, none) ∨
        ¬steady ∧ stored = standing.stored)
      (hreleased : standing.Released) :
      Move steady input standing { standing with
        term := term
        votedFor := none
        role := .follower
        votes := []
        stored := stored
        leadership := none }
  | yield {standing : Standing σ} (hreleased : standing.Released) :
      Move steady input standing { standing with
        role := .follower
        votes := []
        leadership := none }
  /-- Drop the leadership because the node stops. -/
  | retire {standing : Standing σ} (hqueries : standing.queries = []) :
      Move steady input standing { standing with leadership := none }
  /-- Ask for votes in the next term. -/
  | stand {standing : Standing σ} (hleadership : standing.leadership = none) :
      Move steady input standing { standing with
        term := standing.term + 1
        votedFor := some standing.id
        role := .candidate
        votes := [standing.id]
        stored := (standing.term + 1, some standing.id)
        mail := standing.mail ++ standing.peers.map (fun peer =>
          .vote peer { standing.voteRequest with term := standing.term + 1 }) }
  | grant {standing : Standing σ} {request : VoteRequest}
      (hinput : input = .vote request) (hterm : request.term = standing.term)
      (hfree : standing.votedFor = none ∨
        standing.votedFor = some request.candidate)
      (hlog : lastTermOf standing.entries < request.lastLogTerm ∨
        request.lastLogTerm = lastTermOf standing.entries ∧
          standing.entries.length ≤ request.lastLogIndex) :
      Move steady input standing { standing with
        votedFor := some request.candidate
        stored := (standing.term, some request.candidate) }
  | count {standing : Standing σ} {member : NodeId}
      (hinput : input = .voteResponse member (.ok ⟨standing.term, true⟩))
      (hrole : standing.role = .candidate)
      (hmember : member ∈ standing.members)
      (hnew : member ∉ standing.votes) :
      Move steady input standing
        { standing with votes := standing.votes ++ [member] }
  | lead {standing : Standing σ} (hrole : standing.role = .candidate)
      (hquorum : standing.quorum ≤ standing.votes.length) :
      Move steady input standing standing.led
  /-- Append an entry of the present term. -/
  | extend {standing : Standing σ} (operation : Operation)
      (hrole : standing.role = .leader) :
      Move steady input standing { standing with
        entries := standing.entries ++
          [⟨standing.term, standing.entries.length + 1, operation⟩] }
  /-- Merge entries of the leader, or as many as can be stored. -/
  | merge {standing : Standing σ} {request : AppendRequest}
      {entries : List LogEntry}
      (hinput : input = .append request) (hterm : request.term = standing.term)
      (hrole : standing.role = .follower)
      (hprevious : request.prevLogIndex ≤ standing.entries.length)
      (hjoin : termOf standing.entries request.prevLogIndex =
        request.prevLogTerm)
      (hspliced : Spliced standing.commitIndex standing.entries
        request.prevLogIndex request.entries entries) :
      Move steady input standing { standing with entries := entries }
  /-- Commit what the leader has committed. -/
  | hear {standing : Standing σ} {request : AppendRequest} {target : Nat}
      (hinput : input = .append request) (hterm : request.term = standing.term)
      (hjoined : standing.Joined request)
      (htarget : target ≤ request.commitIndex)
      (hmatched : target ≤ request.prevLogIndex + request.entries.length)
      (hlt : standing.commitIndex < target) :
      Move steady input standing { standing with commitIndex := target }
  | commit {standing : Standing σ} {leadership : Leadership} {target : Nat}
      (hleadership : standing.leadership = some leadership)
      (hlt : standing.commitIndex < target)
      (hle : target ≤ standing.entries.length)
      (hterm : termOf standing.entries target = standing.term)
      (hquorum : standing.quorum ≤ Node.replicas leadership target) :
      Move steady input standing { standing with commitIndex := target }
  | apply {standing : Standing σ} {entry : LogEntry}
      (hlt : standing.lastApplied < standing.commitIndex)
      (hentry : standing.entries[standing.lastApplied]? = some entry) :
      Move steady input standing { standing with
        lastApplied := standing.lastApplied + 1
        executor := (standing.executor.commit entry).1 }
  /-- Take note of events that a client has received. -/
  | acknowledge {standing : Standing σ} (session : SessionId)
      (sequence : Int) :
      Move steady input standing { standing with
        executor := standing.executor.acknowledge session sequence }
  | heed {standing : Standing σ} {leadership : Leadership} {peer : NodeId}
      {appended : Appended} {next : Nat}
      (hinput : input = .appendResponse peer (.ok appended))
      (hterm : appended.term = standing.term)
      (hrole : standing.role = .leader)
      (hleadership : standing.leadership = some leadership)
      (hnext : leadership.nextIndex.get? peer = some next) :
      Move steady input standing { standing with
        leadership := some
          (leadership.heed peer appended next standing.entries.length) }
  | round {standing : Standing σ} {leadership : Leadership}
      (hleadership : standing.leadership = some leadership) :
      Move steady input standing { standing with
        leadership := some { leadership with round := leadership.round + 1 } }
  | post {standing : Standing σ} {leadership : Leadership} (peer : NodeId)
      (limit : Nat) (hleadership : standing.leadership = some leadership) :
      Move steady input standing { standing with
        mail := standing.mail ++
          [.append peer (standing.appendRequest leadership peer limit)] }
  /-- Let a query wait.  One that has to be fresh waits for the next
  broadcast. -/
  | ask {standing : Standing σ} {ticket : Ticket} {request : QueryRequest}
      {query : PendingQuery} (hinput : input = .query ticket request)
      (hticket : query.ticket = ticket) (hrequest : query.request = request)
      (hround : Node.isFresh query = true →
        ∃ leadership, standing.leadership = some leadership ∧
          query.round = leadership.round + 1) :
      Move steady input standing
        { standing with queries := standing.queries ++ [query] }
  /-- Let go of some queries without a result. -/
  | forgo {standing : Standing σ} {queries : List PendingQuery}
      (hqueries : queries ⊆ standing.queries) :
      Move steady input standing { standing with queries := queries }
  /-- Answer queries whose broadcast a quorum has answered. -/
  | serve {standing : Standing σ} {queries : List PendingQuery}
      {tickets : List Ticket} (hqueries : queries ⊆ standing.queries)
      (htickets : ∀ ticket ∈ tickets, ∃ query ∈ standing.queries,
        query.ticket = ticket ∧ query.round ≤ standing.confirmedRound) :
      Move steady input standing { standing with
        queries := queries
        served := standing.served ++ tickets }

def Moves {σ : Type} [StateMachine σ] (steady : Prop) (input : Input) :
    Standing σ → Standing σ → Prop :=
  Relation.ReflTransGen (Move steady input)

namespace Move

variable {σ : Type} [StateMachine σ] {steady : Prop} {input : Input}
  {before after : Standing σ}

theorem id_eq (hmove : Move steady input before after) :
    after.id = before.id := by
  cases hmove <;> rfl

/-- Only a candidate with enough votes comes to lead. -/
theorem leads (hmove : Move steady input before after)
    (hrole : after.role = .leader) :
    (before.role = .leader ∧ before.term = after.term) ∨
      (before.role = .candidate ∧ before.quorum ≤ before.votes.length ∧
        after = before.led) := by
  cases hmove with
  | adopt _ _ _ => simp at hrole
  | yield _ => simp at hrole
  | stand _ => simp at hrole
  | lead hcandidate hquorum => exact Or.inr ⟨hcandidate, hquorum, rfl⟩
  | _ => exact Or.inl ⟨hrole, rfl⟩

theorem members_eq (hmove : Move steady input before after) :
    after.members = before.members := by
  cases hmove <;> rfl

/-- No move goes back to an earlier term. -/
theorem term_le (hmove : Move steady input before after) :
    before.term ≤ after.term := by
  cases hmove with
  | adopt hterm _ _ => exact Nat.le_of_lt hterm
  | stand _ => exact Nat.le_succ _
  | _ => exact Nat.le_refl _

end Move

namespace Moves

variable {σ : Type} [StateMachine σ] {steady : Prop} {input : Input}
  {before after : Standing σ}

theorem id_eq (hmoves : Moves steady input before after) :
    after.id = before.id := by
  induction hmoves with
  | refl => rfl
  | tail _ hmove ih => exact hmove.id_eq.trans ih

theorem members_eq (hmoves : Moves steady input before after) :
    after.members = before.members := by
  induction hmoves with
  | refl => rfl
  | tail _ hmove ih => exact hmove.members_eq.trans ih

end Moves

end SessionRaft
