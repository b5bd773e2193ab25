/-
Elections.  A node votes at most once in a term and only for a candidate whose
log is at least as long as its own; its vote is durable before it is spoken.
-/
import SessionRaft.Node.Replication

namespace SessionRaft.Node

variable {L σ : Type} [LogStore L]

/-- Note the commands among the entries of some indices. -/
def seedCommands (log : L) (sequencer : Sequencer) : List Nat → Sequencer
  | [] => sequencer
  | index :: indices =>
      let sequencer :=
        match LogStore.get? log index with
        | some ⟨_, _, .command session sequence _ _⟩ =>
            sequencer.seed session sequence index
        | _ => sequencer
      seedCommands log sequencer indices

/-- The indices of the entries that were not applied. -/
def unapplied (node : Node L σ) : List Nat :=
  List.range' (node.lastApplied + 1)
    (LogStore.lastIndex node.log - node.lastApplied)

/-- A leadership at its beginning: nothing is known of the peers, and the
commands in the log that were not applied are in flight. -/
def newLeadership (node : Node L σ) : Leadership where
  nextIndex := .ofKeys node.peers (LogStore.lastIndex node.log + 1)
  matchIndex := .ofKeys node.peers 0
  noopIndex := 0
  round := 0
  ackedRound := .empty
  sequencer := seedCommands node.log .start node.unapplied
  publisher := .start

variable [StateMachine σ]

/-- Lead the present term.  The leadership begins with an entry of its own
term; if that cannot be appended, it ends at once. -/
def becomeLeader (node : Node L σ) : Node L σ :=
  let node := { node with
    role := .leader
    leader := some node.id
    votes := []
    leadership := some node.newLeadership }
  match LogStore.append node.log node.term .noOp with
  | (.error _, log) => { node with log := log }.becomeFollower node.term
  | (.ok index, log) =>
      ({ node with log := log }.modifyLeadership (fun leadership =>
        { leadership with noopIndex := index })).replicate.publishEvents

def voteRequest (node : Node L σ) : VoteRequest where
  term := node.term
  candidate := node.id
  lastLogIndex := LogStore.lastIndex node.log
  lastLogTerm := LogStore.lastTerm node.log

/-- Ask for votes in a new term, beginning with the node's own.  Without a
durable vote nothing is asked and the node stays in its term. -/
def startElection (node : Node L σ) :
    Except Overflow (Option VoteRequest × Node L σ) := do
  let node :=
    if node.leadership.isSome then node.becomeFollower node.term else node
  let term ← successor node.term
  let candidate :=
    { node with term := term, votedFor := some node.id }.persistVote
  match candidate with
  | (false, candidate) =>
      return (none, { node with
        log := candidate.log, role := .follower, votes := [] })
  | (true, candidate) =>
      let candidate := { candidate with
        role := .candidate, leader := none, votes := [node.id] }
      let request := candidate.voteRequest
      let candidate :=
        candidate.send (candidate.peers.map (fun peer => .vote peer request))
      return (some request,
        if candidate.hasQuorum then candidate.becomeLeader else candidate)

/-- Whether a candidate's log is at least as far as the node's: its last term
is later, or equal with an index that is no smaller. -/
def isUpToDate (node : Node L σ) (request : VoteRequest) : Bool :=
  decide (LogStore.lastTerm node.log < request.lastLogTerm ∨
    (request.lastLogTerm = LogStore.lastTerm node.log ∧
      LogStore.lastIndex node.log ≤ request.lastLogIndex))

/-- Whether the node may still vote for a candidate in its term. -/
def canVoteFor (node : Node L σ) (candidate : NodeId) : Bool :=
  match node.votedFor with
  | none => true
  | some voted => voted = candidate

/-- Answer a candidate.  The flag tells whether a vote was given, so that the
election timer starts again. -/
def handleVote (node : Node L σ) (request : VoteRequest) :
    (VoteResponse × Bool) × Node L σ :=
  let node :=
    if node.term < request.term then node.becomeFollower request.term else node
  if node.term ≤ request.term ∧ node.canVoteFor request.candidate ∧
      node.isUpToDate request then
    let voter := { node with votedFor := some request.candidate }.persistVote
    match voter with
    | (false, voter) =>
        ((.error .internalError, false), { node with log := voter.log })
    | (true, voter) => ((.ok ⟨voter.term, true⟩, true), voter)
  else ((.ok ⟨node.term, false⟩, false), node)

/-- Count a vote, once for each member. -/
def countVote (node : Node L σ) (member : NodeId) : Node L σ :=
  if member ∈ node.votes then node
  else { node with votes := node.votes ++ [member] }

/-- Take a member's vote.  The flag tells whether it won the election. -/
def handleVoteResponse (node : Node L σ) (member : NodeId) :
    VoteResponse → Bool × Node L σ
  | .error _ => (false, node)
  | .ok vote =>
      if node.term < vote.term then (false, node.becomeFollower vote.term)
      else if node.role = .candidate ∧ node.term ≤ vote.term ∧ vote.voted ∧
          member ∈ node.members then
        let node := node.countVote member
        if node.hasQuorum then (true, node.becomeLeader) else (false, node)
      else (false, node)

end SessionRaft.Node
