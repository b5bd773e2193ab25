/-
Everything that can happen to a node, as data.  One function takes a node from
one state to the next, so a life of a node is a list of inputs.
-/
import SessionRaft.Node.Client

namespace SessionRaft

/-- Something that happens to a node. -/
inductive Input where
  | clock (now : Nat)
  | electionTimeout
  | heartbeat
  | vote (request : VoteRequest)
  | voteResponse (sender : NodeId) (response : VoteResponse)
  | append (request : AppendRequest)
  | appendResponse (sender : NodeId) (response : AppendResponse)
  | command (ticket : Ticket) (request : CommandRequest)
  | query (ticket : Ticket) (request : QueryRequest)
  | register (ticket : Ticket) (request : RegisterRequest)
  | keepAlive (ticket : Ticket) (request : KeepAliveRequest)
  | unregister (ticket : Ticket) (request : UnregisterRequest)
  | publish (request : PublishRequest)
  | shutdown
deriving DecidableEq

/-- What the one who brought an input is told at once. -/
inductive Output where
  | none
  /-- The election that was started, if one was. -/
  | election (request : Option VoteRequest)
  /-- The answer, and whether the election timer starts again. -/
  | vote (response : VoteResponse) (restart : Bool)
  | won (outcome : Bool)
  /-- The answer, and whether the election timer starts again. -/
  | append (response : AppendResponse) (restart : Bool)
  /-- Whether anything was committed. -/
  | advanced (outcome : Bool)
  | published (response : PublishResponse)
deriving DecidableEq

/-- Let something happen to a node.  Numbers that outgrow a machine word end
its life. -/
def Node.step {L σ : Type} [LogStore L] [StateMachine σ] (node : Node L σ) :
    Input → Except Overflow (Output × Node L σ)
  | .clock now => return (.none, { node with now := now })
  | .electionTimeout => do
      let (request, node) ← node.startElection
      return (.election request, node)
  | .heartbeat => return (.none, node.heartbeat)
  | .vote request =>
      let ((response, restart), node) := node.handleVote request
      return (.vote response restart, node)
  | .voteResponse sender response =>
      let (outcome, node) := node.handleVoteResponse sender response
      return (.won outcome, node)
  | .append request =>
      let ((response, restart), node) := node.handleAppend request
      return (.append response restart, node)
  | .appendResponse sender response => do
      let (outcome, node) ← node.handleAppendResponse sender response
      return (.advanced outcome, node)
  | .command ticket request => do
      return (.none, ← node.submitCommand ticket request)
  | .query ticket request => return (.none, node.submitQuery ticket request)
  | .register ticket request =>
      return (.none, node.submitRegister ticket request)
  | .keepAlive ticket request =>
      return (.none, node.submitKeepAlive ticket request)
  | .unregister ticket request =>
      return (.none, node.submitUnregister ticket request)
  | .publish request =>
      let (response, node) := node.publish request
      return (.published response, node)
  | .shutdown => return (.none, node.shutdown)

end SessionRaft
