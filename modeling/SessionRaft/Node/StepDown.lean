/-
Giving up leadership.  Whatever waits for an entry of the log is refused,
because another leader may replace that entry.
-/
import SessionRaft.Node.Basic

namespace SessionRaft.Node

variable {L σ : Type}

/-- Refuse everyone who waits for an index. -/
def failWaiters (node : Node L σ) (kind : ErrorKind) : Node L σ :=
  { node with
    waiters := .empty
    answers := node.answers ++ node.waiters.values.flatten.map
      (fun waiter => (waiter.ticket, waiter.refusal kind)) }

/-- Refuse the queries that pass a test and keep the others. -/
def failQueries (node : Node L σ) (fails : PendingQuery → Bool)
    (kind : ErrorKind) : Node L σ :=
  let (closed, rest) := node.queries.partition fails
  { node with queries := rest }.answerAll (closed.map PendingQuery.ticket)
    (.query (.error kind))

def isFresh (query : PendingQuery) : Bool :=
  query.request.consistency = .linearizable

/-- Drop what was kept for leading and refuse the commands held in it. -/
def dropLeadership (node : Node L σ) : Node L σ :=
  match node.leadership with
  | none => node
  | some leadership =>
      { node with leadership := none }.failCommands
        leadership.sequencer.drain .noLeader

/-- Refuse everything that waits; called when the node stops.  The role is left
as it is. -/
def shutdown (node : Node L σ) : Node L σ :=
  (node.dropLeadership.failWaiters .noLeader).failQueries (fun _ => true)
    .noLeader

variable [LogStore L]

/-- Store the present term and vote, and tell whether that succeeded. -/
def persistVote (node : Node L σ) : Bool × Node L σ :=
  let (outcome, log) := LogStore.saveVote node.log node.term node.votedFor
  (outcome.isOk, { node with log := log })

/-- Enter a newer term, in which no vote was cast and no leader is known. -/
def adoptTerm (node : Node L σ) (term : Nat) : Node L σ :=
  if node.term < term then
    { node with term := term, votedFor := none, leader := none }.persistVote.2
  else node

/-- Become a follower, in `term` if that is newer.  A node that led refuses
everything that waits except queries that any node can answer. -/
def becomeFollower (node : Node L σ) (term : Nat) : Node L σ :=
  let node := { node.adoptTerm term with role := .follower, votes := [] }
  if node.leadership.isSome then
    (node.dropLeadership.failWaiters .noLeader).failQueries isFresh .noLeader
  else node

end SessionRaft.Node
