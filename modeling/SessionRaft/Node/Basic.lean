/-
One member of the cluster.  A node performs no input or output of its own: its
operations are functions on its state, and what it has to say to other nodes
and to clients is collected until somebody takes it.
-/
import SessionRaft.Config
import SessionRaft.Log.Store
import SessionRaft.Publisher
import SessionRaft.Sequencer
import SessionRaft.StateMachine

namespace SessionRaft

/-- The part a node plays in its term. -/
inductive Role where
  | follower
  | candidate
  | leader
deriving DecidableEq

/-- What a node keeps only while it leads. -/
structure Leadership where
  /-- The index from which each peer is sent entries. -/
  nextIndex : Table Nat
  /-- The index up to which each peer is known to hold the leader's log. -/
  matchIndex : Table Nat
  /-- The index of the entry with which the leadership began. -/
  noopIndex : Nat
  /-- The number of broadcasts so far. -/
  round : Nat
  /-- The latest broadcast that each peer has answered. -/
  ackedRound : Table Nat
  sequencer : Sequencer
  publisher : Publisher
deriving DecidableEq

/-- Someone who waits for an entry of the log to be applied. -/
inductive Waiter where
  | command (ticket : Ticket)
  | register (ticket : Ticket)
  | keepAlive (ticket : Ticket)
  | unregister (ticket : Ticket)
deriving DecidableEq

/-- A query that waits for its index to be applied and, if it has to be fresh,
for a quorum to answer a broadcast. -/
structure PendingQuery where
  readIndex : Nat
  /-- The broadcast to be answered; 0 for a query that need not be fresh. -/
  round : Nat
  request : QueryRequest
  ticket : Ticket
deriving DecidableEq

/-- What a client is told in the end. -/
inductive Answer where
  | command (response : CommandResponse)
  | query (response : QueryResponse)
  | register (response : RegisterResponse)
  | keepAlive (response : KeepAliveResponse)
  | unregister (response : UnregisterResponse)
deriving DecidableEq

namespace Waiter

def ticket : Waiter → Ticket
  | command ticket => ticket
  | register ticket => ticket
  | keepAlive ticket => ticket
  | unregister ticket => ticket

def refusal (kind : ErrorKind) : Waiter → Answer
  | command _ => .command (.error kind)
  | register _ => .register (.error kind)
  | keepAlive _ => .keepAlive (.error kind)
  | unregister _ => .unregister (.error kind)

end Waiter

/-- The state of a node. -/
structure Node (L σ : Type) where
  id : NodeId
  /-- Every voting member, in the order in which they are addressed. -/
  members : List NodeId
  config : Config
  role : Role
  term : Nat
  votedFor : Option NodeId
  leader : Option NodeId
  votes : List NodeId
  commitIndex : Nat
  lastApplied : Nat
  log : L
  executor : Executor σ
  leadership : Option Leadership
  waiters : Table (List Waiter)
  queries : List PendingQuery
  /-- Messages that nobody has taken yet. -/
  outbox : List Outbound
  /-- Answers that nobody has taken yet. -/
  answers : List (Ticket × Answer)
  /-- The clock with which new entries are stamped. -/
  now : Nat

/-- Why a node cannot be built. -/
inductive NodeError where
  | log (fault : LogFault)
  | config (error : ConfigError)
deriving DecidableEq

/-- The text that reports the error, where there is a fixed one. -/
def NodeError.message? : NodeError → Option String
  | log fault => fault.message?.map ("failed to restore vote: " ++ ·)
  | config error => error.message?.map ("invalid config: " ++ ·)

namespace Node

variable {L σ : Type}

/-- A follower that remembers the term and the vote of its log and has applied
nothing. -/
def start [LogStore L] (id : NodeId) (members : List NodeId) (config : Config)
    (log : L) (machine : σ) : Except NodeError (Node L σ) :=
  match config.validate with
  | .error error => .error (.config error)
  | .ok () =>
      match LogStore.loadVote log with
      | .error fault => .error (.log fault)
      | .ok (term, votedFor) => .ok
          { id := id
            members := members
            config := config
            role := .follower
            term := term
            votedFor := votedFor
            leader := none
            votes := []
            commitIndex := 0
            lastApplied := 0
            log := log
            executor := .start machine
            leadership := none
            waiters := .empty
            queries := []
            outbox := []
            answers := []
            now := 0 }

def peers (node : Node L σ) : List NodeId :=
  node.members.filter (fun member => member != node.id)

/-- The least number of members that form a majority. -/
def quorum (node : Node L σ) : Nat := node.members.length / 2 + 1

def hasQuorum (node : Node L σ) : Bool :=
  decide (node.quorum ≤ node.votes.length)

def isLeader (node : Node L σ) : Bool := node.role = .leader

/-- Queue messages behind those that wait already. -/
def send (node : Node L σ) (messages : List Outbound) : Node L σ :=
  { node with outbox := node.outbox ++ messages }

def answer (node : Node L σ) (ticket : Ticket) (answer : Answer) : Node L σ :=
  { node with answers := node.answers ++ [(ticket, answer)] }

def answerAll (node : Node L σ) (tickets : List Ticket) (answer : Answer) :
    Node L σ :=
  { node with answers := node.answers ++ tickets.map (fun ticket => (ticket, answer)) }

def failCommands (node : Node L σ) (commands : List PendingCommand)
    (kind : ErrorKind) : Node L σ :=
  node.answerAll (commands.flatMap PendingCommand.tickets)
    (.command (.error kind))

/-- Let requests wait for an index. -/
def await (node : Node L σ) (index : Nat) (waiters : List Waiter) :
    Node L σ :=
  { node with
    waiters := node.waiters.insert index
      (node.waiters.getD index [] ++ waiters) }

def modifyLeadership (node : Node L σ) (f : Leadership → Leadership) :
    Node L σ :=
  { node with leadership := node.leadership.map f }

def modifySessions (node : Node L σ) (f : SessionTable → SessionTable) :
    Node L σ :=
  { node with
    executor := { node.executor with sessions := f node.executor.sessions } }

/-- Take the messages and the answers that wait. -/
def take (node : Node L σ) :
    List Outbound × List (Ticket × Answer) × Node L σ :=
  (node.outbox, node.answers, { node with outbox := [], answers := [] })

/-- The requests that were not answered. -/
def openTickets (node : Node L σ) : List Ticket :=
  node.waiters.values.flatten.map Waiter.ticket ++
    node.queries.map PendingQuery.ticket ++
    match node.leadership with
    | some leadership =>
        leadership.sequencer.drain.flatMap PendingCommand.tickets
    | none => []

end Node

end SessionRaft
