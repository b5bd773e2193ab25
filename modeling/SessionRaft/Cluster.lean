/-
Several nodes and the network between them.  Messages wait in one queue, from
which they may be delivered in any order, more than once or not at all; nodes
may stop and start again with nothing but their logs.
-/
import SessionRaft.Node.Input

namespace SessionRaft

/-- What one node tells another. -/
inductive Packet where
  | vote (request : VoteRequest)
  | voteResponse (response : VoteResponse)
  | append (request : AppendRequest)
  | appendResponse (response : AppendResponse)
deriving DecidableEq

/-- A message under way. -/
structure Envelope where
  sender : NodeId
  receiver : NodeId
  packet : Packet
deriving DecidableEq

/-- The input that a message is to its receiver. -/
def Envelope.input (envelope : Envelope) : Input :=
  match envelope.packet with
  | .vote request => .vote request
  | .voteResponse response => .voteResponse envelope.sender response
  | .append request => .append request
  | .appendResponse response => .appendResponse envelope.sender response

/-- The message that goes back to the sender of a request. -/
def Envelope.reply? (envelope : Envelope) : Output → Option Envelope
  | .vote response _ =>
      some ⟨envelope.receiver, envelope.sender, .voteResponse response⟩
  | .append response _ =>
      some ⟨envelope.receiver, envelope.sender, .appendResponse response⟩
  | _ => none

/-- What became of a message at its delivery. -/
inductive Fate where
  | cut
  | down
  | handled (output : Output)
deriving DecidableEq

/-- What became of an event on its way to the client. -/
inductive Arrival where
  | lost
  | arrived (delivery : Delivery)
deriving DecidableEq

/-- A message that a node gave away, and for an event what became of it. -/
structure Dispatch where
  sender : NodeId
  message : Outbound
  arrival : Option Arrival
deriving DecidableEq

/-- What the nodes gave away: messages and answers, in this order. -/
structure Report where
  dispatches : List Dispatch
  answers : List (Ticket × Answer)
deriving DecidableEq

/-- What one node and then another gave away. -/
def Report.append (first second : Report) : Report :=
  ⟨first.dispatches ++ second.dispatches, first.answers ++ second.answers⟩

/-- How a node begins when nothing is left of it. -/
structure Site (L σ : Type) where
  id : NodeId
  members : List NodeId
  config : Config
  log : L
  machine : σ

/-- The node that a site begins with. -/
def Site.boot {L σ : Type} [LogStore L] (site : Site L σ) :
    Except NodeError (Node L σ) :=
  Node.start site.id site.members site.config site.log site.machine

/-- Nodes, the network, and the clients' ends of the event streams. -/
structure Cluster (L σ : Type) where
  sites : Table (Site L σ)
  nodes : Table (Node L σ)
  /-- The messages under way, oldest first. -/
  queue : List Envelope
  /-- The pairs of nodes between which nothing is delivered. -/
  cuts : List (NodeId × NodeId)
  /-- How many of the coming events are lost. -/
  losses : Nat
  watermarks : Table Watermark
  /-- Requests whose answers nobody wants. -/
  abandoned : List Ticket

namespace Cluster

variable {L σ : Type}

def empty : Cluster L σ := ⟨.empty, .empty, [], [], 0, .empty, []⟩

def join [LogStore L] (cluster : Cluster L σ) (site : Site L σ) :
    Except NodeError (Cluster L σ) := do
  let node ← site.boot
  return { cluster with
    sites := cluster.sites.insert site.id site
    nodes := cluster.nodes.insert site.id node }

def start [LogStore L] (sites : List (Site L σ)) :
    Except NodeError (Cluster L σ) :=
  sites.foldlM join empty

/-- Let something happen to a node, if it is up. -/
def input [LogStore L] [StateMachine σ] (cluster : Cluster L σ) (id : NodeId)
    (input : Input) : Except Overflow (Option Output × Cluster L σ) :=
  match cluster.nodes.get? id with
  | none => return (none, cluster)
  | some node => do
      let (output, node) ← node.step input
      return (some output,
        { cluster with nodes := cluster.nodes.insert id node })

/-- Change a node that is up. -/
def modify (cluster : Cluster L σ) (id : NodeId) (f : Node L σ → Node L σ) :
    Cluster L σ :=
  { cluster with nodes := cluster.nodes.modify id f }

def abandon (cluster : Cluster L σ) (ticket : Ticket) : Cluster L σ :=
  { cluster with abandoned := ticket :: cluster.abandoned }

/-- The latest event handed over to the client of a session. -/
def watermark (cluster : Cluster L σ) (session : SessionId) : Watermark :=
  cluster.watermarks.getD session .start

/-- Put a message behind those under way, if its receiver belongs to the
cluster. -/
def enqueue (cluster : Cluster L σ) (envelope : Envelope) : Cluster L σ :=
  if cluster.sites.contains envelope.receiver then
    { cluster with queue := cluster.queue ++ [envelope] }
  else cluster

/-- Carry an event to its client, unless it is lost. -/
def carry (cluster : Cluster L σ) (session : SessionId)
    (response : PublishResponse) : Arrival × Cluster L σ :=
  match cluster.losses with
  | losses + 1 => (.lost, { cluster with losses := losses })
  | 0 =>
      let (watermark, delivery) :=
        (cluster.watermark session).accept response
      (.arrived delivery, { cluster with
        watermarks := cluster.watermarks.insert session watermark })

def dispatch (cluster : Cluster L σ) (sender : NodeId) (message : Outbound) :
    Dispatch × Cluster L σ :=
  match message with
  | .vote receiver request =>
      (⟨sender, message, none⟩,
        cluster.enqueue ⟨sender, receiver, .vote request⟩)
  | .append receiver request =>
      (⟨sender, message, none⟩,
        cluster.enqueue ⟨sender, receiver, .append request⟩)
  | .publish session response _ =>
      let (arrival, cluster) := cluster.carry session response
      (⟨sender, message, some arrival⟩, cluster)

def dispatchAll (cluster : Cluster L σ) (sender : NodeId) :
    List Outbound → List Dispatch × Cluster L σ
  | [] => ([], cluster)
  | message :: messages =>
      let (first, cluster) := cluster.dispatch sender message
      let (rest, cluster) := cluster.dispatchAll sender messages
      (first :: rest, cluster)

def collectFrom (cluster : Cluster L σ) :
    List (NodeId × Node L σ) → Report × Cluster L σ
  | [] => (⟨[], []⟩, cluster)
  | (id, node) :: nodes =>
      let (messages, answers, node) := node.take
      let cluster := { cluster with nodes := cluster.nodes.insert id node }
      let (dispatches, cluster) := cluster.dispatchAll id messages
      let wanted := answers.filter (fun answer =>
        !cluster.abandoned.contains answer.1)
      let (report, cluster) := cluster.collectFrom nodes
      (Report.append ⟨dispatches, wanted⟩ report, cluster)

/-- Take from every node what it has to give away, the smallest identity
first. -/
def collect (cluster : Cluster L σ) : Report × Cluster L σ :=
  cluster.collectFrom cluster.nodes.rows

/-- Whether nothing is delivered between two nodes. -/
def isCut (cluster : Cluster L σ) (left right : NodeId) : Bool :=
  cluster.cuts.any (fun pair =>
    pair = (left, right) || pair = (right, left))

/-- Deliver a message that was taken from the queue.  The answer of a request
joins the end of the queue. -/
def deliver [LogStore L] [StateMachine σ] (cluster : Cluster L σ)
    (envelope : Envelope) : Except Overflow (Fate × Cluster L σ) :=
  if cluster.isCut envelope.sender envelope.receiver then
    return (.cut, cluster)
  else do
    match ← cluster.input envelope.receiver envelope.input with
    | (none, cluster) => return (.down, cluster)
    | (some output, cluster) =>
        match envelope.reply? output with
        | none => return (.handled output, cluster)
        | some reply => return (.handled output, cluster.enqueue reply)

def remove (cluster : Cluster L σ) (place : Nat) : Cluster L σ :=
  { cluster with queue := cluster.queue.eraseIdx place }

/-- Deliver the message at a place of the queue, if there is one; a copy of it
may stay there. -/
def deliverAt [LogStore L] [StateMachine σ] (cluster : Cluster L σ)
    (place : Nat) (keep : Bool) :
    Except Overflow (Option (Envelope × Fate) × Cluster L σ) :=
  match cluster.queue[place]? with
  | none => return (none, cluster)
  | some envelope => do
      let rest := if keep then cluster else cluster.remove place
      let (fate, cluster) ← rest.deliver envelope
      return (some (envelope, fate), cluster)

/-- Deliver from the front of the queue, at most so many messages, and collect
after each. -/
def run [LogStore L] [StateMachine σ] (cluster : Cluster L σ) :
    Nat → Except Overflow
      (List (Envelope × Fate) × Report × Cluster L σ)
  | 0 => return ([], ⟨[], []⟩, cluster)
  | limit + 1 => do
      match ← cluster.deliverAt 0 false with
      | (none, cluster) => return ([], ⟨[], []⟩, cluster)
      | (some delivered, cluster) =>
          let (report, cluster) := cluster.collect
          let (rest, more, cluster) ← cluster.run limit
          return (delivered :: rest, report.append more, cluster)

/-- Put a node in the place of the one with its identity. -/
def replace (cluster : Cluster L σ) (id : NodeId) :
    Except NodeError (Node L σ) → Except NodeError Unit × Cluster L σ
  | .error error =>
      (.error error, { cluster with nodes := cluster.nodes.erase id })
  | .ok node =>
      (.ok (), { cluster with nodes := cluster.nodes.insert id node })

/-- The log with which a node starts again: what is left of its log, or the
log of its site if the node is down. -/
def survivingLog (cluster : Cluster L σ) (site : Site L σ)
    (reopen : L → Except LogFault L) : Except LogFault L :=
  match cluster.nodes.get? site.id with
  | some node => reopen node.log
  | none => .ok site.log

/-- Stop a node and start it again, possibly with another configuration, which
stays.  If it cannot start it is down, and begins from its site the next
time. -/
def restart [LogStore L] (cluster : Cluster L σ) (site : Site L σ)
    (reopen : L → Except LogFault L) (adjust : L → L) :
    Except NodeError Unit × Cluster L σ :=
  let booted :=
    match cluster.survivingLog site reopen with
    | .error fault => .error (.log fault)
    | .ok log => { site with log := adjust log }.boot
  { cluster with sites := cluster.sites.insert site.id site }.replace site.id
    booted

/-- The requests that a stop of a node leaves without an answer. -/
def openTickets (cluster : Cluster L σ) (id : NodeId) : List Ticket :=
  match cluster.nodes.get? id with
  | none => []
  | some node => node.openTickets.filter (fun ticket =>
      !cluster.abandoned.contains ticket)

end Cluster

end SessionRaft
