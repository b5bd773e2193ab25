/-
A node that runs on its own: it starts elections and sends heartbeats when
they are due.  Time is counted in milliseconds and moves only when it is
advanced; whatever is due at a moment happens at that moment.
-/
import SessionRaft.Node.Input

namespace SessionRaft

/-- A node and its timers. -/
structure Server (L σ : Type) where
  node : Node L σ
  clock : Nat
  /-- When an election is started, unless the node leads by then. -/
  electionDeadline : Nat
  /-- When the next heartbeat is due, if the node leads by then. -/
  nextBeat : Nat
  /-- The coming draws of election timeouts; after these the shortest one. -/
  draws : List Nat

namespace Server

variable {L σ : Type}

/-- Draw a new election timeout and start waiting for it. -/
def restartElectionTimer (server : Server L σ) : Server L σ :=
  { server with
    electionDeadline := server.clock +
      server.node.config.electionTimeout (server.draws.headD 0)
    draws := server.draws.tail }

/-- A server at time 0 whose entries are stamped with a fixed time.  The first
heartbeat is due at once. -/
def start (node : Node L σ) (stamp : Nat) (draws : List Nat) : Server L σ :=
  restartElectionTimer
    { node := { node with now := stamp }
      clock := 0
      electionDeadline := 0
      nextBeat := 0
      draws := draws }

/-- Whether an input makes the election timer start again. -/
def restartsTimer : Output → Bool
  | .election _ => true
  | .vote _ restart => restart
  | .append _ restart => restart
  | _ => false

/-- How many milliseconds late a heartbeat may be without moving those after
it. -/
def tolerance : Nat := 5

/-- When the heartbeat after the present one is due.  One that was missed is
not made up for. -/
def beatAfter (server : Server L σ) : Nat :=
  if server.nextBeat + tolerance < server.clock then
    server.clock + server.node.config.heartbeatInterval
  else server.nextBeat + server.node.config.heartbeatInterval

/-- How long nothing is due: up to the next heartbeat of a leader, or up to the
election of any other node. -/
def quiet (server : Server L σ) : Nat :=
  let due :=
    if server.node.isLeader then server.nextBeat else server.electionDeadline
  max 1 (due - server.clock)

theorem quiet_pos (server : Server L σ) : 0 < server.quiet :=
  Nat.le_max_left 1 _

variable [LogStore L] [StateMachine σ]

/-- Let something happen to the node.  A node that ceases to lead waits for an
election timeout of its own. -/
def step (server : Server L σ) (input : Input) :
    Except Overflow (Output × Server L σ) := do
  let (output, node) ← server.node.step input
  let after := { server with node := node }
  let after :=
    if restartsTimer output then after.restartElectionTimer else after
  if server.node.isLeader ∧ ¬node.isLeader then
    return (output, after.restartElectionTimer)
  else return (output, after)

/-- Send the heartbeats that are due, at most so many, while the node leads. -/
def beat (server : Server L σ) : Nat → Except Overflow (Server L σ)
  | 0 => return server
  | limit + 1 =>
      if server.node.isLeader ∧ server.nextBeat ≤ server.clock then do
        let (_, after) ← server.step .heartbeat
        beat { after with nextBeat := server.beatAfter } limit
      else return server

/-- Start an election if that is due. -/
def elect (server : Server L σ) : Except Overflow (Server L σ) := do
  if ¬server.node.isLeader ∧ server.electionDeadline ≤ server.clock then
    let (_, server) ← server.step .electionTimeout
    return server
  else return server

/-- Let everything happen that is due.  A new leader sends a heartbeat in the
moment of its election. -/
def settle (server : Server L σ) : Except Overflow (Server L σ) := do
  let server ← server.elect
  server.beat (server.clock + 1 - server.nextBeat)

end Server

/-- What is told under a ticket. -/
inductive Told where
  /-- The answer to a request that had to wait. -/
  | answer (answer : Answer)
  /-- What was told at once. -/
  | output (output : Output)
  /-- The server has stopped. -/
  | closed
deriving DecidableEq

/-- What a server has given away: messages, and what it told its callers. -/
structure Delivered where
  messages : List Outbound
  told : List (Ticket × Told)
deriving DecidableEq

/-- A server as its callers see it. -/
structure Service (L σ : Type) where
  server : Option (Server L σ)
  /-- Whether somebody may still send it anything. -/
  attached : Bool
  /-- Whether somebody takes its messages. -/
  heard : Bool

namespace Service

variable {L σ : Type}

/-- The text that reports that a server has stopped. -/
def stoppedMessage : String := "raft server has stopped"

def start (server : Server L σ) : Service L σ := ⟨some server, true, true⟩

/-- The running server as its callers reach it. -/
def reached (service : Service L σ) : Option (Server L σ) :=
  if service.attached then service.server else none

/-- Take what the node gives away. -/
def flush (service : Service L σ) (server : Server L σ)
    (told : List (Ticket × Told)) : Delivered × Service L σ :=
  let (messages, answers, node) := server.node.take
  (⟨if service.heard then messages else [],
      answers.map (fun answer => (answer.1, .answer answer.2)) ++ told⟩,
    { service with server := some { server with node := node } })

/-- End the server.  Whoever still waits learns that it has stopped. -/
def stop (service : Service L σ) (server : Server L σ)
    (told : List (Ticket × Told)) : Delivered × Service L σ :=
  let (delivered, service) := service.flush server
    (told ++ server.node.openTickets.map (fun ticket => (ticket, .closed)))
  (delivered, { service with server := none })

/-- End the server after it has refused everything that waits. -/
def shutdown (service : Service L σ) (server : Server L σ) :
    Delivered × Service L σ :=
  service.stop { server with node := server.node.shutdown } []

/-- Whether nobody can reach the server and nobody waits for it. -/
def isDeserted (service : Service L σ) (server : Server L σ) : Bool :=
  !service.attached && server.node.openTickets.isEmpty

/-- Take what the node gives away, and end a server that is deserted. -/
def conclude (service : Service L σ) (server : Server L σ)
    (told : List (Ticket × Told)) : Delivered × Service L σ :=
  if service.isDeserted server then service.shutdown server
  else service.flush server told

/-- Send no more to the server. -/
def detach (service : Service L σ) : Delivered × Service L σ :=
  let service := { service with attached := false }
  match service.server with
  | none => (⟨[], []⟩, service)
  | some server => service.conclude server []

/-- Take no more messages from the server. -/
def ignore (service : Service L σ) : Service L σ :=
  { service with heard := false }

/-- What a caller is told at once about a request. -/
def toldNow (ticket : Ticket) : Output → List (Ticket × Told)
  | .none => []
  | output => [(ticket, .output output)]

variable [LogStore L] [StateMachine σ]

/-- Send a request to the server; what is told comes under the ticket.  A
number that outgrows a machine word ends the server. -/
def request (service : Service L σ) (ticket : Ticket) (input : Input) :
    Delivered × Service L σ :=
  match service.reached with
  | none => (⟨[], [(ticket, .closed)]⟩, service)
  | some server =>
      match server.step input with
      | .error _ => service.stop server [(ticket, .closed)]
      | .ok (output, server) =>
          let told := toldNow ticket output
          match server.settle with
          | .error _ => service.stop server told
          | .ok server => service.conclude server told

def notify (service : Service L σ) (input : Input) :
    Delivered × Service L σ :=
  match service.reached with
  | none => (⟨[], []⟩, service)
  | some server =>
      match server.step input with
      | .error _ => service.stop server []
      | .ok (_, server) =>
          match server.settle with
          | .error _ => service.stop server []
          | .ok server => service.conclude server []

/-- Let time pass in a running server, from one due moment to the next. -/
def pass (service : Service L σ) (server : Server L σ) (duration : Nat) :
    Delivered × Service L σ :=
  if duration = 0 ∨ service.isDeserted server then service.conclude server []
  else
    let span := min duration server.quiet
    let later := { server with clock := server.clock + span }
    match later.settle with
    | .error _ => service.stop later []
    | .ok settled => service.pass settled (duration - span)
termination_by duration
decreasing_by
  have hquiet := server.quiet_pos
  omega

def advance (service : Service L σ) (duration : Nat) :
    Delivered × Service L σ :=
  match service.server with
  | none => (⟨[], []⟩, service)
  | some server => service.pass server duration

end Service

end SessionRaft
