/-
Ordering of commands.  Whatever the order of arrival, the commands of one
session enter the log in the order of their sequences: a command that comes
too early is held until its predecessors have arrived.
-/
import SessionRaft.Message
import SessionRaft.Table
import SessionRaft.Word

namespace SessionRaft

/-- The number that ties an answer to the request it belongs to. -/
abbrev Ticket := Nat

/-- A number has grown beyond what a machine word holds. -/
inductive Overflow where
  | addition
deriving DecidableEq

def Overflow.message : Overflow → String
  | addition => "attempt to add with overflow"

/-- The number that follows a machine word. -/
def successor (value : Nat) : Except Overflow Nat :=
  if value = wordMax then .error .addition else .ok (value + 1)

/-- A command together with everyone who waits for its outcome. -/
structure PendingCommand where
  request : CommandRequest
  tickets : List Ticket
deriving DecidableEq

/-- What is known of the commands of one session. -/
structure Lane where
  /-- The highest sequence that has entered the log. -/
  sequenced : Option Nat
  /-- Commands that arrived ahead of a predecessor. -/
  held : Table PendingCommand
  /-- Log indices of commands that have not been applied. -/
  inFlight : Table Nat
deriving DecidableEq

def Lane.empty : Lane := ⟨none, .empty, .empty⟩

/-- What the leader has to do with a submitted command. -/
inductive Submission where
  /-- Append these commands in this order. -/
  | ready (commands : List PendingCommand)
  /-- Wait for the predecessors. -/
  | held
  /-- The command is in the log at an index; wait for that entry. -/
  | inFlight (index : Nat) (command : PendingCommand)
  /-- The command is known but not tracked; answer from the session. -/
  | stale (command : PendingCommand)
deriving DecidableEq

/-- The lanes of all sessions. -/
structure Sequencer where
  lanes : Table Lane
deriving DecidableEq

namespace Lane

/-- Take the commands that follow `last` without a gap out of the held ones.
The fuel bounds their number. -/
def release : Nat → Nat → Table PendingCommand →
    Except Overflow (Nat × List PendingCommand × Table PendingCommand)
  | 0, last, held => .ok (last, [], held)
  | fuel + 1, last, held => do
      let next ← successor last
      match held.get? next with
      | none => return (last, [], held)
      | some command =>
          let (last, commands, held) ← release fuel next (held.erase next)
          return (last, command :: commands, held)

/-- Hold a command; a retry joins the one that is held already. -/
def hold (lane : Lane) (sequence : Nat) (command : PendingCommand) : Lane :=
  let command :=
    match lane.held.get? sequence with
    | none => command
    | some held => { held with tickets := held.tickets ++ command.tickets }
  { lane with held := lane.held.insert sequence command }

/-- Submit a command of a session that has applied up to `applied`. -/
def submit (lane : Lane) (applied : Nat) (command : PendingCommand) :
    Except Overflow (Lane × Submission) := do
  let sequence := command.request.sequence
  let last := max (lane.sequenced.getD applied) applied
  let lane := { lane with sequenced := some last }
  if sequence ≤ last then
    match lane.inFlight.get? sequence with
    | some index => return (lane, .inFlight index command)
    | none => return (lane, .stale command)
  else if last + 1 < sequence then
    return (lane.hold sequence command, .held)
  else if lane.held.isEmpty then
    return ({ lane with sequenced := some sequence }, .ready [command])
  else
    let (last, commands, held) ←
      release (lane.held.size + 1) sequence lane.held
    return ({ lane with sequenced := some last, held := held },
      .ready (command :: commands))

end Lane

namespace Sequencer

def start : Sequencer := ⟨.empty⟩

def lane (sequencer : Sequencer) (session : SessionId) : Lane :=
  sequencer.lanes.getD session .empty

/-- The highest sequence of a session that has entered the log. -/
def sequenced? (sequencer : Sequencer) (session : SessionId) : Option Nat :=
  (sequencer.lane session).sequenced

/-- The number of held commands of a session. -/
def heldCount (sequencer : Sequencer) (session : SessionId) : Nat :=
  (sequencer.lane session).held.size

def setLane (sequencer : Sequencer) (session : SessionId) (lane : Lane) :
    Sequencer :=
  ⟨sequencer.lanes.insert session lane⟩

/-- Note the log index at which a ready command was appended. -/
def appended (sequencer : Sequencer) (session : SessionId) (sequence : Nat)
    (index : Nat) : Sequencer :=
  let lane := sequencer.lane session
  sequencer.setLane session
    { lane with inFlight := lane.inFlight.insert sequence index }

/-- Note a command that an earlier leader left in the log. -/
def seed (sequencer : Sequencer) (session : SessionId) (sequence : Nat)
    (index : Nat) : Sequencer :=
  let lane := sequencer.lane session
  (sequencer.setLane session
    { lane with sequenced := some (max (lane.sequenced.getD 0) sequence) }).appended
    session sequence index

/-- Forget an applied command. -/
def applied (sequencer : Sequencer) (session : SessionId) (sequence : Nat) :
    Sequencer :=
  ⟨sequencer.lanes.modify session (fun lane =>
    { lane with inFlight := lane.inFlight.erase sequence })⟩

/-- Submit a command whose session has applied up to `applied`. -/
def submit (sequencer : Sequencer) (applied : Nat) (command : PendingCommand) :
    Except Overflow (Sequencer × Submission) := do
  let session := command.request.session
  let (lane, submission) ← (sequencer.lane session).submit applied command
  return (sequencer.setLane session lane, submission)

/-- Drop everything known of a closed session and hand back what was held. -/
def forget (sequencer : Sequencer) (session : SessionId) :
    Sequencer × List PendingCommand :=
  (⟨sequencer.lanes.erase session⟩, (sequencer.lane session).held.values)

/-- Hand back everything that is held, by session and by sequence. -/
def drain (sequencer : Sequencer) : List PendingCommand :=
  sequencer.lanes.values.flatMap (fun lane => lane.held.values)

end Sequencer

end SessionRaft
