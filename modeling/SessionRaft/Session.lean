/-
A client session: the results kept for retried commands and the events kept
until the client acknowledges them.  A command is applied at most once because
its sequence is compared with the highest applied one; an event is delivered
without gaps because it stays queued until it is acknowledged.
-/
import SessionRaft.Message
import SessionRaft.Table
import SessionRaft.Word

namespace SessionRaft

/-- An event that waits for its acknowledgment. -/
structure Event where
  version : Nat
  sequence : Nat
  payload : Bytes
deriving DecidableEq

def Event.label (event : Event) : PublishAck := ⟨event.version, event.sequence⟩

/-- The replicated state of one session. -/
structure Session where
  id : SessionId
  client : Nat
  timeout : Nat
  lastKeepAlive : Nat
  /-- The highest command sequence that was applied. -/
  commandSequence : Nat
  /-- The outcomes of applied commands the client may still ask for. -/
  results : Table CommandResponse
  /-- The sequence of the latest event. -/
  eventSequence : Nat
  /-- The highest event sequence that was acknowledged. -/
  eventAck : Nat
  /-- The version of the event at `eventAck`. -/
  ackedVersion : Nat
  /-- The events that were not acknowledged, in order. -/
  events : List Event
deriving DecidableEq

namespace Session

def start (id : SessionId) (client timeout timestamp : Nat) : Session where
  id := id
  client := client
  timeout := timeout
  lastKeepAlive := timestamp
  commandSequence := 0
  results := .empty
  eventSequence := 0
  eventAck := 0
  ackedVersion := 0
  events := []

/-- The last moment at which the session is still open; it never lies beyond
the largest clock value. -/
def deadline (session : Session) : Nat :=
  min (session.lastKeepAlive + session.timeout) wordMax

def isExpired (session : Session) (now : Nat) : Bool :=
  decide (session.deadline < now)

/-- Note a sign of life; clocks that run backwards are ignored. -/
def touch (session : Session) (timestamp : Nat) : Session :=
  { session with lastKeepAlive := max session.lastKeepAlive timestamp }

def recordResult (session : Session) (sequence : Nat)
    (result : CommandResponse) : Session :=
  { session with
    commandSequence := max session.commandSequence sequence
    results := session.results.insert sequence result }

/-- The outcome of an applied command; one that was released is an error. -/
def cachedResult (session : Session) (sequence : Nat) : CommandResponse :=
  session.results.getD sequence (.error .commandError)

/-- Drop the outcomes the client has received. -/
def releaseResults (session : Session) (upTo : Nat) : Session :=
  { session with results := session.results.above upTo }

/-- The acknowledgment that a report amounts to: no more than was published. -/
def reach (session : Session) (reported : Int) : Int :=
  min reported session.eventSequence

/-- Whether a report moves the acknowledgment forward. -/
def advances (session : Session) (reported : Int) : Bool :=
  decide ((session.eventAck : Int) < session.reach reported)

/-- The version of the last of some events, if there is one. -/
def lastVersion (fallback : Nat) (events : List Event) : Nat :=
  events.foldl (fun _ event => event.version) fallback

/-- Move the acknowledgment to what the client reports.  It never moves back,
and the events it passes leave the queue. -/
def acknowledge (session : Session) (reported : Int) : Session :=
  if session.advances reported then
    let upTo := (session.reach reported).toNat
    { session with
      ackedVersion := lastVersion session.ackedVersion
        (session.events.takeWhile (fun event => decide (event.sequence ≤ upTo)))
      events :=
        session.events.dropWhile (fun event => decide (event.sequence ≤ upTo))
      eventAck := upTo }
  else session

/-- Queue an event under the next sequence of the session. -/
def pushEvent (session : Session) (version : Nat) (payload : Bytes) :
    Session × Event :=
  let event : Event := ⟨version, session.eventSequence + 1, payload⟩
  ({ session with
      eventSequence := session.eventSequence + 1
      events := session.events ++ [event] }, event)

end Session

/-- All open sessions, listed by identity, and the event counter they share. -/
structure SessionTable where
  sessions : Table Session
  /-- The version of the latest event of any session. -/
  eventVersion : Nat
deriving DecidableEq

namespace SessionTable

def empty : SessionTable := ⟨.empty, 0⟩

def get? (table : SessionTable) (id : SessionId) : Option Session :=
  table.sessions.get? id

def contains (table : SessionTable) (id : SessionId) : Bool :=
  table.sessions.contains id

def size (table : SessionTable) : Nat := table.sessions.size

def toList (table : SessionTable) : List Session := table.sessions.values

/-- Open a session, or replace the one of its identity. -/
def register (table : SessionTable) (session : Session) : SessionTable :=
  { table with sessions := table.sessions.insert session.id session }

def remove (table : SessionTable) (id : SessionId) : SessionTable :=
  { table with sessions := table.sessions.erase id }

def update (table : SessionTable) (id : SessionId) (f : Session → Session) :
    SessionTable :=
  { table with sessions := table.sessions.modify id f }

def expired (table : SessionTable) (now : Nat) : List SessionId :=
  (table.sessions.filter (fun _ session => session.isExpired now)).keys

/-- Close the sessions that lapsed before `now`. -/
def expire (table : SessionTable) (now : Nat) : SessionTable :=
  { table with
    sessions := table.sessions.filter (fun _ session => !session.isExpired now) }

/-- Queue an event for an open session under the next version; an event for a
closed session is dropped. -/
def publish (table : SessionTable) (id : SessionId) (payload : Bytes) :
    SessionTable × Option Event :=
  match table.get? id with
  | none => (table, none)
  | some session =>
      let version := table.eventVersion + 1
      let (session, event) := session.pushEvent version payload
      (⟨table.sessions.insert id session, version⟩, some event)

end SessionTable

end SessionRaft
