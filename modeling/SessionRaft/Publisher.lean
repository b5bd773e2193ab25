/-
Delivery of events.  The leader remembers how far it has sent each session's
events and sends the rest in order; the client lets through only the event it
expects next.
-/
import SessionRaft.Session

namespace SessionRaft

/-- How far the events of each session have been sent.  Sending is not
acknowledgment: whatever is not acknowledged may be sent again. -/
structure Publisher where
  sent : Table Int
deriving DecidableEq

namespace Publisher

def start : Publisher := ⟨.empty⟩

/-- The highest sequence sent to a session. -/
def sent? (publisher : Publisher) (session : SessionId) : Option Int :=
  publisher.sent.get? session

/-- The delivery of one event. -/
def delivery (session : SessionId) (event : Event) : Outbound :=
  .publish session (.ok event.label) event.payload

/-- Send the events past a cursor, and move the cursor along. -/
def sendPast (session : SessionId) :
    Int → List Event → List Outbound × Int
  | cursor, [] => ([], cursor)
  | cursor, event :: events =>
      if (event.sequence : Int) ≤ cursor then sendPast session cursor events
      else
        let (outbound, cursor) := sendPast session event.sequence events
        (delivery session event :: outbound, cursor)

/-- Send a session's events; a session that is new to the publisher starts at
its acknowledgment. -/
def publishSession (publisher : Publisher) (session : Session) :
    Publisher × List Outbound :=
  let cursor := publisher.sent.getD session.id session.eventAck
  let (outbound, cursor) := sendPast session.id cursor session.events
  (⟨publisher.sent.insert session.id cursor⟩, outbound)

/-- Send the events of every session in a list. -/
def publishAll (publisher : Publisher) :
    List Session → Publisher × List Outbound
  | [] => (publisher, [])
  | session :: sessions =>
      let (publisher, outbound) := publisher.publishSession session
      let (publisher, more) := publisher.publishAll sessions
      (publisher, outbound ++ more)

/-- Send every pending event that was not sent yet. -/
def publish (publisher : Publisher) (table : SessionTable) :
    Publisher × List Outbound :=
  publisher.publishAll table.toList

/-- Move the cursor of a session back, so that everything past `sequence` is
sent again. -/
def resendFrom (publisher : Publisher) (session : SessionId)
    (sequence : Int) : Publisher :=
  ⟨publisher.sent.modify session (min sequence)⟩

def forget (publisher : Publisher) (session : SessionId) : Publisher :=
  ⟨publisher.sent.erase session⟩

end Publisher

/-- What a client does with a delivered event. -/
inductive Delivery where
  /-- It is the next one: hand it over and acknowledge it. -/
  | accepted
  /-- It was delivered before, or there is no event: drop it. -/
  | duplicate
  /-- An earlier one is missing: drop it and report the old watermark. -/
  | gap
deriving DecidableEq

/-- The last event handed over by a client; it never passes over one. -/
structure Watermark where
  sequence : Nat
deriving DecidableEq

namespace Watermark

def start : Watermark := ⟨0⟩

/-- Look at a delivery. -/
def accept (watermark : Watermark) (response : PublishResponse) :
    Watermark × Delivery :=
  match response.value? with
  | none => (watermark, .duplicate)
  | some label =>
      if label.sequence = watermark.sequence + 1 then
        (⟨label.sequence⟩, .accepted)
      else if watermark.sequence + 1 < label.sequence then (watermark, .gap)
      else (watermark, .duplicate)

end Watermark

end SessionRaft
