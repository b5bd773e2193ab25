/-
The JSON documents in which a log and a vote are stored.  An operation is
written as an object with one member, named for the kind of operation; the one
kind without fields is written as its name.
-/
import SessionRaft.Json.Printer
import SessionRaft.Json.Reader
import SessionRaft.Log.Store
import SessionRaft.Word

namespace SessionRaft.Document

/-- An object whose members have these names. -/
def record (members : List (String × Json)) : Json :=
  .object (members.map (fun member => (Json.pointsOf member.1, member.2)))

def number (value : Nat) : Json := .integer value

/-- The number that a value spells, if it fits a machine word. -/
def number? (value : Json) : Option Nat := value.natural? wordBound

def optional : Option Nat → Json
  | none => .null
  | some value => number value

/-- The number that a value spells, where null stands for none. -/
def optional? : Json → Option (Option Nat)
  | .null => some none
  | value => (number? value).map some

def bytes (content : Bytes) : Json :=
  .array (content.map (fun byte => number byte.toNat))

def bytes? (value : Json) : Option Bytes := do
  (← value.items?).mapM (fun item => (item.natural? 256).map UInt8.ofNat)

/-- The fields of a record, none of which may be absent. -/
def fields? (names : List String) (value : Json) : Option (List Json) := do
  (← value.record? names).mapM id

def ofVote (term : Nat) (votedFor : Option NodeId) : Json :=
  record [("term", number term), ("voted_for", optional votedFor)]

/-- The vote that a document describes.  An object without a vote describes a
term in which none was cast. -/
def vote? (value : Json) : Option (Nat × Option NodeId) := do
  match ← value.record? ["term", "voted_for"], value with
  | [some term, some votedFor], _ =>
      return (← number? term, ← optional? votedFor)
  | [some term, none], .object _ => return (← number? term, none)
  | _, _ => none

/-- The name and the body of an operation with fields. -/
def variant (name : String) (members : List (String × Json)) : Json :=
  record [(name, record members)]

def ofOperation : Operation → Json
  | .noOp => .text (Json.pointsOf "NoOp")
  | .register client timeout timestamp =>
      variant "Register" [("client", number client),
        ("timeout", number timeout), ("timestamp", number timestamp)]
  | .keepAlive session commandSequence eventSequence timestamp =>
      variant "KeepAlive" [("session", number session),
        ("command_sequence", number commandSequence),
        ("event_sequence", .integer eventSequence),
        ("timestamp", number timestamp)]
  | .unregister session timestamp =>
      variant "Unregister" [("session", number session),
        ("timestamp", number timestamp)]
  | .command session sequence timestamp payload =>
      variant "Command" [("session", number session),
        ("sequence", number sequence), ("timestamp", number timestamp),
        ("payload", bytes payload)]

def register? (body : Json) : Option Operation := do
  match ← fields? ["client", "timeout", "timestamp"] body with
  | [client, timeout, timestamp] =>
      return .register (← number? client) (← number? timeout)
        (← number? timestamp)
  | _ => none

def keepAlive? (body : Json) : Option Operation := do
  match ← fields? ["session", "command_sequence", "event_sequence",
      "timestamp"] body with
  | [session, commandSequence, eventSequence, timestamp] =>
      return .keepAlive (← number? session) (← number? commandSequence)
        (← eventSequence.signed? signedBound) (← number? timestamp)
  | _ => none

def unregister? (body : Json) : Option Operation := do
  match ← fields? ["session", "timestamp"] body with
  | [session, timestamp] =>
      return .unregister (← number? session) (← number? timestamp)
  | _ => none

def command? (body : Json) : Option Operation := do
  match ← fields? ["session", "sequence", "timestamp", "payload"] body with
  | [session, sequence, timestamp, payload] =>
      return .command (← number? session) (← number? sequence)
        (← number? timestamp) (← bytes? payload)
  | _ => none

def operation? : Json → Option Operation
  | .text name => if name = Json.pointsOf "NoOp" then some .noOp else none
  | .object [(name, body)] =>
      if name = Json.pointsOf "NoOp" then
        match body with
        | .null => some .noOp
        | _ => none
      else if name = Json.pointsOf "Register" then register? body
      else if name = Json.pointsOf "KeepAlive" then keepAlive? body
      else if name = Json.pointsOf "Unregister" then unregister? body
      else if name = Json.pointsOf "Command" then command? body
      else none
  | _ => none

def ofEntry (entry : LogEntry) : Json :=
  record [("term", number entry.term), ("index", number entry.index),
    ("operation", ofOperation entry.operation)]

def entry? (value : Json) : Option LogEntry := do
  match ← fields? ["term", "index", "operation"] value with
  | [term, index, operation] =>
      return ⟨← number? term, ← number? index, ← operation? operation⟩
  | _ => none

def ofEntries (entries : List LogEntry) : Json := .array (entries.map ofEntry)

def entries? (value : Json) : Option (List LogEntry) := do
  (← value.items?).mapM entry?

def encode (value : Json) : Bytes := (String.ofList value.print).toUTF8.toList

def decode (content : Bytes) : Except LogFault Json :=
  match String.fromUTF8? ⟨content.toArray⟩ with
  | none => .error .notText
  | some spelling =>
      match Json.read? spelling.toList with
      | none => .error .serialization
      | some value => .ok value

end SessionRaft.Document
