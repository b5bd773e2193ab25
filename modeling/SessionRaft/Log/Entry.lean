/-
The entries of the replicated log and the operations they carry.  Timestamps
are the leader's clock in milliseconds; they travel with the entry so that
every replica expires sessions at the same position of the log.  A term is the
number of an election; an index is a position in the log, where the first
entry has index 1.
-/

namespace SessionRaft

/-- The number that identifies a cluster member. -/
abbrev NodeId := Nat

/-- The number that identifies a session: the index of its registration. -/
abbrev SessionId := Nat

abbrev Bytes := List UInt8

/-- What an entry asks the replicas to do. -/
inductive Operation where
  /-- Appended by a new leader, so that entries of earlier terms commit. -/
  | noOp
  /-- Opens the session whose identity is the index of the entry. -/
  | register (client timeout timestamp : Nat)
  /-- Refreshes a session and acknowledges results and events. -/
  | keepAlive (session : SessionId) (commandSequence : Nat)
      (eventSequence : Int) (timestamp : Nat)
  | unregister (session : SessionId) (timestamp : Nat)
  | command (session : SessionId) (sequence timestamp : Nat) (payload : Bytes)
deriving DecidableEq

/-- The leader's clock at the moment of appending; a no-op carries none. -/
def Operation.timestamp? : Operation → Option Nat
  | noOp => none
  | register _ _ timestamp => some timestamp
  | keepAlive _ _ _ timestamp => some timestamp
  | unregister _ timestamp => some timestamp
  | command _ _ timestamp _ => some timestamp

/-- One entry of the replicated log. -/
structure LogEntry where
  term : Nat
  /-- The position of the entry, counted from 1. -/
  index : Nat
  operation : Operation
deriving DecidableEq

end SessionRaft
