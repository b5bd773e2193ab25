/-
A log whose operations fail on demand.  It shows what a node does when its
storage lets it down.
-/
import SessionRaft.Log.Store

namespace SessionRaft

/-- Which operations of a log fail. -/
structure Faults where
  /-- How many more appends succeed; without a number all of them do. -/
  append : Option Nat := none
  /-- How many more votes can be stored. -/
  vote : Option Nat := none
  /-- How many more truncations succeed. -/
  truncate : Option Nat := none
  /-- The stored vote cannot be read. -/
  load : Bool := false
  /-- Appending tells an index that is too large by one. -/
  skew : Bool := false
  /-- The index of an entry that cannot be read. -/
  hide : Option Nat := none
deriving DecidableEq

namespace Faults

def none : Faults := {}

/-- One more use of an operation; without an answer it fails. -/
def use : Option Nat → Option (Option Nat)
  | .none => some .none
  | some 0 => .none
  | some (left + 1) => some (some left)

end Faults

/-- A log together with the faults to come. -/
structure Faulty (L : Type) where
  inner : L
  faults : Faults

namespace Faulty

variable {L : Type} [LogStore L]

def append (log : Faulty L) (term : Nat) (operation : Operation) :
    Except LogFault Nat × Faulty L :=
  match Faults.use log.faults.append with
  | none => (.error .injected, log)
  | some left =>
      let (outcome, inner) := LogStore.append log.inner term operation
      let log : Faulty L := ⟨inner, { log.faults with append := left }⟩
      (outcome.map (fun index => if log.faults.skew then index + 1 else index),
        log)

def truncateAfter (log : Faulty L) (index : Nat) :
    Except LogFault Unit × Faulty L :=
  match Faults.use log.faults.truncate with
  | none => (.error .injected, log)
  | some left =>
      let (outcome, inner) := LogStore.truncateAfter log.inner index
      (outcome, ⟨inner, { log.faults with truncate := left }⟩)

def saveVote (log : Faulty L) (term : Nat) (votedFor : Option NodeId) :
    Except LogFault Unit × Faulty L :=
  match Faults.use log.faults.vote with
  | none => (.error .injected, log)
  | some left =>
      let (outcome, inner) := LogStore.saveVote log.inner term votedFor
      (outcome, ⟨inner, { log.faults with vote := left }⟩)

instance : LogStore (Faulty L) where
  append := append
  get? log index :=
    if log.faults.hide = some index then none
    else LogStore.get? log.inner index
  truncateAfter := truncateAfter
  lastIndex log := LogStore.lastIndex log.inner
  lastTerm log := LogStore.lastTerm log.inner
  saveVote := saveVote
  loadVote log :=
    if log.faults.load then .error .injected
    else LogStore.loadVote log.inner

end Faulty

end SessionRaft
