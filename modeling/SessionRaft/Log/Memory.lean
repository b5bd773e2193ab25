/-
The log that lives in memory.  It is what every other log is compared with.
-/
import SessionRaft.Log.Store

namespace SessionRaft

/-- A log and a vote in memory. -/
structure MemoryLog where
  entries : List LogEntry
  term : Nat
  votedFor : Option NodeId
deriving DecidableEq

namespace MemoryLog

def empty : MemoryLog := ⟨[], 0, none⟩

def size (log : MemoryLog) : Nat := log.entries.length

def get? (log : MemoryLog) (index : Nat) : Option LogEntry :=
  if index = 0 then none else log.entries[index - 1]?

/-- The index of the last entry, 0 if there is none. -/
def lastIndex (log : MemoryLog) : Nat := log.entries.length

/-- The term of the last entry, 0 if there is none. -/
def lastTerm (log : MemoryLog) : Nat :=
  match log.entries.getLast? with
  | some entry => entry.term
  | none => 0

def nextEntry (log : MemoryLog) (term : Nat) (operation : Operation) :
    LogEntry :=
  ⟨term, log.lastIndex + 1, operation⟩

def append (log : MemoryLog) (term : Nat) (operation : Operation) :
    MemoryLog :=
  { log with entries := log.entries ++ [log.nextEntry term operation] }

def truncateAfter (log : MemoryLog) (index : Nat) : MemoryLog :=
  { log with entries := log.entries.take index }

def saveVote (log : MemoryLog) (term : Nat) (votedFor : Option NodeId) :
    MemoryLog :=
  { log with term := term, votedFor := votedFor }

@[simp] theorem lastIndex_empty : empty.lastIndex = 0 := rfl

theorem get?_eq_none_iff (log : MemoryLog) (index : Nat) :
    log.get? index = none ↔ index = 0 ∨ log.lastIndex < index := by
  by_cases hzero : index = 0
  · simp [get?, hzero]
  · simp only [get?, hzero, lastIndex, ↓reduceIte, false_or,
      List.getElem?_eq_none_iff]
    omega

@[simp] theorem lastIndex_append (log : MemoryLog) (term : Nat)
    (operation : Operation) :
    (log.append term operation).lastIndex = log.lastIndex + 1 := by
  simp [append, lastIndex]

theorem get?_append (log : MemoryLog) (term : Nat) (operation : Operation)
    (index : Nat) :
    (log.append term operation).get? index =
      if index = log.lastIndex + 1 then some (log.nextEntry term operation)
      else log.get? index := by
  by_cases hzero : index = 0
  · simp [get?, hzero]
  · by_cases hlast : index = log.lastIndex + 1
    · simp [get?, append, hlast, lastIndex]
    · simp only [get?, append, hzero, hlast, ↓reduceIte]
      simp only [lastIndex] at hlast
      by_cases hlt : index - 1 < log.entries.length
      · rw [List.getElem?_append_left hlt]
      · have hleft : log.entries[index - 1]? = none :=
          List.getElem?_eq_none_iff.2 (by omega)
        rw [hleft, List.getElem?_eq_none_iff]
        simp only [List.length_append, List.length_singleton]
        omega

theorem truncateAfter_of_le {log : MemoryLog} {index : Nat}
    (hindex : log.lastIndex ≤ index) : log.truncateAfter index = log := by
  rw [truncateAfter, List.take_of_length_le hindex]

@[simp] theorem lastIndex_truncateAfter (log : MemoryLog) (index : Nat) :
    (log.truncateAfter index).lastIndex = min index log.lastIndex := by
  simp [truncateAfter, lastIndex]

theorem get?_truncateAfter (log : MemoryLog) (limit index : Nat) :
    (log.truncateAfter limit).get? index =
      if index ≤ limit then log.get? index else none := by
  by_cases hzero : index = 0
  · simp [get?, hzero]
  · simp only [get?, truncateAfter, hzero, ↓reduceIte, List.getElem?_take]
    by_cases hle : index ≤ limit
    · simp [hle, show index - 1 < limit by omega]
    · simp [hle, show ¬index - 1 < limit by omega]

instance : LogStore MemoryLog where
  append log term operation :=
    (.ok (log.lastIndex + 1), log.append term operation)
  get? := get?
  truncateAfter log index := (.ok (), log.truncateAfter index)
  lastIndex := lastIndex
  lastTerm := lastTerm
  saveVote log term votedFor := (.ok (), log.saveVote term votedFor)
  loadVote log := .ok (log.term, log.votedFor)

end MemoryLog

end SessionRaft
