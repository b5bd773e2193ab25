/-
What a node asks of its log.  Entries are numbered from 1 without gaps, and
the term and the vote are kept beside them, because both have to be durable
before a node speaks of them.
-/
import SessionRaft.Log.Entry

namespace SessionRaft

/-- Why an operation on a log failed. -/
inductive LogFault where
  /-- The stored text does not describe a log or a vote. -/
  | serialization
  /-- A stored entry carries another index than its place. -/
  | misnumbered (position : Nat) (index : Nat)
  | notText
  /-- The operation was made to fail on purpose. -/
  | injected
  /-- The file system refused an operation. -/
  | system
deriving DecidableEq

/-- The text that reports the fault; where the cause lies outside, there is no
fixed one. -/
def LogFault.message? : LogFault → Option String
  | serialization => none
  | misnumbered position index =>
      some ("log io failed: log entry at position " ++ toString position ++
        " has index " ++ toString index ++ ", expected " ++
        toString (position + 1))
  | notText => some "log io failed: stream did not contain valid UTF-8"
  | injected => some "log io failed: injected"
  | system => none

/-- A durable log with the vote beside it.  An operation that fails may change
the store as well, so every writing operation returns the store after it. -/
class LogStore (L : Type) where
  append : L → Nat → Operation → Except LogFault Nat × L
  /-- The entry at an index. -/
  get? : L → Nat → Option LogEntry
  truncateAfter : L → Nat → Except LogFault Unit × L
  /-- The index of the last entry, 0 if there is none. -/
  lastIndex : L → Nat
  /-- The term of the last entry, 0 if there is none. -/
  lastTerm : L → Nat
  saveVote : L → Nat → Option NodeId → Except LogFault Unit × L
  loadVote : L → Except LogFault (Nat × Option NodeId)

namespace LogStore

variable {L : Type} [LogStore L]

/-- The term of the entry at an index, 0 if there is no entry. -/
def termAt (log : L) (index : Nat) : Nat :=
  if index = 0 then 0
  else
    match get? log index with
    | some entry => entry.term
    | none => 0

/-- At most `count` entries from an index on, up to the first that is
missing. -/
def collect (log : L) : Nat → Nat → List LogEntry
  | 0, _ => []
  | count + 1, index =>
      match get? log index with
      | none => []
      | some entry => entry :: collect log count (index + 1)

/-- At most `limit` consecutive entries from `start` on. -/
def entriesFrom (log : L) (start : Nat) (limit : Nat) : List LogEntry :=
  let start := max start 1
  collect log (min limit (lastIndex log + 1 - start)) start

@[simp] theorem termAt_zero (log : L) : termAt log 0 = 0 := rfl

theorem termAt_of_get? {log : L} {index : Nat} {entry : LogEntry}
    (hpos : 0 < index) (hget : get? log index = some entry) :
    termAt log index = entry.term := by
  simp [termAt, Nat.ne_of_gt hpos, hget]

theorem length_collect_le (log : L) (count : Nat) (index : Nat) :
    (collect log count index).length ≤ count := by
  induction count generalizing index with
  | zero => exact Nat.le_refl 0
  | succ count ih =>
      simp only [collect]
      split
      · exact Nat.zero_le _
      · exact Nat.succ_le_succ (ih (index + 1))

theorem getElem?_collect {log : L} {count offset : Nat} {index : Nat}
    {entry : LogEntry} (hget : (collect log count index)[offset]? = some entry) :
    get? log (index + offset) = some entry := by
  induction count generalizing index offset with
  | zero => simp [collect] at hget
  | succ count ih =>
      simp only [collect] at hget
      split at hget
      · simp at hget
      · rename_i first hfirst
        cases offset with
        | zero => simpa [← hget] using hfirst
        | succ offset =>
            rw [List.getElem?_cons_succ] at hget
            have hnext := ih hget
            rwa [Nat.add_assoc, Nat.add_comm 1 offset] at hnext

theorem length_entriesFrom_le (log : L) (start : Nat) (limit : Nat) :
    (entriesFrom log start limit).length ≤ limit :=
  Nat.le_trans (length_collect_le log _ _) (Nat.min_le_left _ _)

end LogStore

end SessionRaft
