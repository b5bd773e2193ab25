/-
The log of a node that is either kept in memory or in files, with faults on
demand.
-/
import SessionRaft.Log.Faulty
import SessionRaft.Storage.FileLog

namespace SessionRaft

/-- A log of either kind. -/
inductive EitherLog where
  | memory (log : MemoryLog)
  | files (log : FileLog)

namespace EitherLog

instance : LogStore EitherLog where
  append
    | memory log, term, operation =>
        let (outcome, log) := LogStore.append log term operation
        (outcome, memory log)
    | files log, term, operation =>
        let (outcome, log) := LogStore.append log term operation
        (outcome, files log)
  get?
    | memory log, index => LogStore.get? log index
    | files log, index => LogStore.get? log index
  truncateAfter
    | memory log, index =>
        let (outcome, log) := LogStore.truncateAfter log index
        (outcome, memory log)
    | files log, index =>
        let (outcome, log) := LogStore.truncateAfter log index
        (outcome, files log)
  lastIndex
    | memory log => LogStore.lastIndex log
    | files log => LogStore.lastIndex log
  lastTerm
    | memory log => LogStore.lastTerm log
    | files log => LogStore.lastTerm log
  saveVote
    | memory log, term, votedFor =>
        let (outcome, log) := LogStore.saveVote log term votedFor
        (outcome, memory log)
    | files log, term, votedFor =>
        let (outcome, log) := LogStore.saveVote log term votedFor
        (outcome, files log)
  loadVote
    | memory log => LogStore.loadVote log
    | files log => LogStore.loadVote log

end EitherLog

/-- The log of a node whose storage may be made to fail. -/
abbrev Store := Faulty EitherLog

namespace Store

/-- What is left of a log after a crash.  A log in memory keeps its faults; a
log in files is read again, without faults. -/
def reopen (store : Store) : Except LogFault Store :=
  match store.inner with
  | .memory _ => .ok store
  | .files log => do
      let log ← FileLog.load log.disk
      return ⟨.files log, .none⟩

def setFaults (faults : Faults) (store : Store) : Store :=
  { store with faults := faults }

end Store

end SessionRaft
