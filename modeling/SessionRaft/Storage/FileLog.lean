/-
A log in files.  A directory holds the vote in one document and the entries in
another, and memory holds what both say.  Every change replaces a document as
a whole before it reaches memory, so a failure changes neither.
-/
import SessionRaft.Log.Memory
import SessionRaft.Storage.Disk
import SessionRaft.Storage.Document

namespace SessionRaft

/-- A log in files, together with what the files say. -/
structure FileLog where
  disk : Disk
  memory : MemoryLog

namespace FileLog

def voteFile : String := "meta.json"

def entriesFile : String := "log.json"

/-- What a file says, if there is such a file. -/
def readDocument {α : Type} (disk : Disk) (name : String)
    (describes? : Json → Option α) : Except LogFault (Option α) := do
  match ← disk.read? name with
  | none => return none
  | some content =>
      match describes? (← Document.decode content) with
      | none => .error .serialization
      | some value => return some value

def checkNumbers : Nat → List LogEntry → Except LogFault Unit
  | _, [] => .ok ()
  | position, entry :: entries =>
      if entry.index = position + 1 then checkNumbers (position + 1) entries
      else .error (.misnumbered position entry.index)

/-- What the files of a directory say; a missing file says nothing. -/
def readMemory (disk : Disk) : Except LogFault MemoryLog := do
  let vote ← readDocument disk voteFile Document.vote?
  let entries ← readDocument disk entriesFile Document.entries?
  let (term, votedFor) := vote.getD (0, none)
  let entries := entries.getD []
  checkNumbers 0 entries
  return ⟨entries, term, votedFor⟩

/-- The log in a directory, which is made if it is missing. -/
def load (disk : Disk) : Except LogFault FileLog := do
  let disk := disk.make
  return ⟨disk, ← readMemory disk⟩

/-- Replace a document, and only then what memory holds. -/
def replace (log : FileLog) (name : String) (document : Json)
    (memory : MemoryLog) : Except LogFault Unit × FileLog :=
  match log.disk.run (Disk.replacement name (Document.encode document)) with
  | (.ok (), disk) => (.ok (), ⟨disk, memory⟩)
  | (.error fault, disk) => (.error fault, ⟨disk, log.memory⟩)

def replaceEntries (log : FileLog) (memory : MemoryLog) :
    Except LogFault Unit × FileLog :=
  log.replace entriesFile (Document.ofEntries memory.entries) memory

def append (log : FileLog) (term : Nat) (operation : Operation) :
    Except LogFault Nat × FileLog :=
  let index := log.memory.lastIndex + 1
  let (outcome, log) := log.replaceEntries (log.memory.append term operation)
  (outcome.map (fun _ => index), log)

/-- Drop every entry past an index; if there is none, nothing is written. -/
def truncateAfter (log : FileLog) (index : Nat) :
    Except LogFault Unit × FileLog :=
  if log.memory.lastIndex ≤ index then (.ok (), log)
  else log.replaceEntries (log.memory.truncateAfter index)

def saveVote (log : FileLog) (term : Nat) (votedFor : Option NodeId) :
    Except LogFault Unit × FileLog :=
  log.replace voteFile (Document.ofVote term votedFor)
    (log.memory.saveVote term votedFor)

/-- Remove both files, the vote first, and then forget what they said. -/
def clear (log : FileLog) : Except LogFault Unit × FileLog :=
  match log.disk.run [.remove voteFile, .remove entriesFile] with
  | (.ok (), disk) => (.ok (), ⟨disk, .empty⟩)
  | (.error fault, disk) => (.error fault, ⟨disk, log.memory⟩)

instance : LogStore FileLog where
  append := append
  get? log := log.memory.get?
  truncateAfter := truncateAfter
  lastIndex log := log.memory.lastIndex
  lastTerm log := log.memory.lastTerm
  saveVote := saveVote
  loadVote log := .ok (log.memory.term, log.memory.votedFor)

end FileLog

end SessionRaft
