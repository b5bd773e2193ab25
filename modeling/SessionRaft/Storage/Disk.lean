/-
A directory of files and the operations on it.  A file is replaced by writing
a new one beside it and renaming that over the old one, so that a failure at
any point leaves the old content in place.
-/
import SessionRaft.Log.Store

namespace SessionRaft

/-- What a directory holds under a name. -/
inductive Item where
  | file (content : Bytes)
  | folder
deriving DecidableEq

abbrev Directory := List (String × Item)

namespace Directory

def item? (directory : Directory) (name : String) : Option Item :=
  directory.lookup name

def erase (directory : Directory) (name : String) : Directory :=
  directory.filter (fun entry => entry.1 != name)

/-- Put an item under a name, replacing what was there. -/
def put (directory : Directory) (name : String) (item : Item) : Directory :=
  (name, item) :: directory.erase name

theorem item?_erase (directory : Directory) (name other : String) :
    (directory.erase name).item? other =
      if other = name then none else directory.item? other := by
  induction directory with
  | nil => simp [erase, item?]
  | cons entry entries ih =>
      simp only [erase, item?] at ih
      obtain ⟨key, item⟩ := entry
      by_cases hother : other = key
      · by_cases hkey : key = name
        · simpa [erase, item?, hkey, hother] using ih
        · simp [erase, item?, hother, hkey]
      · have hbeq : (other == key) = false := beq_eq_false_iff_ne.2 hother
        by_cases hkey : key = name
        · subst hkey
          simpa [erase, item?, List.lookup_cons, hbeq] using ih
        · simpa [erase, item?, hkey, List.lookup_cons, hbeq] using ih

theorem item?_put (directory : Directory) (name other : String) (item : Item) :
    (directory.put name item).item? other =
      if other = name then some item else directory.item? other := by
  by_cases hother : other = name
  · simp [put, item?, hother]
  · have hbeq : (other == name) = false := beq_eq_false_iff_ne.2 hother
    have herase := item?_erase directory name other
    simp only [hother, ↓reduceIte, item?] at herase ⊢
    simpa [put, List.lookup_cons, hbeq] using herase

end Directory

/-- One operation on a file of a directory. -/
inductive FileAction where
  /-- Make an empty file, or empty the one that is there. -/
  | create (name : String)
  | write (name : String) (content : Bytes)
  /-- Wait until the content has reached the device. -/
  | sync (name : String)
  /-- Give a file another name, and drop the file that had it. -/
  | rename (source target : String)
  /-- Take a file away; it need not be there. -/
  | remove (name : String)
deriving DecidableEq

/-- Carry out an operation.  A folder in place of a file makes it fail. -/
def Directory.perform? (directory : Directory) : FileAction → Option Directory
  | .create name =>
      match directory.item? name with
      | some .folder => none
      | _ => some (directory.put name (.file []))
  | .write name content =>
      match directory.item? name with
      | some (.file _) => some (directory.put name (.file content))
      | _ => none
  | .sync _ => some directory
  | .rename source target =>
      match directory.item? source, directory.item? target with
      | some (.file _), some .folder => none
      | some (.file content), _ =>
          some ((directory.erase source).put target (.file content))
      | _, _ => none
  | .remove name =>
      match directory.item? name with
      | some .folder => none
      | _ => some (directory.erase name)

/-- A directory on a device that may refuse operations. -/
structure Disk where
  directory : Option Directory
  /-- Which of the coming operations are refused, in their order; after these
  none is.  A refused write leaves the given bytes in the file. -/
  refusals : List (Option Bytes)
deriving DecidableEq

namespace Disk

/-- A device that refuses nothing, without the directory. -/
def blank : Disk := ⟨none, []⟩

/-- Make the directory if it is missing. -/
def make (disk : Disk) : Disk :=
  { disk with directory := some (disk.directory.getD []) }

def item? (disk : Disk) (name : String) : Option Item :=
  disk.directory.bind (·.item? name)

/-- Carry out an operation on the directory.  Without a directory nothing but
the removal of a file succeeds. -/
def perform? (disk : Disk) (action : FileAction) :
    Option (Option Directory) :=
  match disk.directory with
  | some directory => (directory.perform? action).map some
  | none =>
      match action with
      | .remove _ => some none
      | _ => none

/-- What a refused operation leaves behind: a write may have gone part of its
way, and everything else has changed nothing. -/
def damage (disk : Disk) (action : FileAction) (left : Bytes) : Disk :=
  match action with
  | .write name _ =>
      { disk with
        directory := (disk.perform? (.write name left)).getD disk.directory }
  | _ => disk

/-- Carry out an operation unless the device refuses it. -/
def act (disk : Disk) (action : FileAction) : Except LogFault Unit × Disk :=
  let later := { disk with refusals := disk.refusals.tail }
  match disk.refusals.headD none with
  | some left => (.error .system, later.damage action left)
  | none =>
      match disk.perform? action with
      | none => (.error .system, later)
      | some directory => (.ok (), { later with directory := directory })

/-- Carry out operations up to the first that fails. -/
def run (disk : Disk) : List FileAction → Except LogFault Unit × Disk
  | [] => (.ok (), disk)
  | action :: actions =>
      match disk.act action with
      | (.error fault, disk) => (.error fault, disk)
      | (.ok (), disk) => disk.run actions

theorem run_append (disk : Disk) (first second : List FileAction) :
    disk.run (first ++ second) =
      match disk.run first with
      | (.ok (), disk) => disk.run second
      | (.error fault, disk) => (.error fault, disk) := by
  induction first generalizing disk with
  | nil => rfl
  | cons action actions ih =>
      simp only [List.cons_append, run]
      cases hact : disk.act action with
      | mk outcome later =>
          cases outcome with
          | error fault => rfl
          | ok value => exact ih later

/-- The content of a file, if there is such a file. -/
def read? (disk : Disk) (name : String) : Except LogFault (Option Bytes) :=
  match disk.item? name with
  | none => .ok none
  | some (.file content) => .ok (some content)
  | some .folder => .error .system

/-- The operations that replace a file as a whole. -/
def replacement (name : String) (content : Bytes) : List FileAction :=
  let draft := name ++ ".tmp"
  [.create draft, .write draft content, .sync draft, .rename draft name]

/-- Put a file into the directory from outside. -/
def place (disk : Disk) (name : String) (content : Bytes) : Disk :=
  match disk.item? name with
  | some .folder => disk
  | _ => { disk with
      directory := disk.make.directory.map (·.put name (.file content)) }

/-- Put a folder in the place of a file that is missing. -/
def block (disk : Disk) (name : String) : Disk :=
  match disk.item? name with
  | some (.file _) => disk
  | _ => { disk with directory := disk.make.directory.map (·.put name .folder) }

def unblock (disk : Disk) (name : String) : Disk :=
  match disk.item? name with
  | some .folder => { disk with directory := disk.directory.map (·.erase name) }
  | _ => disk

/-- Take the directory away with all it holds. -/
def wipe (disk : Disk) : Disk := { disk with directory := none }

end Disk

end SessionRaft
