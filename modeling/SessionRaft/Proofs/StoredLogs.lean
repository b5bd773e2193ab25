/-
What the files of a log say.  Whatever was read can be written again; a file
that is replaced changes what is read into what was written, and an attempt to
replace it that is not completed changes nothing.
-/
import SessionRaft.Proofs.Documents
import SessionRaft.Proofs.FaithfulLog
import SessionRaft.Proofs.Replacements

namespace SessionRaft

/-! ### What the files say -/

namespace FileLog

open Document

/-- What is read from a vote and a log, either of which may be missing. -/
def assemble (vote : Option (Nat × Option NodeId))
    (entries : Option (List LogEntry)) : MemoryLog :=
  ⟨entries.getD [], (vote.getD (0, none)).1, (vote.getD (0, none)).2⟩

theorem checkNumbers_eq_ok_iff {position : Nat} {entries : List LogEntry} :
    checkNumbers position entries = .ok () ↔
      ∀ place entry, entries[place]? = some entry →
        entry.index = position + place + 1 := by
  induction entries generalizing position with
  | nil => simp [checkNumbers]
  | cons first rest ih =>
      rw [checkNumbers]
      split
      · rename_i hfirst
        rw [ih]
        refine ⟨fun hrest place entry hentry => ?_, fun hall place entry hentry => ?_⟩
        · cases place with
          | zero => rw [← Option.some.inj hentry, hfirst]
          | succ place => rw [hrest place entry hentry]; omega
        · rw [hall (place + 1) entry hentry]; omega
      · rename_i hfirst
        refine ⟨fun hfault => by simp at hfault, fun hall => ?_⟩
        exact absurd (hall 0 first rfl) hfirst

theorem checkNumbers_zero {entries : List LogEntry} :
    checkNumbers 0 entries = .ok () ↔ Numbered entries := by
  simp only [checkNumbers_eq_ok_iff, Numbered, Nat.zero_add]

/-- What a directory must hold for its log to be read. -/
theorem readMemory_eq_ok_iff {disk : Disk} {memory : MemoryLog} :
    readMemory disk = .ok memory ↔ ∃ vote entries,
      readDocument disk voteFile vote? = .ok vote ∧
        readDocument disk entriesFile entries? = .ok entries ∧
        Numbered (entries.getD []) ∧ assemble vote entries = memory := by
  have hread : readMemory disk = do
      let vote ← readDocument disk voteFile vote?
      let entries ← readDocument disk entriesFile entries?
      checkNumbers 0 (entries.getD [])
      return assemble vote entries := rfl
  rw [hread]
  cases readDocument disk voteFile vote? with
  | error fault => simp [bind, Except.bind]
  | ok vote =>
      cases readDocument disk entriesFile entries? with
      | error fault => simp [bind, Except.bind]
      | ok entries =>
          simp only [← checkNumbers_zero, bind, Except.bind, pure, Except.pure,
            Except.ok.injEq, exists_and_left, exists_eq_left']
          cases checkNumbers 0 (entries.getD []) <;> simp

variable {disk after : Disk} {memory : MemoryLog}

theorem readDocument_congr {α : Type} {name : String}
    {describes? : Json → Option α} (hitem : after.item? name = disk.item? name) :
    readDocument after name describes? = readDocument disk name describes? := by
  rw [readDocument, readDocument, Disk.read?, Disk.read?, hitem]

theorem readDocument_of_file {α : Type} {name : String} {value : Json}
    {described : α} {describes? : Json → Option α}
    (hfile : disk.item? name = some (.file (encode value)))
    (hplain : value.Plain) (hdescribes : describes? value = some described) :
    readDocument disk name describes? = .ok (some described) := by
  simp only [readDocument, Disk.read?, hfile, bind, Except.bind,
    decode_of_plain hplain, hdescribes]
  rfl

theorem describes_of_readDocument {α : Type} {name : String}
    {described : α} {describes? : Json → Option α}
    (hread : readDocument disk name describes? = .ok (some described)) :
    ∃ value, describes? value = some described := by
  obtain ⟨content, -, hread⟩ := exists_of_bind hread
  split at hread
  · simp [pure, Except.pure] at hread
  · obtain ⟨value, -, hread⟩ := exists_of_bind hread
    split at hread
    · simp at hread
    · rename_i found hfound
      refine ⟨value, ?_⟩
      rw [hfound, Except.ok.inj hread]

/-- A log that was read is numbered. -/
theorem numbered_of_readMemory (hread : readMemory disk = .ok memory) :
    Numbered memory.entries := by
  obtain ⟨vote, entries, -, -, hnumbered, rfl⟩ := readMemory_eq_ok_iff.mp hread
  exact hnumbered

/-- What was read can be written again. -/
theorem inWords_of_readMemory (hread : readMemory disk = .ok memory) :
    VoteInWords memory.term memory.votedFor ∧
      ∀ entry ∈ memory.entries, entry.InWords := by
  obtain ⟨vote, entries, hvote, hentries, -, rfl⟩ :=
    readMemory_eq_ok_iff.mp hread
  constructor
  · cases vote with
    | none =>
        exact ⟨capacity_pos 8, fun _ hnone => by simp [assemble] at hnone⟩
    | some vote =>
        obtain ⟨value, hvalue⟩ := describes_of_readDocument hvote
        exact inWords_of_vote? hvalue
  · cases entries with
    | none => simp [assemble]
    | some entries =>
        obtain ⟨value, hvalue⟩ := describes_of_readDocument hentries
        exact inWords_of_entries? hvalue

theorem readMemory_of_vote {term : Nat} {votedFor : Option NodeId}
    (hread : readMemory disk = .ok memory) (hvote : VoteInWords term votedFor)
    (hfile : after.item? voteFile =
      some (.file (encode (ofVote term votedFor))))
    (hother : after.item? entriesFile = disk.item? entriesFile) :
    readMemory after = .ok (memory.saveVote term votedFor) := by
  obtain ⟨vote, entries, -, hentries, hnumbered, rfl⟩ :=
    readMemory_eq_ok_iff.mp hread
  refine readMemory_eq_ok_iff.mpr ⟨some (term, votedFor), entries,
    readDocument_of_file hfile (plain_ofVote term votedFor)
      (vote?_ofVote hvote), ?_, hnumbered, rfl⟩
  rw [readDocument_congr hother, hentries]

theorem readMemory_of_entries {entries : List LogEntry}
    (hread : readMemory disk = .ok memory) (hnumbered : Numbered entries)
    (hwords : ∀ entry ∈ entries, entry.InWords)
    (hfile : after.item? entriesFile =
      some (.file (encode (ofEntries entries))))
    (hother : after.item? voteFile = disk.item? voteFile) :
    readMemory after = .ok { memory with entries := entries } := by
  obtain ⟨vote, before, hvote, -, -, rfl⟩ := readMemory_eq_ok_iff.mp hread
  refine readMemory_eq_ok_iff.mpr ⟨vote, some entries, ?_,
    readDocument_of_file hfile (plain_ofEntries entries)
      (entries?_ofEntries hwords), hnumbered, rfl⟩
  rw [readDocument_congr hother, hvote]

theorem readMemory_congr (hvote : after.item? voteFile = disk.item? voteFile)
    (hentries : after.item? entriesFile = disk.item? entriesFile) :
    readMemory after = readMemory disk := by
  rw [readMemory, readMemory, readDocument_congr hvote,
    readDocument_congr hentries]

/-! ### Replacing what they say -/

/-- An attempt to replace one of the files changes what is read if it is
completed, and else nothing. -/
theorem readMemory_replace {name : String} {content : Bytes}
    {changed : MemoryLog} (hname : name = voteFile ∨ name = entriesFile)
    (hread : readMemory disk = .ok memory)
    (hchanged : ∀ after : Disk, after.item? name = some (.file content) →
      (∀ other, other ≠ name → other ≠ Disk.draftOf name →
        after.item? other = disk.item? other) →
      readMemory after = .ok changed) (steps : Nat) :
    readMemory (disk.attempt (Disk.replacement name content) steps).2 =
      .ok (if (disk.attempt (Disk.replacement name content) steps).1 = true
        then changed else memory) := by
  have hnames : voteFile ≠ Disk.draftOf name ∧
      entriesFile ≠ Disk.draftOf name ∧ name ≠ Disk.draftOf name := by
    rcases hname with rfl | rfl <;> decide
  cases hdone : (disk.attempt (Disk.replacement name content) steps).1 with
  | true =>
      refine hchanged _ ?_ (fun other hother hdraft => ?_)
      · rw [disk.item?_attempt content steps hnames.2.2, if_pos ⟨rfl, hdone⟩]
      · rw [disk.item?_attempt content steps hdraft,
          if_neg (fun hsame => hother hsame.1)]
  | false =>
      have hkept : ∀ other, other ≠ Disk.draftOf name →
          (disk.attempt (Disk.replacement name content) steps).2.item? other =
            disk.item? other := by
        intro other hdraft
        rw [disk.item?_attempt content steps hdraft, hdone,
          if_neg (fun hsame => Bool.false_ne_true hsame.2)]
      rw [readMemory_congr (hkept _ hnames.1) (hkept _ hnames.2.1), hread]
      rfl

theorem readMemory_replaceVote {term : Nat} {votedFor : Option NodeId}
    (hread : readMemory disk = .ok memory) (hvote : VoteInWords term votedFor)
    (steps : Nat) :
    let attempt := disk.attempt
      (Disk.replacement voteFile (encode (ofVote term votedFor))) steps
    readMemory attempt.2 = .ok
      (if attempt.1 = true then memory.saveVote term votedFor else memory) :=
  readMemory_replace (.inl rfl) hread (fun after hfile hothers =>
    readMemory_of_vote hread hvote hfile
      (hothers entriesFile (by decide) (by decide))) steps

theorem readMemory_replaceEntries {entries : List LogEntry}
    (hread : readMemory disk = .ok memory) (hnumbered : Numbered entries)
    (hwords : ∀ entry ∈ entries, entry.InWords) (steps : Nat) :
    let attempt := disk.attempt
      (Disk.replacement entriesFile (encode (ofEntries entries))) steps
    readMemory attempt.2 = .ok
      (if attempt.1 = true then { memory with entries := entries }
        else memory) :=
  readMemory_replace (.inr rfl) hread (fun after hfile hothers =>
    readMemory_of_entries hread hnumbered hwords hfile
      (hothers voteFile (by decide) (by decide))) steps

/-! ### Opening -/

theorem item?_make (disk : Disk) (name : String) :
    disk.make.item? name = disk.item? name := by
  unfold Disk.item? Disk.make
  cases disk.directory <;> rfl

theorem load_of_readMemory (hread : readMemory disk = .ok memory) :
    load disk = .ok ⟨disk.make, memory⟩ := by
  rw [load, readMemory_congr (item?_make disk _) (item?_make disk _), hread]
  rfl

/-- The files of a log say what its memory holds. -/
def Synced (log : FileLog) : Prop := readMemory log.disk = .ok log.memory

theorem synced_of_load {log : FileLog} (hload : load disk = .ok log) :
    log.Synced := by
  obtain ⟨memory, hread, hlog⟩ := exists_of_bind hload
  obtain rfl := Except.ok.inj hlog
  exact hread

end FileLog

end SessionRaft
