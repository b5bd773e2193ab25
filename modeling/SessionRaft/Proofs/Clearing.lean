/-
Clearing a log in files.  The file of the vote is removed first and that of
the entries second, so a clear that fails at the second has taken the vote
from the files while memory keeps it.  The files then say the same entries and
no vote, until a vote is stored again or a clear succeeds.
-/
import SessionRaft.Proofs.CrashSafety

namespace SessionRaft

/-! ### Removing a file -/

namespace Disk

variable {disk after : Disk} {name : String}

theorem item?_of_remove (hact : disk.act (.remove name) = (.ok (), after)) :
    after.item? name = none := by
  have hperform := perform?_of_act hact
  unfold perform? at hperform
  split at hperform
  · obtain ⟨result, hresult, hafter⟩ := Option.map_eq_some_iff.mp hperform
    rw [item?, ← hafter, Option.bind_some]
    simp only [Directory.perform?] at hresult
    split at hresult
    · simp at hresult
    · rw [← Option.some.inj hresult, Directory.item?_erase, if_pos rfl]
  · rw [item?, ← Option.some.inj hperform, Option.bind_none]

theorem item?_of_unremoved {fault : LogFault} (other : String)
    (hact : disk.act (.remove name) = (.error fault, after)) :
    after.item? other = disk.item? other := by
  rw [item?, item?,
    directory_of_failed (fun _ _ => FileAction.noConfusion) hact]

theorem item?_of_removed {outcome : Except LogFault Unit} {other : String}
    (hother : other ≠ name)
    (hact : disk.act (.remove name) = (outcome, after)) :
    after.item? other = disk.item? other := by
  have hname : other ∉ (FileAction.remove name).names := by
    simpa [FileAction.names] using hother
  have hitem := disk.item?_act hname
  rwa [hact] at hitem

end Disk

/-! ### Files without the vote -/

/-- A log that has forgotten its term and its vote. -/
def MemoryLog.unvoted (memory : MemoryLog) : MemoryLog :=
  memory.saveVote 0 none

namespace FileLog

open Document

variable {disk after : Disk} {memory : MemoryLog}

theorem readDocument_of_missing {α : Type} {name : String}
    {describes? : Json → Option α} (hmissing : disk.item? name = none) :
    readDocument disk name describes? = .ok none := by
  simp only [readDocument, Disk.read?, hmissing]
  rfl

theorem readMemory_of_no_vote (hread : readMemory disk = .ok memory)
    (hmissing : after.item? voteFile = none)
    (hother : after.item? entriesFile = disk.item? entriesFile) :
    readMemory after = .ok memory.unvoted := by
  obtain ⟨vote, entries, -, hentries, hnumbered, rfl⟩ :=
    readMemory_eq_ok_iff.mp hread
  refine readMemory_eq_ok_iff.mpr ⟨none, entries,
    readDocument_of_missing hmissing, ?_, hnumbered, rfl⟩
  rw [readDocument_congr hother, hentries]

theorem readMemory_of_no_files (hvote : disk.item? voteFile = none)
    (hentries : disk.item? entriesFile = none) :
    readMemory disk = .ok .empty :=
  readMemory_eq_ok_iff.mpr ⟨none, none, readDocument_of_missing hvote,
    readDocument_of_missing hentries, fun _ _ hentry => by simp at hentry, rfl⟩

/-- The files of a log beside what they say, which is what memory holds but
for a vote that they have forgotten. -/
def filed (log : FileLog) (forgotten : Bool) : FileLog :=
  ⟨log.disk, if forgotten then log.memory.unvoted else log.memory⟩

/-! ### Clearing -/

/-- All that a clear can do, and what the files say after it. -/
theorem clear_cases {log : FileLog} {forgotten : Bool}
    (hlog : (log.filed forgotten).Synced) :
    (∃ fault disk, log.disk.act (.remove voteFile) = (.error fault, disk) ∧
      log.clear = (.error fault, ⟨disk, log.memory⟩) ∧
      readMemory disk = .ok (log.filed forgotten).memory) ∨
    ∃ between, log.disk.act (.remove voteFile) = (.ok (), between) ∧
      ((∃ fault disk,
        between.act (.remove entriesFile) = (.error fault, disk) ∧
        log.clear = (.error fault, ⟨disk, log.memory⟩) ∧
        readMemory disk = .ok log.memory.unvoted) ∨
      ∃ disk, between.act (.remove entriesFile) = (.ok (), disk) ∧
        log.clear = (.ok (), ⟨disk, .empty⟩) ∧
        readMemory disk = .ok .empty) := by
  unfold clear
  rw [Disk.run]
  rcases hvote : log.disk.act (.remove voteFile) with ⟨fault | value, between⟩
  · -- The vote cannot be removed, so both files are what they were.
    refine .inl ⟨fault, between, rfl, rfl, ?_⟩
    rw [readMemory_congr (Disk.item?_of_unremoved _ hvote)
      (Disk.item?_of_unremoved _ hvote)]
    exact hlog
  refine .inr ⟨between, rfl, ?_⟩
  have hgone := Disk.item?_of_remove hvote
  simp only [Disk.run]
  rcases hentries : between.act (.remove entriesFile) with
    ⟨fault | value, disk⟩
  · -- The entries cannot be removed, and the vote is gone.
    refine .inl ⟨fault, disk, rfl, rfl, ?_⟩
    have hread : readMemory disk = .ok (log.filed forgotten).memory.unvoted :=
      readMemory_of_no_vote hlog
        ((Disk.item?_of_unremoved _ hentries).trans hgone)
        ((Disk.item?_of_unremoved _ hentries).trans
          (Disk.item?_of_removed (by decide) hvote))
    cases forgotten <;> exact hread
  · exact .inr ⟨disk, rfl, rfl, readMemory_of_no_files
      ((Disk.item?_of_removed (by decide) hentries).trans hgone)
      (Disk.item?_of_remove hentries)⟩

end FileLog

/-! ### Calls -/

def Write.votes : Write → Bool
  | saveVote .. => true
  | _ => false

/-- A call that changes a log. -/
inductive Call where
  | write (change : Write)
  | clear

namespace Call

/-- The log after a call. -/
def on (log : FileLog) : Call → FileLog
  | write change => (change.on log).2
  | clear => log.clear.2

def Fits (memory : MemoryLog) : Call → Prop
  | write change => change.Fits memory
  | clear => True

/-- Whether the files are without the vote after a call.  A clear that fails
at the second file has taken it from them; it is back when a vote is stored,
and a clear that succeeds leaves none to be missed. -/
def forgets (log : FileLog) (forgotten : Bool) : Call → Bool
  | write change => forgotten && !(change.votes && (change.on log).1.isOk)
  | clear => !log.clear.1.isOk &&
      (forgotten || (log.disk.act (.remove FileLog.voteFile)).1.isOk)

end Call

namespace Write

/-- What a write does to the files does not depend on the vote in memory. -/
theorem actions_unvoted (memory : MemoryLog) (write : Write) :
    write.actions memory.unvoted = write.actions memory := by
  cases write <;> rfl

theorem apply_unvoted (memory : MemoryLog) (write : Write) :
    write.apply memory.unvoted =
      if write.votes then write.apply memory
      else (write.apply memory).unvoted := by
  cases write <;> rfl

theorem fits_unvoted {memory : MemoryLog} {write : Write}
    (hfits : write.Fits memory) : write.Fits memory.unvoted := by
  cases write <;> exact hfits

end Write

namespace FileLog

variable {log : FileLog} {forgotten : Bool}

theorem synced_write (hlog : (log.filed forgotten).Synced) {write : Write}
    (hfits : write.Fits log.memory) :
    ((write.on log).2.filed
      ((Call.write write).forgets log forgotten)).Synced := by
  cases forgotten with
  | false => exact Write.on_synced hlog hfits
  | true =>
      -- The write is made on a log whose memory has forgotten the vote, too.
      have hsynced : (write.on (log.filed true)).2.Synced :=
        Write.on_synced hlog (Write.fits_unvoted hfits)
      rw [Write.on_files] at hsynced
      rw [Call.forgets, Write.on_files]
      simp only [filed, ↓reduceIte, Write.actions_unvoted] at hsynced
      rcases hrun : log.disk.run (write.actions log.memory) with
        ⟨fault | value, disk⟩
      · rw [hrun] at hsynced
        simpa [filed, Except.isOk, Except.toBool] using hsynced
      · rw [hrun, Write.apply_unvoted] at hsynced
        have hok : (write.on log.memory).1.isOk = true := by cases write <;> rfl
        simp only [filed, hok]
        cases hvotes : write.votes <;> rw [hvotes] at hsynced <;> exact hsynced

theorem synced_clear (hlog : (log.filed forgotten).Synced) :
    (log.clear.2.filed (Call.clear.forgets log forgotten)).Synced := by
  rw [Call.forgets]
  obtain ⟨fault, disk, hvote, hclear, hread⟩ | ⟨between, hvote, hrest⟩ :=
    clear_cases hlog
  · rw [hclear, hvote]
    simpa [Synced, filed, Except.isOk, Except.toBool] using hread
  obtain ⟨fault, disk, -, hclear, hread⟩ | ⟨disk, -, hclear, hread⟩ := hrest
  · rw [hclear, hvote]
    simpa [Synced, filed, Except.isOk, Except.toBool] using hread
  · rw [hclear]
    exact hread

/-! ### Sequences of calls -/

/-- The log after calls, and whether its files are without the vote then. -/
def calls (log : FileLog) (forgotten : Bool) : List Call → FileLog × Bool
  | [] => (log, forgotten)
  | call :: later => (call.on log).calls (call.forgets log forgotten) later

/-- All numbers that calls store fit machine words. -/
def Receives (log : FileLog) : List Call → Prop
  | [] => True
  | call :: later => call.Fits log.memory ∧ (call.on log).Receives later

theorem synced_calls (hlog : (log.filed forgotten).Synced) {later : List Call}
    (hfits : log.Receives later) :
    ((log.calls forgotten later).1.filed
      (log.calls forgotten later).2).Synced := by
  induction later generalizing log forgotten with
  | nil => exact hlog
  | cons call later ih =>
      refine ih ?_ hfits.2
      cases call with
      | write change => exact synced_write hlog hfits.1
      | clear => exact synced_clear hlog

end FileLog

/-! ### What a clear leaves behind -/

/-- Opening the directory gives a log that holds this. -/
def Disk.Opens (disk : Disk) (memory : MemoryLog) : Prop :=
  ∃ log, FileLog.load disk = .ok log ∧ log.memory = memory

theorem Disk.opens_iff {disk : Disk} {memory held : MemoryLog}
    (hread : FileLog.readMemory disk = .ok held) :
    disk.Opens memory ↔ held = memory := by
  simp [Opens, FileLog.load_of_readMemory hread]

theorem MemoryLog.unvoted_eq_self_iff {memory : MemoryLog} :
    memory.unvoted = memory ↔ memory.term = 0 ∧ memory.votedFor = none := by
  obtain ⟨entries, term, votedFor⟩ := memory
  simp [unvoted, saveVote, eq_comm]

/-- What is promised of clearing a log whose files may be without the vote. -/
structure FileLog.Clears (log : FileLog) (forgotten : Bool) : Prop where
  /-- Before, the files say what memory holds, but for a forgotten vote. -/
  opens : log.disk.Opens (log.filed forgotten).memory
  /-- A clear that succeeds leaves nothing in memory or in the files. -/
  succeeds : log.clear.1 = .ok () →
    log.clear.2.memory = .empty ∧ log.clear.2.disk.Opens .empty
  /-- A clear fails as the vote cannot be removed, and changes nothing. -/
  refused : ∀ fault, (log.disk.act (.remove voteFile)).1 = .error fault →
    log.clear.1 = .error fault ∧ log.clear.2.memory = log.memory ∧
      log.clear.2.disk.Opens (log.filed forgotten).memory
  /-- Or it fails as the entries cannot be removed; then the vote is gone from
  the files and memory keeps it. -/
  halfway : ∀ fault unvoted,
    log.disk.act (.remove voteFile) = (.ok (), unvoted) →
    (unvoted.act (.remove entriesFile)).1 = .error fault →
    log.clear.1 = .error fault ∧ log.clear.2.memory = log.memory ∧
      log.clear.2.disk.Opens log.memory.unvoted
  /-- So after a clear that fails the files say what memory holds just if there
  is no vote to lose, or it is the vote that could not be removed and it was
  there. -/
  agrees_iff : ∀ fault, log.clear.1 = .error fault →
    (log.clear.2.disk.Opens log.clear.2.memory ↔
      (log.memory.term = 0 ∧ log.memory.votedFor = none) ∨
      forgotten = false ∧ (log.disk.act (.remove voteFile)).1 = .error fault)

namespace FileLog

variable {log : FileLog} {forgotten : Bool}

theorem clears_of_synced (hlog : (log.filed forgotten).Synced) :
    log.Clears forgotten := by
  have hbefore := (Disk.opens_iff hlog).2 rfl
  obtain ⟨own, disk, hvote, hclear, hread⟩ | ⟨between, hvote, hrest⟩ :=
    clear_cases hlog
  · refine ⟨hbefore, by simp [hclear], ?_, by simp [hvote], ?_⟩
    · intro fault hfault
      rw [hvote] at hfault
      rw [hclear]
      exact ⟨hfault, rfl, (Disk.opens_iff hread).2 rfl⟩
    · intro fault hfault
      rw [hclear] at hfault ⊢
      rw [hvote, Disk.opens_iff hread, ← MemoryLog.unvoted_eq_self_iff]
      cases forgotten with
      | false => exact iff_of_true rfl (.inr ⟨rfl, hfault⟩)
      | true => simp [filed]
  obtain ⟨own, disk, hentries, hclear, hread⟩ |
    ⟨disk, hentries, hclear, hread⟩ := hrest
  · refine ⟨hbefore, by simp [hclear], by simp [hvote], ?_, ?_⟩
    · intro fault other hother hfault
      obtain rfl := (Prod.mk.inj (hvote.symm.trans hother)).2
      rw [hentries] at hfault
      rw [hclear]
      exact ⟨hfault, rfl, (Disk.opens_iff hread).2 rfl⟩
    · intro fault hfault
      rw [hclear, hvote, Disk.opens_iff hread, MemoryLog.unvoted_eq_self_iff]
      simp
  · refine ⟨hbefore, fun _ => ?_, by simp [hvote], ?_, by simp [hclear]⟩
    · rw [hclear]
      exact ⟨rfl, (Disk.opens_iff hread).2 rfl⟩
    · intro fault other hother hfault
      obtain rfl := (Prod.mk.inj (hvote.symm.trans hother)).2
      simp [hentries] at hfault

/-- A clear of a log keeps the entries in memory and in the files alike, or
removes them from both.  Of the vote this holds as long as no clear fails at
the entries; after such a one the files are without the vote that memory
holds, until a vote is stored. -/
theorem clear_partial {disk : Disk} (hload : FileLog.load disk = .ok log)
    {later : List Call} (hfits : log.Receives later) :
    (log.calls false later).1.Clears (log.calls false later).2 :=
  clears_of_synced (synced_calls (synced_of_load hload) hfits)

end FileLog

namespace Witness

/-- A device that refuses the sixth operation on its files. -/
def stubborn : Disk := ⟨none, [none, none, none, none, none, some []]⟩

/-- The log that is opened there. -/
def stubbornLog : FileLog := ⟨stubborn.make, .empty⟩

/-- A vote that is stored, and after it the sixth operation is the removal of
the entries. -/
def voting : List Call := [.write (.saveVote 7 (some 3))]

theorem load_stubborn : FileLog.load stubborn = .ok stubbornLog := rfl

theorem receives_voting : stubbornLog.Receives voting := by
  refine ⟨?_, trivial⟩
  simp only [Call.Fits, Write.Fits, VoteInWords, IsWord]
  decide

theorem clear_partial_halfway :
    FileLog.load stubborn = .ok stubbornLog ∧ stubbornLog.Receives voting ∧
      (stubbornLog.calls false voting).1.Clears
        (stubbornLog.calls false voting).2 ∧
      (stubbornLog.calls false voting).1.clear.1 = .error .system :=
  ⟨load_stubborn, receives_voting,
    FileLog.clear_partial load_stubborn receives_voting, rfl⟩

/-- A log in which a vote has been stored and nothing else. -/
def voted : FileLog :=
  ((Write.saveVote 7 (some 3)).on (⟨Disk.blank.make, .empty⟩ : FileLog)).2

/-- A folder stands in the place of the file of the entries, which is missing. -/
def blocked : FileLog :=
  { voted with disk := voted.disk.block FileLog.entriesFile }

/-- What the files say once the folder is away. -/
def unblockedMemory (log : FileLog) : Except LogFault MemoryLog :=
  FileLog.readMemory (log.disk.unblock FileLog.entriesFile)

theorem synced_voted : voted.Synced := by
  have hfits : (Write.saveVote 7 (some 3)).Fits .empty := by
    simp only [Write.Fits, VoteInWords, IsWord]
    decide
  have hload : FileLog.load .blank = .ok ⟨Disk.blank.make, .empty⟩ := rfl
  exact Write.on_synced (FileLog.synced_of_load hload) hfits

/-- A clear fails at the entries, be it that the device refuses it or that a
folder is in the way.  Memory keeps the vote, and the files have lost it. -/
theorem clear_forgets :
    (FileLog.readMemory (stubbornLog.calls false voting).1.disk =
        .ok ⟨[], 7, some 3⟩ ∧
      (stubbornLog.calls false voting).1.clear.1 = .error .system ∧
      (stubbornLog.calls false voting).1.clear.2.memory = ⟨[], 7, some 3⟩ ∧
      FileLog.readMemory (stubbornLog.calls false voting).1.clear.2.disk =
        .ok .empty) ∧
    unblockedMemory blocked = .ok ⟨[], 7, some 3⟩ ∧
      blocked.clear.1 = .error .system ∧
      blocked.clear.2.memory = ⟨[], 7, some 3⟩ ∧
      unblockedMemory blocked.clear.2 = .ok .empty := by
  have hstart : (stubbornLog.filed false).Synced :=
    FileLog.synced_of_load load_stubborn
  have hsynced := FileLog.synced_calls hstart receives_voting
  have hunblocked : unblockedMemory blocked = FileLog.readMemory voted.disk :=
    FileLog.readMemory_congr rfl rfl
  exact ⟨⟨hsynced, rfl, rfl, FileLog.synced_clear hsynced⟩,
    hunblocked.trans synced_voted, rfl, rfl,
    FileLog.readMemory_of_no_files rfl rfl⟩

end Witness

end SessionRaft
