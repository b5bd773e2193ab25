/-
The contract of a log.  Whatever it is kept in, a log says what a log in
memory would say, and a write that fails changes nothing of what it says.
Logs in memory and logs in files keep the contract, and so do both when their
writes are made to fail.
-/
import Mathlib.Logic.Relation
import SessionRaft.Storage.Store

namespace SessionRaft

/-- What a computation that succeeds goes through. -/
theorem exists_of_bind {ε α β : Type} {first : Except ε α}
    {rest : α → Except ε β} {result : β}
    (hbind : first >>= rest = .ok result) :
    ∃ value, first = .ok value ∧ rest value = .ok result := by
  cases first with
  | error fault => simp [bind, Except.bind] at hbind
  | ok value => exact ⟨value, rfl, hbind⟩

/-- Every entry carries the number of its place, counted from 1. -/
def Numbered (entries : List LogEntry) : Prop :=
  ∀ place entry, entries[place]? = some entry → entry.index = place + 1

theorem numbered_iff {entries : List LogEntry} :
    Numbered entries ↔
      entries.map (·.index) = List.range' 1 entries.length := by
  rw [List.ext_getElem?_iff]
  simp only [List.getElem?_map, Numbered]
  refine forall_congr' (fun place => ?_)
  cases hentry : entries[place]? with
  | none =>
      have hle := List.getElem?_eq_none_iff.mp hentry
      simp [hle]
  | some entry =>
      obtain ⟨hlt, -⟩ := List.getElem?_eq_some_iff.mp hentry
      simp [hlt, Nat.add_comm]

instance : DecidablePred Numbered :=
  fun _ => decidable_of_iff _ numbered_iff.symm

/-- A write either takes effect and tells a value, or it fails and leaves what
was there. -/
inductive Written {α : Type} (before after : MemoryLog) (value : α) :
    Except LogFault α → MemoryLog → Prop where
  | done : Written before after value (.ok value) after
  | failed (fault : LogFault) : Written before after value (.error fault) before

/-- A log that keeps the contract in all its sound states. -/
class FaithfulLog (L : Type) [LogStore L] where
  /-- What the log says. -/
  memory : L → MemoryLog
  /-- The states in which the log keeps its contract. -/
  Sound : L → Prop
  numbered {log : L} : Sound log → Numbered (memory log).entries
  get?_eq {log : L} : Sound log →
    ∀ index, LogStore.get? log index = (memory log).get? index
  lastIndex_eq {log : L} : Sound log →
    LogStore.lastIndex log = (memory log).lastIndex
  lastTerm_eq {log : L} : Sound log →
    LogStore.lastTerm log = (memory log).lastTerm
  loadVote_eq {log : L} : Sound log →
    LogStore.loadVote log = .ok ((memory log).term, (memory log).votedFor)
  append_sound {log : L} : Sound log →
    ∀ term operation, Sound (LogStore.append log term operation).2
  append_written {log : L} : Sound log → ∀ term operation,
    Written (memory log) ((memory log).append term operation)
      ((memory log).lastIndex + 1) (LogStore.append log term operation).1
      (memory (LogStore.append log term operation).2)
  truncateAfter_sound {log : L} : Sound log →
    ∀ index, Sound (LogStore.truncateAfter log index).2
  truncateAfter_written {log : L} : Sound log → ∀ index,
    Written (memory log) ((memory log).truncateAfter index) ()
      (LogStore.truncateAfter log index).1
      (memory (LogStore.truncateAfter log index).2)
  saveVote_sound {log : L} : Sound log →
    ∀ term votedFor, Sound (LogStore.saveVote log term votedFor).2
  saveVote_written {log : L} : Sound log → ∀ term votedFor,
    Written (memory log) ((memory log).saveVote term votedFor) ()
      (LogStore.saveVote log term votedFor).1
      (memory (LogStore.saveVote log term votedFor).2)

/-- What a write makes of a log, whether or not the write takes effect. -/
inductive Wrote {L : Type} [LogStore L] (log : L) : L → Prop where
  | append (term : Nat) (operation : Operation) :
      Wrote log (LogStore.append log term operation).2
  | truncateAfter (index : Nat) :
      Wrote log (LogStore.truncateAfter log index).2
  | saveVote (term : Nat) (votedFor : Option NodeId) :
      Wrote log (LogStore.saveVote log term votedFor).2

/-- A log that stores every vote, whatever else is written to it. -/
def StoresVotes {L : Type} [LogStore L] (log : L) : Prop :=
  ∀ later, Relation.ReflTransGen Wrote log later → ∀ term votedFor,
    (LogStore.saveVote later term votedFor).1.isOk = true

/-- A log that keeps its contract and, where `steady` holds, stores every
vote. -/
structure Fit {L : Type} [LogStore L] [FaithfulLog L] (steady : Prop)
    (log : L) : Prop where
  sound : FaithfulLog.Sound log
  stores : steady → StoresVotes log

theorem StoresVotes.wrote {L : Type} [LogStore L] {log after : L}
    (hstores : StoresVotes log) (hwrote : Wrote log after) :
    StoresVotes after :=
  fun later hlater => hstores later (.head hwrote hlater)

theorem Fit.of_sound {L : Type} [LogStore L] [FaithfulLog L] {log : L}
    (hlog : FaithfulLog.Sound log) : Fit False log :=
  ⟨hlog, fun hsteady => hsteady.elim⟩

namespace Fit

variable {L : Type} [LogStore L] [FaithfulLog L] {steady : Prop} {log : L}

theorem append (hlog : Fit steady log) (term : Nat) (operation : Operation) :
    Fit steady (LogStore.append log term operation).2 :=
  ⟨FaithfulLog.append_sound hlog.sound term operation,
    fun hsteady => (hlog.stores hsteady).wrote (.append term operation)⟩

theorem truncateAfter (hlog : Fit steady log) (index : Nat) :
    Fit steady (LogStore.truncateAfter log index).2 :=
  ⟨FaithfulLog.truncateAfter_sound hlog.sound index,
    fun hsteady => (hlog.stores hsteady).wrote (.truncateAfter index)⟩

theorem saveVote (hlog : Fit steady log) (term : Nat)
    (votedFor : Option NodeId) :
    Fit steady (LogStore.saveVote log term votedFor).2 :=
  ⟨FaithfulLog.saveVote_sound hlog.sound term votedFor,
    fun hsteady => (hlog.stores hsteady).wrote (.saveVote term votedFor)⟩

/-- Failing to store a vote shows that votes are not always stored. -/
theorem not_steady (hlog : Fit steady log) {after : L} {term : Nat}
    {votedFor : Option NodeId} {fault : LogFault}
    (hsave : LogStore.saveVote log term votedFor = (.error fault, after)) :
    ¬steady := by
  intro hsteady
  have hok := hlog.stores hsteady log .refl term votedFor
  rw [hsave] at hok
  exact Bool.false_ne_true hok

end Fit

theorem Written.map {α β : Type} {before after result : MemoryLog} {value : α}
    {outcome : Except LogFault α} (f : α → β)
    (hwritten : Written before after value outcome result) :
    Written before after (f value) (outcome.map f) result := by
  cases hwritten with
  | done => exact .done
  | failed fault => exact .failed fault

theorem numbered_nil : Numbered [] := by
  intro place entry hentry
  simp at hentry

theorem MemoryLog.numbered_append {log : MemoryLog}
    (hlog : Numbered log.entries) (term : Nat) (operation : Operation) :
    Numbered (log.append term operation).entries := by
  intro place entry hentry
  simp only [MemoryLog.append] at hentry
  rw [List.getElem?_append] at hentry
  split at hentry
  · exact hlog place entry hentry
  · rename_i hplace
    rw [List.getElem?_singleton] at hentry
    split at hentry
    · simp only [Option.some.injEq] at hentry
      subst hentry
      simp only [nextEntry, lastIndex]
      omega
    · simp at hentry

theorem MemoryLog.numbered_truncateAfter {log : MemoryLog}
    (hlog : Numbered log.entries) (index : Nat) :
    Numbered (log.truncateAfter index).entries := by
  intro place entry hentry
  simp only [MemoryLog.truncateAfter, List.getElem?_take] at hentry
  split at hentry
  · exact hlog place entry hentry
  · simp at hentry

instance : FaithfulLog MemoryLog where
  memory log := log
  Sound log := Numbered log.entries
  numbered hlog := hlog
  get?_eq _ _ := rfl
  lastIndex_eq _ := rfl
  lastTerm_eq _ := rfl
  loadVote_eq _ := rfl
  append_sound hlog := MemoryLog.numbered_append hlog
  append_written _ _ _ := .done
  truncateAfter_sound hlog := MemoryLog.numbered_truncateAfter hlog
  truncateAfter_written _ _ := .done
  saveVote_sound hlog _ _ := hlog
  saveVote_written _ _ _ := .done

theorem MemoryLog.storesVotes (log : MemoryLog) : StoresVotes log :=
  fun _ _ _ _ => rfl

namespace FileLog

/-- Replacing a document changes what memory holds, or nothing. -/
theorem replace_written (log : FileLog) (name : String) (document : Json)
    (memory : MemoryLog) :
    Written log.memory memory () (log.replace name document memory).1
      (log.replace name document memory).2.memory := by
  unfold replace
  split
  · exact .done
  · exact .failed _

theorem append_written (log : FileLog) (term : Nat) (operation : Operation) :
    Written log.memory (log.memory.append term operation)
      (log.memory.lastIndex + 1) (log.append term operation).1
      (log.append term operation).2.memory :=
  (log.replace_written entriesFile
    (Document.ofEntries (log.memory.append term operation).entries)
    (log.memory.append term operation)).map (fun _ => log.memory.lastIndex + 1)

theorem truncateAfter_written (log : FileLog) (index : Nat) :
    Written log.memory (log.memory.truncateAfter index) ()
      (log.truncateAfter index).1 (log.truncateAfter index).2.memory := by
  unfold truncateAfter
  split
  · rename_i hle
    rw [MemoryLog.truncateAfter_of_le hle]
    exact .done
  · exact log.replace_written _ _ _

/-- What a write leaves is numbered if both of its possible results are. -/
theorem numbered_of_written {α : Type} {before after result : MemoryLog}
    {value : α} {outcome : Except LogFault α}
    (hwritten : Written before after value outcome result)
    (hbefore : Numbered before.entries) (hafter : Numbered after.entries) :
    Numbered result.entries := by
  cases hwritten with
  | done => exact hafter
  | failed => exact hbefore

end FileLog

instance : FaithfulLog FileLog where
  memory log := log.memory
  Sound log := Numbered log.memory.entries
  numbered hlog := hlog
  get?_eq _ _ := rfl
  lastIndex_eq _ := rfl
  lastTerm_eq _ := rfl
  loadVote_eq _ := rfl
  append_sound {log} hlog term operation :=
    FileLog.numbered_of_written (log.append_written term operation) hlog
      (MemoryLog.numbered_append hlog term operation)
  append_written {log} _ := log.append_written
  truncateAfter_sound {log} hlog index :=
    FileLog.numbered_of_written (log.truncateAfter_written index) hlog
      (MemoryLog.numbered_truncateAfter hlog index)
  truncateAfter_written {log} _ := log.truncateAfter_written
  saveVote_sound {log} hlog _ _ :=
    FileLog.numbered_of_written (log.replace_written _ _ _) hlog hlog
  saveVote_written {log} _ _ _ := log.replace_written _ _ _

namespace EitherLog

/-- What a log of either kind says. -/
def said : EitherLog → MemoryLog
  | memory log => log
  | files log => log.memory

end EitherLog

instance : FaithfulLog EitherLog where
  memory := EitherLog.said
  Sound log := Numbered log.said.entries
  numbered hlog := hlog
  get?_eq {log} _ _ := by cases log <;> rfl
  lastIndex_eq {log} _ := by cases log <;> rfl
  lastTerm_eq {log} _ := by cases log <;> rfl
  loadVote_eq {log} _ := by cases log <;> rfl
  append_sound {log} hlog := by
    cases log with
    | memory log => exact MemoryLog.numbered_append hlog
    | files log => exact FaithfulLog.append_sound (L := FileLog) hlog
  append_written {log} hlog := by
    cases log with
    | memory log => exact FaithfulLog.append_written (L := MemoryLog) hlog
    | files log => exact log.append_written
  truncateAfter_sound {log} hlog := by
    cases log with
    | memory log => exact MemoryLog.numbered_truncateAfter hlog
    | files log => exact FaithfulLog.truncateAfter_sound (L := FileLog) hlog
  truncateAfter_written {log} hlog := by
    cases log with
    | memory log => exact FaithfulLog.truncateAfter_written (L := MemoryLog) hlog
    | files log => exact log.truncateAfter_written
  saveVote_sound {log} hlog := by
    cases log with
    | memory log => exact fun _ _ => hlog
    | files log => exact FaithfulLog.saveVote_sound (L := FileLog) hlog
  saveVote_written {log} hlog := by
    cases log with
    | memory log => exact FaithfulLog.saveVote_written (L := MemoryLog) hlog
    | files log => exact FaithfulLog.saveVote_written (L := FileLog) hlog

namespace Faulty

variable {L : Type} [LogStore L] [FaithfulLog L]

/-- The faults under which a log still keeps its contract: writes may fail, but
nothing that is told is wrong. -/
def Sound (log : Faulty L) : Prop :=
  log.faults.load = false ∧ log.faults.skew = false ∧
    log.faults.hide = none ∧ FaithfulLog.Sound log.inner

theorem append_sound {log : Faulty L} (hlog : log.Sound) (term : Nat)
    (operation : Operation) : (log.append term operation).2.Sound := by
  obtain ⟨hload, hskew, hhide, hinner⟩ := hlog
  unfold append
  split
  · exact ⟨hload, hskew, hhide, hinner⟩
  · exact ⟨hload, hskew, hhide, FaithfulLog.append_sound hinner term operation⟩

theorem append_written {log : Faulty L} (hlog : log.Sound) (term : Nat)
    (operation : Operation) :
    Written (FaithfulLog.memory log.inner)
      ((FaithfulLog.memory log.inner).append term operation)
      ((FaithfulLog.memory log.inner).lastIndex + 1)
      (log.append term operation).1
      (FaithfulLog.memory (log.append term operation).2.inner) := by
  obtain ⟨-, hskew, -, hinner⟩ := hlog
  have hwritten := FaithfulLog.append_written hinner term operation
  unfold append
  split
  · exact .failed _
  · simpa only [hskew, Bool.false_eq_true, ↓reduceIte] using
      hwritten.map (fun index => index)

theorem truncateAfter_sound {log : Faulty L} (hlog : log.Sound) (index : Nat) :
    (log.truncateAfter index).2.Sound := by
  obtain ⟨hload, hskew, hhide, hinner⟩ := hlog
  unfold truncateAfter
  split
  · exact ⟨hload, hskew, hhide, hinner⟩
  · exact ⟨hload, hskew, hhide, FaithfulLog.truncateAfter_sound hinner index⟩

theorem truncateAfter_written {log : Faulty L} (hlog : log.Sound)
    (index : Nat) :
    Written (FaithfulLog.memory log.inner)
      ((FaithfulLog.memory log.inner).truncateAfter index) ()
      (log.truncateAfter index).1
      (FaithfulLog.memory (log.truncateAfter index).2.inner) := by
  unfold truncateAfter
  split
  · exact .failed _
  · exact FaithfulLog.truncateAfter_written hlog.2.2.2 index

theorem saveVote_sound {log : Faulty L} (hlog : log.Sound) (term : Nat)
    (votedFor : Option NodeId) : (log.saveVote term votedFor).2.Sound := by
  obtain ⟨hload, hskew, hhide, hinner⟩ := hlog
  unfold saveVote
  split
  · exact ⟨hload, hskew, hhide, hinner⟩
  · exact ⟨hload, hskew, hhide, FaithfulLog.saveVote_sound hinner term votedFor⟩

theorem saveVote_written {log : Faulty L} (hlog : log.Sound) (term : Nat)
    (votedFor : Option NodeId) :
    Written (FaithfulLog.memory log.inner)
      ((FaithfulLog.memory log.inner).saveVote term votedFor) ()
      (log.saveVote term votedFor).1
      (FaithfulLog.memory (log.saveVote term votedFor).2.inner) := by
  unfold saveVote
  split
  · exact .failed _
  · exact FaithfulLog.saveVote_written hlog.2.2.2 term votedFor

instance : FaithfulLog (Faulty L) where
  memory log := FaithfulLog.memory log.inner
  Sound := Sound
  numbered hlog := FaithfulLog.numbered hlog.2.2.2
  get?_eq {log} hlog index := by
    obtain ⟨-, -, hhide, hinner⟩ := hlog
    rw [← FaithfulLog.get?_eq hinner index]
    simp [LogStore.get?, hhide]
  lastIndex_eq hlog := FaithfulLog.lastIndex_eq hlog.2.2.2
  lastTerm_eq hlog := FaithfulLog.lastTerm_eq hlog.2.2.2
  loadVote_eq {log} hlog := by
    obtain ⟨hload, -, -, hinner⟩ := hlog
    rw [← FaithfulLog.loadVote_eq hinner]
    simp [LogStore.loadVote, hload]
  append_sound := append_sound
  append_written := append_written
  truncateAfter_sound := truncateAfter_sound
  truncateAfter_written := truncateAfter_written
  saveVote_sound := saveVote_sound
  saveVote_written := saveVote_written

end Faulty

end SessionRaft
