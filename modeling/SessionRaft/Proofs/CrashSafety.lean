/-
A log in files against a log in memory.  Any operation on a file may fail, and
the process may stop between any two of them and open the log again.  Still
the log in files goes through the same states as a log in memory on which just
those writes are made that took effect.
-/
import SessionRaft.Proofs.StoredLogs

namespace SessionRaft

/-! ### Writes -/

/-- A write to a log. -/
inductive Write where
  | append (term : Nat) (operation : Operation)
  | truncateAfter (index : Nat)
  | saveVote (term : Nat) (votedFor : Option NodeId)

namespace Write

/-- Make a write; an entry that is added has its index told. -/
def on {L : Type} [LogStore L] (log : L) :
    Write → Except LogFault (Option Nat) × L
  | append term operation =>
      let (outcome, log) := LogStore.append log term operation
      (outcome.map some, log)
  | truncateAfter index =>
      let (outcome, log) := LogStore.truncateAfter log index
      (outcome.map (fun _ => none), log)
  | saveVote term votedFor =>
      let (outcome, log) := LogStore.saveVote log term votedFor
      (outcome.map (fun _ => none), log)

/-- What a write makes of a log in memory. -/
def apply (memory : MemoryLog) (write : Write) : MemoryLog :=
  (write.on memory).2

def Fits (memory : MemoryLog) : Write → Prop
  | append term operation => (memory.nextEntry term operation).InWords
  | truncateAfter _ => True
  | saveVote term votedFor => VoteInWords term votedFor

def replacingEntries (memory : MemoryLog) : List FileAction :=
  Disk.replacement FileLog.entriesFile
    (Document.encode (Document.ofEntries memory.entries))

/-- The operations on files that a write consists of. -/
def actions (memory : MemoryLog) : Write → List FileAction
  | append term operation => replacingEntries (memory.append term operation)
  | truncateAfter index =>
      if memory.lastIndex ≤ index then []
      else replacingEntries (memory.truncateAfter index)
  | saveVote term votedFor =>
      Disk.replacement FileLog.voteFile
        (Document.encode (Document.ofVote term votedFor))

/-- All that a write to a log in files can do: its operations on files succeed
and it does what it does in memory, or one of them fails and so does it. -/
theorem on_files (log : FileLog) (write : Write) :
    write.on log =
      match log.disk.run (write.actions log.memory) with
      | (.ok (), disk) =>
          ((write.on log.memory).1, ⟨disk, write.apply log.memory⟩)
      | (.error fault, disk) => (.error fault, ⟨disk, log.memory⟩) := by
  cases write with
  | append term operation =>
      simp only [on, LogStore.append, FileLog.append, FileLog.replaceEntries,
        FileLog.replace, actions, replacingEntries, apply]
      rcases log.disk.run _ with ⟨fault | value, disk⟩ <;> rfl
  | truncateAfter index =>
      simp only [on, LogStore.truncateAfter, FileLog.truncateAfter, actions,
        apply]
      split
      · rename_i hindex
        rw [MemoryLog.truncateAfter_of_le hindex]
        rfl
      · simp only [FileLog.replaceEntries, FileLog.replace, replacingEntries]
        rcases log.disk.run _ with ⟨fault | value, disk⟩ <;> rfl
  | saveVote term votedFor =>
      simp only [on, LogStore.saveVote, FileLog.saveVote, FileLog.replace,
        actions, apply]
      rcases log.disk.run _ with ⟨fault | value, disk⟩ <;> rfl

/-- Make so many of the operations on files that a write consists of, and tell
whether that completes it.  With all of them it is the write itself. -/
def attempt (log : FileLog) (write : Write) (steps : Nat) : Bool × Disk :=
  log.disk.attempt (write.actions log.memory) steps

theorem on_attempt (log : FileLog) (write : Write) :
    (write.on log).1.isOk =
        (write.attempt log (write.actions log.memory).length).1 ∧
      (write.on log).2.disk =
        (write.attempt log (write.actions log.memory).length).2 ∧
      (write.on log).2.memory =
        if (write.on log).1.isOk = true then write.apply log.memory
        else log.memory := by
  rw [attempt, Disk.attempt_of_le (Nat.le_refl _), on_files]
  rcases log.disk.run (write.actions log.memory) with ⟨fault | value, disk⟩
  · exact ⟨rfl, rfl, rfl⟩
  · cases write <;> exact ⟨rfl, rfl, rfl⟩

/-- Wherever a write stops, its files say what they said before, or what they
are to say after it if it was completed. -/
theorem readMemory_attempt {log : FileLog} (hlog : log.Synced) {write : Write}
    (hfits : write.Fits log.memory) (steps : Nat) :
    FileLog.readMemory (write.attempt log steps).2 =
      .ok (if (write.attempt log steps).1 = true then write.apply log.memory
        else log.memory) := by
  have hnumbered := FileLog.numbered_of_readMemory hlog
  have hwords := (FileLog.inWords_of_readMemory hlog).2
  cases write with
  | append term operation =>
      refine FileLog.readMemory_replaceEntries hlog
        (MemoryLog.numbered_append hnumbered term operation) ?_ steps
      intro entry hentry
      rcases List.mem_append.mp hentry with hentry | hentry
      · exact hwords entry hentry
      · exact List.mem_singleton.mp hentry ▸ hfits
  | truncateAfter index =>
      by_cases hindex : log.memory.lastIndex ≤ index
      · -- There is nothing to drop, so nothing is written.
        have hsame : apply log.memory (.truncateAfter index) = log.memory :=
          MemoryLog.truncateAfter_of_le hindex
        rw [hsame, ite_self]
        simp only [attempt, actions, if_pos hindex, Disk.attempt,
          List.take_nil, Disk.run]
        exact hlog
      · simp only [attempt, actions, if_neg hindex]
        exact FileLog.readMemory_replaceEntries hlog
          (MemoryLog.numbered_truncateAfter hnumbered index)
          (fun entry hentry => hwords entry (List.mem_of_mem_take hentry)) steps
  | saveVote term votedFor =>
      exact FileLog.readMemory_replaceVote hlog hfits steps

theorem on_of_ok {log : FileLog} {write : Write} {told : Option Nat}
    (htold : (write.on log).1 = .ok told) :
    (write.on log.memory).1 = .ok told ∧
      (write.on log).2.memory = (write.on log.memory).2 := by
  rw [on_files] at htold ⊢
  rcases hrun : log.disk.run (write.actions log.memory) with
    ⟨fault | value, disk⟩
  · simp [hrun] at htold
  · rw [hrun] at htold
    exact ⟨htold, rfl⟩

theorem run_of_error {log : FileLog} {write : Write} {fault : LogFault}
    (hfault : (write.on log).1 = .error fault) :
    (log.disk.run (write.actions log.memory)).1 = .error fault := by
  rw [on_files] at hfault
  rcases hrun : log.disk.run (write.actions log.memory) with
    ⟨own | value, disk⟩
  · rw [hrun] at hfault
    rw [Except.error.inj hfault]
  · cases write <;> simp [hrun, on, LogStore.append, LogStore.truncateAfter,
      LogStore.saveVote, Except.map] at hfault

theorem on_synced {log : FileLog} (hlog : log.Synced) {write : Write}
    (hfits : write.Fits log.memory) : (write.on log).2.Synced := by
  obtain ⟨hok, hdisk, hmemory⟩ := write.on_attempt log
  rw [FileLog.Synced, hdisk, hmemory, hok]
  exact readMemory_attempt hlog hfits _

end Write

/-! ### Histories -/

/-- What befalls a log in files. -/
inductive Episode where
  | call (write : Write)
  /-- The process stops during a write, after so many of its operations on
  files at the most, and opens the log again. -/
  | stop (write : Write) (steps : Nat)
  | reopen

namespace Episode

def Fits (memory : MemoryLog) : Episode → Prop
  | call write | stop write _ => write.Fits memory
  | reopen => True

def after (log : FileLog) : Episode → Except LogFault FileLog
  | call write => .ok (write.on log).2
  | stop write steps => FileLog.load (write.attempt log steps).2
  | reopen => FileLog.load log.disk

/-- The write that took effect, if any did. -/
def effect (log : FileLog) : Episode → List Write
  | call write => if (write.on log).1.isOk then [write] else []
  | stop write steps => if (write.attempt log steps).1 then [write] else []
  | reopen => []

/-- After any episode there is a log, its files and its memory agree, and it
has undergone the writes that took effect. -/
theorem after_synced {log : FileLog} (hlog : log.Synced) {episode : Episode}
    (hfits : episode.Fits log.memory) :
    ∃ next, episode.after log = .ok next ∧ next.Synced ∧
      next.memory = (episode.effect log).foldl Write.apply log.memory := by
  cases episode with
  | call write =>
      refine ⟨_, rfl, Write.on_synced hlog hfits, ?_⟩
      rw [(write.on_attempt log).2.2, effect]
      split <;> rfl
  | stop write steps =>
      have hread := Write.readMemory_attempt hlog hfits steps
      refine ⟨_, FileLog.load_of_readMemory hread, ?_, ?_⟩
      · exact FileLog.synced_of_load (FileLog.load_of_readMemory hread)
      · rw [effect]
        split <;> rfl
  | reopen =>
      exact ⟨_, FileLog.load_of_readMemory hlog,
        FileLog.synced_of_load (FileLog.load_of_readMemory hlog), rfl⟩

end Episode

/-- The log after a history, and the writes that took effect in it. -/
def FileLog.undergo (log : FileLog) :
    List Episode → Except LogFault (FileLog × List Write)
  | [] => .ok (log, [])
  | episode :: episodes => do
      let next ← episode.after log
      let (last, writes) ← next.undergo episodes
      return (last, episode.effect log ++ writes)

def FileLog.Fitting (log : FileLog) : List Episode → Prop
  | [] => True
  | episode :: episodes => episode.Fits log.memory ∧
      ∀ next, episode.after log = .ok next → next.Fitting episodes

theorem FileLog.undergo_synced {log : FileLog} (hlog : log.Synced)
    {episodes : List Episode} (hfits : log.Fitting episodes) :
    ∃ last writes, log.undergo episodes = .ok (last, writes) ∧ last.Synced ∧
      last.memory = writes.foldl Write.apply log.memory := by
  induction episodes generalizing log with
  | nil => exact ⟨log, [], rfl, hlog, rfl⟩
  | cons episode episodes ih =>
      obtain ⟨hfirst, hrest⟩ := hfits
      obtain ⟨next, hnext, hsynced, hmemory⟩ :=
        Episode.after_synced hlog hfirst
      obtain ⟨last, writes, hlast, hdone, hwrites⟩ :=
        ih hsynced (hrest next hnext)
      refine ⟨last, episode.effect log ++ writes, ?_, hdone, ?_⟩
      · simp only [undergo, hnext, hlast, bind, Except.bind, pure, Except.pure]
      · rw [hwrites, hmemory, List.foldl_append]

/-! #### When the indices fit -/

def Write.InWords : Write → Prop
  | append term operation => IsWord term ∧ operation.InWords
  | truncateAfter _ => True
  | saveVote term votedFor => VoteInWords term votedFor

def Episode.InWords : Episode → Prop
  | call write | stop write _ => write.InWords
  | reopen => True

theorem Write.lastIndex_apply_le (memory : MemoryLog) (write : Write) :
    (write.apply memory).lastIndex ≤ memory.lastIndex + 1 := by
  cases write with
  | append term operation =>
      exact Nat.le_of_eq (memory.lastIndex_append term operation)
  | truncateAfter index =>
      have hlast := memory.lastIndex_truncateAfter index
      change (memory.truncateAfter index).lastIndex ≤ _
      omega
  | saveVote term votedFor => exact Nat.le_succ _

theorem Episode.lastIndex_effect_le (log : FileLog) (episode : Episode)
    (memory : MemoryLog) :
    ((episode.effect log).foldl Write.apply memory).lastIndex ≤
      memory.lastIndex + 1 := by
  cases episode with
  | call write | stop write steps =>
      rw [effect]
      split
      · exact write.lastIndex_apply_le memory
      · exact Nat.le_succ _
  | reopen => exact Nat.le_succ _

theorem Episode.fits_of_room {memory : MemoryLog} {episode : Episode}
    (hwords : episode.InWords) (hroom : IsWord (memory.lastIndex + 1)) :
    episode.Fits memory := by
  cases episode with
  | call write | stop write steps =>
      cases write with
      | append term operation => exact ⟨hwords.1, hroom, hwords.2⟩
      | truncateAfter index => trivial
      | saveVote term votedFor => exact hwords
  | reopen => trivial

/-- A history fits as long as there are words left for its indices. -/
theorem FileLog.fitting_of_room {log : FileLog} (hlog : log.Synced)
    {episodes : List Episode}
    (hwords : ∀ episode ∈ episodes, episode.InWords)
    (hroom : IsWord (log.memory.lastIndex + episodes.length)) :
    log.Fitting episodes := by
  induction episodes generalizing log with
  | nil => trivial
  | cons episode episodes ih =>
      rw [List.forall_mem_cons] at hwords
      rw [List.length_cons] at hroom
      have hfits : episode.Fits log.memory :=
        Episode.fits_of_room hwords.1 (by unfold IsWord at hroom ⊢; omega)
      refine ⟨hfits, fun next hnext => ?_⟩
      obtain ⟨same, hsame, hsynced, hmemory⟩ :=
        Episode.after_synced hlog hfits
      obtain rfl := Except.ok.inj (hnext.symm.trans hsame)
      refine ih hsynced hwords.2 ?_
      have hlast := episode.lastIndex_effect_le log log.memory
      rw [← hmemory] at hlast
      unfold IsWord at hroom ⊢
      omega

/-! ### The comparison with a log in memory -/

/-- Two logs that answer every question alike. -/
structure SameAnswers {L M : Type} [LogStore L] [LogStore M] (log : L)
    (other : M) : Prop where
  get? : ∀ index, LogStore.get? log index = LogStore.get? other index
  termAt : ∀ index, LogStore.termAt log index = LogStore.termAt other index
  entriesFrom : ∀ start limit, LogStore.entriesFrom log start limit =
    LogStore.entriesFrom other start limit
  lastIndex : LogStore.lastIndex log = LogStore.lastIndex other
  lastTerm : LogStore.lastTerm log = LogStore.lastTerm other
  loadVote : LogStore.loadVote log = LogStore.loadVote other

theorem FileLog.sameAnswers (log : FileLog) : SameAnswers log log.memory := by
  have hcollect : ∀ count index, LogStore.collect log count index =
      LogStore.collect log.memory count index := by
    intro count
    induction count with
    | zero => exact fun _ => rfl
    | succ count ih =>
        intro index
        simp only [LogStore.collect, ih]
        rfl
  exact ⟨fun _ => rfl, fun _ => rfl, fun _ _ => hcollect _ _, rfl, rfl, rfl⟩

/-- A log in files that stands where a log in memory does: its memory and its
answers are the same, and so are those after it is opened again. -/
structure FileLog.Mirrors (log : FileLog) (reference : MemoryLog) : Prop where
  memory : log.memory = reference
  answers : SameAnswers log reference
  reopens : ∃ reopened, FileLog.load log.disk = .ok reopened ∧
    reopened.memory = reference ∧ SameAnswers reopened reference

theorem FileLog.Synced.mirrors {log : FileLog} (hlog : log.Synced) :
    log.Mirrors log.memory :=
  ⟨rfl, log.sameAnswers, _, FileLog.load_of_readMemory hlog, rfl,
    FileLog.sameAnswers _⟩

/-- What is promised of a write to a log in files. -/
structure Write.Safe (write : Write) (log : FileLog)
    (reference : MemoryLog) : Prop where
  /-- A write that succeeds tells and does what it does in memory. -/
  succeeds : ∀ told, (write.on log).1 = .ok told →
    (write.on reference).1 = .ok told ∧
      (write.on log).2.Mirrors (write.on reference).2
  /-- A write fails only as one of its operations on files does, and then it
  changes neither memory nor what the files say. -/
  fails : ∀ fault, (write.on log).1 = .error fault →
    (log.disk.run (write.actions log.memory)).1 = .error fault ∧
      (write.on log).2.memory = log.memory ∧
      FileLog.readMemory (write.on log).2.disk = FileLog.readMemory log.disk
  /-- A write that is cut short leaves a log that can be opened, as it was
  before the write or as it is after it. -/
  stops : ∀ steps, ∃ reopened,
    FileLog.load (write.attempt log steps).2 = .ok reopened ∧
      (reopened.Mirrors reference ∨
        reopened.Mirrors (write.on reference).2)

theorem Write.safe {log : FileLog} (hlog : log.Synced) {write : Write}
    (hfits : write.Fits log.memory) : write.Safe log log.memory where
  succeeds told htold := by
    obtain ⟨hsame, hmemory⟩ := on_of_ok htold
    refine ⟨hsame, ?_⟩
    rw [← hmemory]
    exact (on_synced hlog hfits).mirrors
  fails fault hfault := by
    obtain ⟨hok, hdisk, hmemory⟩ := write.on_attempt log
    rw [hfault] at hok hmemory
    rw [hmemory, hdisk, Write.readMemory_attempt hlog hfits, ← hok, hlog]
    exact ⟨run_of_error hfault, rfl, rfl⟩
  stops steps := by
    have hread := Write.readMemory_attempt hlog hfits steps
    have hload := FileLog.load_of_readMemory hread
    have hmirrors := (FileLog.synced_of_load hload).mirrors
    refine ⟨_, hload, ?_⟩
    cases hdone : (write.attempt log steps).1 with
    | true => rw [hdone] at hmirrors; exact Or.inr hmirrors
    | false => rw [hdone] at hmirrors; exact Or.inl hmirrors

/-- A log in files goes through the states of a log in memory on which just
those writes are made that took effect, whatever fails and wherever the process
stops; and each write is made as in memory, or else not at all. -/
theorem FileLog.mirrors_memory {disk : Disk} {log : FileLog}
    (hload : FileLog.load disk = .ok log) {episodes : List Episode}
    (hfits : log.Fitting episodes) :
    ∃ last writes, log.undergo episodes = .ok (last, writes) ∧
      last.Mirrors (writes.foldl Write.apply log.memory) ∧
      ∀ write : Write, write.Fits last.memory →
        write.Safe last (writes.foldl Write.apply log.memory) := by
  obtain ⟨last, writes, hlast, hsynced, hwrites⟩ :=
    FileLog.undergo_synced (FileLog.synced_of_load hload) hfits
  refine ⟨last, writes, hlast, ?_⟩
  rw [← hwrites]
  exact ⟨hsynced.mirrors, fun _ => Write.safe hsynced⟩

namespace Witness

/-- A device without the directory, which refuses to write the first draft
after one byte of it. -/
def worn : Disk := ⟨none, [none, some [91]]⟩

/-- The log that is opened there. -/
def fresh : FileLog := ⟨worn.make, .empty⟩

/-- A write that fails, the same write again, and a vote in the middle of
which the process stops. -/
def trials : List Episode :=
  [.call (.append 1 .noOp), .call (.append 1 .noOp),
    .stop (.saveVote 2 (some 3)) 3]

theorem fresh_mirrors : FileLog.load worn = .ok fresh ∧
    fresh.Fitting trials ∧
    (∃ log, fresh.undergo (trials.take 2) = .ok (log, [.append 1 .noOp])) ∧
    ∃ last writes, fresh.undergo trials = .ok (last, writes) ∧
      last.Mirrors (writes.foldl Write.apply .empty) ∧
      ∀ write : Write, write.Fits last.memory →
        write.Safe last (writes.foldl Write.apply .empty) := by
  have hload : FileLog.load worn = .ok fresh := rfl
  have hfits : fresh.Fitting trials := by
    refine FileLog.fitting_of_room (FileLog.synced_of_load hload) ?_ ?_
    · simp only [trials, List.forall_mem_cons, List.not_mem_nil,
        false_implies, implies_true, and_true, Episode.InWords,
        Write.InWords, VoteInWords, Operation.InWords, IsWord,
        Option.some.injEq, forall_eq']
      decide
    · unfold IsWord
      decide
  exact ⟨hload, hfits, ⟨_, rfl⟩, FileLog.mirrors_memory hload hfits⟩

end Witness

end SessionRaft
