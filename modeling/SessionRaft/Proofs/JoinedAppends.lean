/-
A request with entries that join on to a follower's log.  The entries that the
log holds already are skipped, the rest replaces what stands from there on,
and what the leader has committed of them is committed and applied.  The same
request once more changes nothing.
-/
import Mathlib.Order.Bounds.Basic
import SessionRaft.ByteProgram
import SessionRaft.Proofs.Deliveries
import SessionRaft.Proofs.Exchanges

namespace SessionRaft

open FaithfulLog

/-- The index of the last entry of a request, or of the entry in front of it if
there is none. -/
def AppendRequest.reach (request : AppendRequest) : Nat :=
  request.prevLogIndex + request.entries.length

/-- The answer to a request whose entries are all in the log. -/
def AppendRequest.success (request : AppendRequest) : AppendResponse :=
  .ok ⟨request.term, true, request.reach, request.round⟩

/-! ### What a log and received entries have in common -/

section Splicing

variable {entries received : List LogEntry} {previous : Nat}

/-- How many of the received entries are held from the place `previous` on,
up to the first that is not. -/
def common (entries : List LogEntry) (previous : Nat) : List LogEntry → Nat
  | [] => 0
  | entry :: received =>
      if entries[previous]?.map LogEntry.term = some entry.term then
        common entries (previous + 1) received + 1
      else 0

theorem matches_cons_iff {entry : LogEntry} :
    Matches entries previous (entry :: received) ↔
      entries[previous]?.map LogEntry.term = some entry.term ∧
        Matches entries (previous + 1) received := by
  constructor
  · refine fun hmatches => ⟨?_, fun offset other hother => ?_⟩
    · obtain ⟨own, hown, hterm⟩ := hmatches 0 entry rfl
      rw [Nat.add_zero] at hown
      rw [hown, Option.map_some, hterm]
    · obtain ⟨own, hown, hterm⟩ := hmatches (offset + 1) other hother
      exact ⟨own, by rwa [Nat.add_assoc, Nat.add_comm 1], hterm⟩
  · rintro ⟨hfirst, hrest⟩
    obtain ⟨own, hown, hterm⟩ := Option.map_eq_some_iff.mp hfirst
    exact matches_cons hown hterm hrest

/-- The entries that are held are the longest part in front of which all
are. -/
theorem isGreatest_common (entries : List LogEntry) (previous : Nat)
    (received : List LogEntry) :
    IsGreatest { count | count ≤ received.length ∧
      Matches entries previous (received.take count) }
      (common entries previous received) := by
  induction received generalizing previous with
  | nil => exact ⟨⟨Nat.le_refl 0, matches_nil _ _⟩, fun _ hcount => hcount.1⟩
  | cons entry received ih =>
      unfold common
      split
      · rename_i hfirst
        obtain ⟨⟨hle, hmatches⟩, hupper⟩ := ih (previous + 1)
        refine ⟨⟨Nat.succ_le_succ hle,
          matches_cons_iff.mpr ⟨hfirst, hmatches⟩⟩, ?_⟩
        rintro (_ | count) ⟨hcount, hheld⟩
        · exact Nat.zero_le _
        · exact Nat.succ_le_succ (hupper ⟨Nat.le_of_succ_le_succ hcount,
            (matches_cons_iff.mp hheld).2⟩)
      · rename_i hfirst
        refine ⟨⟨Nat.zero_le _, matches_nil _ _⟩, ?_⟩
        rintro (_ | count) ⟨-, hheld⟩
        · exact Nat.le_refl 0
        · exact absurd (matches_cons_iff.mp hheld).1 hfirst

/-- Storing what was received leaves a log that holds all of it alone, and
else replaces what stands behind the common entries. -/
theorem splice_eq (entries : List LogEntry) (previous : Nat)
    (received : List LogEntry) :
    splice entries previous received =
      if common entries previous received = received.length then entries
      else entries.take (previous + common entries previous received) ++
        received.drop (common entries previous received) := by
  induction received generalizing previous with
  | nil => rfl
  | cons entry received ih =>
      unfold splice common
      split
      · rw [ih]
        simp only [List.length_cons, Nat.add_right_cancel_iff,
          List.drop_succ_cons]
        rw [Nat.add_assoc, Nat.add_comm 1]
      · simp

end Splicing

namespace Node

/-! ### Merging what joins on -/

section Merging

variable {L : Type} [LogStore L] [FaithfulLog L] {steady : Prop}
  {commitIndex previous matched : Nat} {log after : L}
  {received : List LogEntry}

/-- A merge that comes to its end has stored all that was received. -/
theorem merge_spliced (hlog : Fit steady log)
    (hprevious : previous ≤ (entries log).length)
    (hmerge : merge commitIndex log previous received = (.ok matched, after)) :
    entries after = splice (entries log) previous received := by
  induction received generalizing previous with
  | nil =>
      obtain ⟨-, rfl⟩ := Prod.mk.inj hmerge
      rfl
  | cons entry received ih =>
      unfold merge at hmerge
      split at hmerge
      · simp at hmerge
      rename_i hindex
      rw [ne_eq, Decidable.not_not] at hindex
      unfold splice
      by_cases hholds : holds log entry = true
      · rw [if_pos hholds, hindex] at hmerge
        obtain ⟨own, hown, hterm⟩ := (holds_iff hlog.sound hindex).mp hholds
        obtain ⟨hplace, -⟩ := List.getElem?_eq_some_iff.mp hown
        rw [if_pos (by rw [hown, ← hterm]; rfl)]
        exact ih hplace hmerge
      · have hother : ¬(entries log)[previous]?.map LogEntry.term =
            some entry.term := by
          rw [Option.map_eq_some_iff]
          exact fun hown => hholds ((holds_iff hlog.sound hindex).mpr hown)
        rw [if_neg hholds] at hmerge
        rw [if_neg hother]
        split at hmerge
        · simp at hmerge
        rcases hadopt : adopt log entry with ⟨adopted, middle⟩
        rw [hadopt] at hmerge
        obtain ⟨hmiddle, -, ⟨rfl, hentries⟩ | ⟨rfl, -⟩⟩ :=
          adopt_cases hlog hindex hprevious hadopt
        · have hlength : (entries middle).length = previous + 1 := by
            rw [hentries, List.length_append, List.length_take]
            simp only [List.length_singleton]
            omega
          simp only [hindex, ← hlength] at hmerge
          obtain ⟨-, -, taken, -, htaken, hdone⟩ := merge_past_end hmiddle hmerge
          obtain ⟨rfl, -⟩ := hdone matched rfl
          rw [htaken, hentries, List.append_assoc]
          rfl
        · simp at hmerge

/-- A log that holds all that was received is left alone. -/
theorem merge_held (hlog : Sound log)
    (hnumbered : consecutive previous received = received)
    (hmatches : Matches (entries log) previous received) :
    merge commitIndex log previous received =
      (.ok (previous + received.length), log) := by
  induction received generalizing previous with
  | nil => rfl
  | cons entry received ih =>
      unfold consecutive at hnumbered
      split at hnumbered
      · rename_i hindex
        obtain ⟨hfirst, hrest⟩ := matches_cons_iff.mp hmatches
        have hholds : holds log entry = true :=
          (holds_iff hlog hindex).mpr (Option.map_eq_some_iff.mp hfirst)
        unfold merge
        rw [if_neg (fun hne => hne hindex), if_pos hholds, hindex,
          ih (List.cons.inj hnumbered).2 hrest, List.length_cons,
          Nat.add_assoc, Nat.add_comm 1]
      · simp at hnumbered

end Merging

/-! ### Handling a request that joins on -/

variable {L σ : Type} [LogStore L] {node : Node L σ} {request : AppendRequest}
  {log : L}

/-- A follower of the sender has nothing to change. -/
theorem receptive_of_follows (hterm : node.term = request.term)
    (hrole : node.role = .follower)
    (hleader : node.leader = some request.leader) :
    node.receptive request = node := by
  unfold receptive
  rw [if_neg (by simp [hterm, hrole]), ← hleader]

/-- The node with the log that merging a request leaves. -/
def merged (node : Node L σ) (request : AppendRequest) (log : L) : Node L σ :=
  (node.receptive request).withLog log

/-- A node comes to the end of merging a request, with this log. -/
structure Merges (node : Node L σ) (request : AppendRequest) (log : L) :
    Prop where
  term : ¬request.term < node.term
  previous : request.prevLogIndex ≤
    LogStore.lastIndex (node.receptive request).log
  previousTerm : LogStore.termAt (node.receptive request).log
    request.prevLogIndex = request.prevLogTerm
  merge : merge (node.receptive request).commitIndex
    (node.receptive request).log request.prevLogIndex request.entries =
      (.ok request.reach, log)

variable [FaithfulLog L]

theorem Merges.previous_le (hmerges : node.Merges request log)
    (hlog : Sound node.log) :
    request.prevLogIndex ≤ (entries (node.receptive request).log).length := by
  rw [← lastIndex_eq_length (receptive_sound hlog request)]
  exact hmerges.previous

theorem Merges.sound (hmerges : node.Merges request log)
    (hlog : Sound node.log) : Sound log :=
  have hreceptive : Fit False (node.receptive request).log :=
    .of_sound (receptive_sound hlog request)
  (merge_cases hreceptive (hmerges.previous_le hlog) hmerges.merge).1.sound

theorem Merges.spliced (hmerges : node.Merges request log)
    (hlog : Sound node.log) :
    Spliced node.commitIndex (entries node.log) request.prevLogIndex
      request.entries (entries log) := by
  have hreceptive : Fit False (node.receptive request).log :=
    .of_sound (receptive_sound hlog request)
  obtain ⟨-, -, hspliced, -⟩ :=
    merge_cases hreceptive (hmerges.previous_le hlog) hmerges.merge
  obtain ⟨hspared, hentries⟩ := spared_receptive hlog request
  rwa [hspared.commitIndex, hentries] at hspliced

/-- The log is what storing all entries makes of the one before. -/
theorem Merges.stored (hmerges : node.Merges request log)
    (hlog : Sound node.log) :
    entries log =
      splice (entries node.log) request.prevLogIndex request.entries := by
  rw [← (spared_receptive hlog request).2]
  exact merge_spliced (.of_sound (receptive_sound hlog request))
    (hmerges.previous_le hlog) hmerges.merge

/-- Afterwards the log holds all entries of the request. -/
theorem Merges.joined (hmerges : node.Merges request log)
    (hlog : Sound node.log) :
    (node.merged request log).standing.Joined request :=
  (joined_of_merge (.of_sound (receptive_sound hlog request)) hmerges.previous
    hmerges.previousTerm hmerges.merge).2

theorem Merges.reach_le (hmerges : node.Merges request log)
    (hlog : Sound node.log) : request.reach ≤ (entries log).length :=
  have hjoined := hmerges.joined hlog
  matches_length hjoined.1 hjoined.2.2

/-- Merging does not reach into what is committed. -/
theorem Merges.abreast (hmerges : node.Merges request log)
    (hlog : Sound node.log) (habreast : node.Abreast) :
    (node.merged request log).Abreast := by
  obtain ⟨hspared, -⟩ := spared_receptive hlog request
  have hkept := length_le_of_take_eq (spliced_committed habreast.committed
    (hmerges.spliced hlog)) habreast.committed
  rw [← hspared.commitIndex] at hkept
  exact ⟨hspared.lastApplied.trans
    (habreast.applied.trans hspared.commitIndex.symm), hkept⟩

variable [StateMachine σ]

/-- The node after it has merged a request and followed the sender's commit as
far as its log matches. -/
def taken (node : Node L σ) (request : AppendRequest) (log : L) : Node L σ :=
  (node.merged request log).followCommit
    (min request.commitIndex request.reach)

omit [FaithfulLog L] in
theorem taken_log (node : Node L σ) (request : AppendRequest) (log : L) :
    (node.taken request log).log = log :=
  followCommit_log _ _

theorem Merges.term_taken (hmerges : node.Merges request log) :
    (node.taken request log).term = request.term := by
  obtain ⟨-, hown, -⟩ : Proceeds False (.append request) node
      (node.receptive request) ∧ _ := receptive_cases hmerges.term
  exact (followCommit_term _ _).trans hown

/-- A request that is merged is answered with success. -/
theorem Merges.handleAppend (hmerges : node.Merges request log) :
    node.handleAppend request =
      ((request.success, true), node.taken request log) := by
  have hanswered := hmerges.term_taken
  obtain ⟨hterm, hprevious, hjoin, hmerge⟩ := hmerges
  rw [handleAppend_eq, if_neg hterm, receive]
  dsimp only
  rw [if_neg (Nat.not_lt.mpr hprevious), if_neg (fun hne => hne hjoin), hmerge]
  rw [AppendRequest.success, ← hanswered]
  rfl

/-- A node that has taken a request follows the sender, whatever else it is
sent. -/
theorem Merges.receptive_taken (hmerges : node.Merges request log)
    {other : AppendRequest} (hterm : other.term = request.term)
    (hleader : other.leader = request.leader) :
    (node.taken request log).receptive other = node.taken request log := by
  obtain ⟨-, -, hrole⟩ : Proceeds False (.append request) node
      (node.receptive request) ∧ _ := receptive_cases hmerges.term
  have hframe := followCommit_frame (node.merged request log)
    (min request.commitIndex request.reach)
  refine receptive_of_follows (hmerges.term_taken.trans hterm.symm) ?_ ?_
  · exact (congrArg Frame.role hframe).trans hrole
  · exact (congrArg Frame.leader hframe).trans (congrArg some hleader.symm)

theorem taken_commitIndex (hlog : Sound node.log) :
    (node.taken request log).commitIndex =
      max node.commitIndex (min request.commitIndex request.reach) := by
  rw [taken, followCommit_commitIndex, merged, withLog_commitIndex,
    (spared_receptive hlog request).1.commitIndex]

/-- What has been merged can be merged again, and leaves the log alone. -/
theorem Merges.again (hmerges : node.Merges request log)
    (hlog : Sound node.log)
    (hnumbered : consecutive request.prevLogIndex request.entries =
      request.entries) :
    (node.taken request log).Merges request log := by
  have hself : (node.taken request log).receptive request =
      node.taken request log := hmerges.receptive_taken rfl rfl
  have hsound := hmerges.sound hlog
  obtain ⟨hprevious, hjoin, hmatches⟩ := hmerges.joined hlog
  have hterm := hmerges.term_taken
  refine ⟨by omega, ?_, ?_, ?_⟩
  · rw [hself, taken_log, lastIndex_eq_length hsound]
    exact hprevious
  · rw [hself, taken_log, termAt_eq_termOf hsound]
    exact hjoin
  · rw [hself, taken_log]
    exact merge_held hsound hnumbered hmatches

/-- The second time there is nothing to follow either. -/
theorem Merges.taken_again (hmerges : node.Merges request log)
    (hlog : Sound node.log) :
    (node.taken request log).taken request log = node.taken request log := by
  have hkept : ∀ {after : Node L σ}, after.log = log →
      after.withLog log = after := by
    rintro after rfl
    rfl
  have hself : (node.taken request log).merged request log =
      node.taken request log := by
    rw [merged, hmerges.receptive_taken rfl rfl]
    exact hkept (taken_log node request log)
  rw [taken, hself]
  refine followCommit_of_le ?_
  rw [taken_commitIndex hlog]
  exact Nat.le_max_right _ _

/-- A request that joins on to the log of a node: it is not of an earlier term,
its entries are numbered on from an entry that the log holds, and they differ
from no entry that is committed. -/
structure JoinsOn (node : Node L σ) (request : AppendRequest) : Prop where
  term : node.term ≤ request.term
  previous : request.prevLogIndex ≤ LogStore.lastIndex node.log
  previousTerm : LogStore.termAt node.log request.prevLogIndex =
    request.prevLogTerm
  numbered : ∀ offset entry, request.entries[offset]? = some entry →
    entry.index = request.prevLogIndex + offset + 1
  committed : ∀ entry ∈ request.entries, entry.index ≤ node.commitIndex →
    entry.index ≤ LogStore.lastIndex node.log →
    LogStore.termAt node.log entry.index = entry.term

omit [StateMachine σ] in
/-- What is committed is not in conflict with what joins on. -/
theorem JoinsOn.agrees (hjoins : node.JoinsOn request)
    (hlog : Sound node.log) {offset : Nat} {entry own : LogEntry}
    (hentry : request.entries[offset]? = some entry)
    (hown : (entries node.log)[request.prevLogIndex + offset]? = some own)
    (hcommit : request.prevLogIndex + offset < node.commitIndex) :
    own.term = entry.term := by
  obtain ⟨hplace, -⟩ := List.getElem?_eq_some_iff.mp hown
  have hindex := hjoins.numbered offset entry hentry
  have hlast : entry.index ≤ LogStore.lastIndex node.log := by
    rw [lastIndex_eq_length hlog]
    omega
  have hsame := hjoins.committed entry (List.mem_of_getElem? hentry) (by omega)
    hlast
  rwa [termAt_eq_termOf hlog, hindex, termOf_succ_of_getElem? hown] at hsame

/-- What joins on is merged, if the log can always be written or at least
nothing fails to be written this time. -/
theorem JoinsOn.merges (hjoins : node.JoinsOn request)
    (hlog : Sound node.log) (hwrites : Writable node.log ∨
      (node.handleAppend request).1.1 ≠ .error .internalError) :
    ∃ log, node.Merges request log := by
  have hsound := receptive_sound hlog request
  obtain ⟨hspared, hentries⟩ := spared_receptive hlog request
  have hterm := Nat.not_lt.mpr hjoins.term
  have hjoin := hjoins.previousTerm
  rw [termAt_eq_termOf hlog, ← hentries, ← termAt_eq_termOf hsound] at hjoin
  have hprevious := hjoins.previous
  rw [lastIndex_eq_length hlog, ← hentries] at hprevious
  have hplace := hprevious
  rw [← lastIndex_eq_length hsound] at hplace
  have hagrees : ∀ offset entry own, request.entries[offset]? = some entry →
      (entries (node.receptive request).log)[request.prevLogIndex + offset]? =
        some own →
      request.prevLogIndex + offset < (node.receptive request).commitIndex →
      own.term = entry.term := by
    rw [hentries, hspared.commitIndex]
    exact fun _ _ _ => hjoins.agrees hlog
  rcases hmerge : merge (node.receptive request).commitIndex
    (node.receptive request).log request.prevLogIndex request.entries
    with ⟨outcome, log⟩
  rcases merge_joined (.of_sound hsound) hprevious
    (consecutive_eq hjoins.numbered) hagrees hmerge
    with ⟨rfl, -⟩ | ⟨rfl, hfails⟩
  · exact ⟨log, hterm, hplace, hjoin, hmerge⟩
  · rcases hwrites with hwritable | hwritten
    · exact absurd (hwritable.receptive request) hfails
    · refine absurd ?_ hwritten
      rw [handleAppend_eq, if_neg hterm, receive]
      dsimp only
      rw [if_neg (Nat.not_lt.mpr hplace), if_neg (fun hne => hne hjoin), hmerge]

/-- A node that follows a commit applies what it commits, in the order of the
log. -/
theorem Abreast.followCommit (habreast : node.Abreast) (hlog : Sound node.log)
    {target : Nat} (htarget : target ≤ (entries node.log).length) :
    (node.followCommit target).lastApplied =
        (node.followCommit target).commitIndex ∧
      (node.followCommit target).executor = node.executor.replay
        (((entries node.log).take (node.followCommit target).commitIndex).drop
          node.commitIndex) := by
  obtain ⟨happlied, hcommitted⟩ := habreast
  by_cases hlt : node.commitIndex < target
  · have hcommit := followCommit_commitIndex node target
    rw [Nat.max_eq_right (Nat.le_of_lt hlt)] at hcommit
    have haccount : (node.followCommit target).account =
        (applyNext { node with commitIndex := target }
          (target - node.lastApplied)).account := by
      rw [Node.followCommit, if_pos hlt, applyCommitted_account]
    obtain ⟨-, -, -, hlast, hhanded⟩ := @applyNext_spec L σ _ _
      { node with commitIndex := target } _ hlog (target - node.lastApplied)
      (by simp only; omega)
    rw [hcommit]
    constructor
    · refine (congrArg Account.lastApplied haccount).trans (hlast.trans ?_)
      simp only
      omega
    · refine (congrArg Account.executor haccount).trans
        ((applyNext_executor _ _).trans ?_)
      rw [hhanded, happlied, List.drop_take]
  · rw [followCommit_of_le (Nat.not_lt.mp hlt)]
    refine ⟨happlied, ?_⟩
    rw [List.drop_eq_nil_of_le (List.length_take_le _ _)]
    rfl

/-- What is merged is committed as far as the sender has, and applied. -/
theorem Merges.applied (hmerges : node.Merges request log)
    (hlog : Sound node.log) (habreast : node.Abreast) :
    (node.taken request log).lastApplied =
        (node.taken request log).commitIndex ∧
      (node.taken request log).executor = node.executor.replay
        (((entries log).take (node.taken request log).commitIndex).drop
          node.commitIndex) := by
  obtain ⟨hspared, -⟩ := spared_receptive hlog request
  have hfollowed := (hmerges.abreast hlog habreast).followCommit
    (hmerges.sound hlog)
    (Nat.le_trans (Nat.min_le_right request.commitIndex request.reach)
      (hmerges.reach_le hlog))
  rwa [show (node.merged request log).commitIndex = node.commitIndex from
    hspared.commitIndex, show (node.merged request log).executor =
    node.executor from hspared.executor] at hfollowed

end Node

namespace Life

variable {L σ : Type} [LogStore L] [FaithfulLog L] [StateMachine σ]
  {life : Life L σ} {request : AppendRequest}

/-- What joins on to a log replaces all behind the longest part of it that the
log holds, unless the log holds all of it.  It is answered with success, if
nothing fails to be written, and what the sender has committed of it is
committed and applied.  Taking it once more changes nothing. -/
theorem joined_appends_splice (hvalid : life.Valid) {time : Nat}
    (hjoins : (life.node time).JoinsOn request)
    (hwrites : Node.Writable (life.node time).log ∨
      ((life.node time).handleAppend request).1.1 ≠ .error .internalError) :
    ∃ held after,
      IsGreatest { count | count ≤ request.entries.length ∧
        Matches (entries (life.node time).log) request.prevLogIndex
          (request.entries.take count) } held ∧
      (life.node time).handleAppend request =
        ((request.success, true), after) ∧
      entries after.log =
        (if held = request.entries.length then entries (life.node time).log
        else (entries (life.node time).log).take (request.prevLogIndex + held) ++
          request.entries.drop held) ∧
      after.commitIndex = max (life.node time).commitIndex
        (min request.commitIndex request.reach) ∧
      after.lastApplied = after.commitIndex ∧
      after.executor = (life.node time).executor.replay
        (((entries after.log).take after.commitIndex).drop
          (life.node time).commitIndex) ∧
      after.handleAppend request = ((request.success, true), after) := by
  have hlog := (hvalid.proper time).sound
  obtain ⟨log, hmerges⟩ := hjoins.merges hlog hwrites
  have hagain := hmerges.again hlog (Node.consecutive_eq hjoins.numbered)
  obtain ⟨happlied, hexecutor⟩ := hmerges.applied hlog (hvalid.abreast time)
  have hlast := (life.node time).taken_log request log
  refine ⟨common (entries (life.node time).log) request.prevLogIndex
    request.entries, (life.node time).taken request log,
    isGreatest_common _ _ _, hmerges.handleAppend, ?_,
    Node.taken_commitIndex hlog, happlied, ?_, ?_⟩
  · rw [hlast, hmerges.stored hlog, splice_eq]
  · rw [hlast]
    exact hexecutor
  · rw [hagain.handleAppend, hmerges.taken_again hlog]

end Life

namespace Witness

/-- A follower that has committed the first of three entries. -/
def outvoted : Life MemoryLog Tally where
  start := member .empty .start 1
  incidents := [
    .input (.append ⟨2, 2, 0, 0, [⟨1, 1, .noOp⟩, ⟨1, 2, .noOp⟩,
      ⟨2, 3, .noOp⟩], 1, 1⟩)]

theorem outvoted_valid : outvoted.Valid where
  begins := ⟨1, [1, 2, 3], {}, .empty, .start, numbered_nil, rfl⟩
  possible := Life.possible_of_inputs (by simp [outvoted])

/-- A later leader has another third entry, and one more. -/
def overruling : AppendRequest :=
  ⟨3, 3, 1, 1, [⟨1, 2, .noOp⟩, ⟨3, 3, .register 7 100 5⟩, ⟨3, 4, .noOp⟩], 3, 1⟩

theorem overruling_joins : (outvoted.node 1).JoinsOn overruling where
  term := by decide
  previous := by decide
  previousTerm := rfl
  numbered := by
    rintro (_ | _ | _ | offset) entry hentry
    · exact Option.some.inj hentry ▸ rfl
    · exact Option.some.inj hentry ▸ rfl
    · exact Option.some.inj hentry ▸ rfl
    · cases hentry
  committed := by decide

/-- The third entry is replaced, and the session is opened. -/
theorem joined_appends_splice_overruling : outvoted.Valid ∧
    Node.Writable (outvoted.node 1).log ∧
    (outvoted.node 1).JoinsOn overruling ∧ ∃ after,
      (outvoted.node 1).handleAppend overruling =
        ((overruling.success, true), after) ∧
      entries after.log = [⟨1, 1, .noOp⟩, ⟨1, 2, .noOp⟩,
        ⟨3, 3, .register 7 100 5⟩, ⟨3, 4, .noOp⟩] ∧
      after.commitIndex = 3 ∧ after.lastApplied = 3 ∧
      after.executor.sessions.contains 3 = true ∧
      after.handleAppend overruling = ((overruling.success, true), after) := by
  have hwritable : Node.Writable (outvoted.node 1).log :=
    fun _ _ => ⟨fun _ _ => rfl, fun _ => rfl⟩
  obtain ⟨held, after, hheld, hhandle, hentries, hcommit, happlied, hexecutor,
    hagain⟩ := Life.joined_appends_splice outvoted_valid
      overruling_joins (Or.inl hwritable)
  obtain rfl : held = 1 := hheld.unique (isGreatest_common _ _ _)
  have hlog : entries after.log = [⟨1, 1, .noOp⟩, ⟨1, 2, .noOp⟩,
      ⟨3, 3, .register 7 100 5⟩, ⟨3, 4, .noOp⟩] := hentries
  have hthird : after.commitIndex = 3 := hcommit
  rw [hlog, hthird] at hexecutor
  refine ⟨outvoted_valid, hwritable, overruling_joins, after, hhandle, hlog,
    hthird, happlied.trans hthird, ?_, hagain⟩
  rw [hexecutor]
  rfl

end Witness

end SessionRaft
