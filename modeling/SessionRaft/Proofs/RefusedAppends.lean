/-
A request with entries that is refused.  It leaves all that was applied and
committed alone, and the log too, with one exception: entries are stored one
by one, so that those in front of a misnumbered one are there when it is
found.  A conflict with a committed entry is found before anything is stored.
-/
import SessionRaft.ByteProgram
import SessionRaft.Proofs.Lives

namespace SessionRaft

open FaithfulLog

/-- The received entries up to the first that does not have the next
number. -/
def consecutive (previous : Nat) : List LogEntry → List LogEntry
  | [] => []
  | entry :: received =>
      if entry.index = previous + 1 then
        entry :: consecutive (previous + 1) received
      else []

/-- What storing all received entries makes of a log that they join on to at
the place `previous`: entries that are there already stay, and from the first
other one on the received ones replace what stands there. -/
def splice (entries : List LogEntry) (previous : Nat) :
    List LogEntry → List LogEntry
  | [] => entries
  | entry :: received =>
      if entries[previous]?.map LogEntry.term = some entry.term then
        splice entries (previous + 1) received
      else entries.take previous ++ entry :: received

/-- One of some received entries contradicts the log at an index that is
committed. -/
def Conflicts (commitIndex : Nat) (entries received : List LogEntry) : Prop :=
  ∃ entry ∈ received, entry.index ≤ commitIndex ∧
    ∃ own, entries[entry.index - 1]? = some own ∧ own.term ≠ entry.term

theorem lt_index_of_mem_consecutive {previous : Nat} {received : List LogEntry}
    {entry : LogEntry} (hentry : entry ∈ consecutive previous received) :
    previous < entry.index := by
  induction received generalizing previous with
  | nil => simp [consecutive] at hentry
  | cons first received ih =>
      by_cases hindex : first.index = previous + 1
      · simp only [consecutive, hindex, ↓reduceIte, List.mem_cons] at hentry
        rcases hentry with rfl | hentry
        · omega
        · exact Nat.lt_of_succ_lt (ih hentry)
      · simp [consecutive, hindex] at hentry

theorem conflicts_cons_iff {commitIndex : Nat} {entries received : List LogEntry}
    {entry : LogEntry} : Conflicts commitIndex entries (entry :: received) ↔
      (entry.index ≤ commitIndex ∧
        ∃ own, entries[entry.index - 1]? = some own ∧ own.term ≠ entry.term) ∨
      Conflicts commitIndex entries received := by
  simp only [Conflicts, List.mem_cons, or_and_right, exists_or,
    exists_eq_left]

/-- What comes after the committed entries, or after the whole log, does not
contradict a committed entry. -/
theorem not_conflicts_consecutive {commitIndex previous : Nat}
    {entries received : List LogEntry}
    (hpast : previous < entries.length → commitIndex ≤ previous) :
    ¬Conflicts commitIndex entries (consecutive previous received) := by
  rintro ⟨entry, hentry, hcommitted, own, hown, -⟩
  have hafter := lt_index_of_mem_consecutive hentry
  obtain ⟨hlt, -⟩ := List.getElem?_eq_some_iff.mp hown
  omega

namespace Node

section Merging

variable {L : Type} [LogStore L] [FaithfulLog L] {steady : Prop}
  {commitIndex previous : Nat} {log after : L} {received : List LogEntry}

/-- Past the end of the log a protocol error comes from a misnumbered entry,
and all in front of it are appended. -/
theorem merge_past_end_refused (hlog : Fit steady log)
    (hmerge : merge commitIndex log (entries log).length received =
      (.error .protocolError, after)) :
    consecutive (entries log).length received ≠ received ∧
      entries after =
        entries log ++ consecutive (entries log).length received := by
  induction received generalizing log with
  | nil => simp [merge] at hmerge
  | cons entry received ih =>
      unfold merge at hmerge
      by_cases hindex : entry.index = (entries log).length + 1
      · have hnot : ¬holds log entry = true := by
          rw [holds_iff hlog.sound hindex]
          rintro ⟨own, hown, -⟩
          simp at hown
        have hpast : ¬(entry.index ≤ LogStore.lastIndex log ∧
            entry.index ≤ commitIndex) := by
          rw [lastIndex_eq_length hlog.sound, hindex]
          omega
        rw [if_neg (fun hne => hne hindex), if_neg hnot, if_neg hpast] at hmerge
        rcases hadopt : adopt log entry with ⟨adopted, middle⟩
        rw [hadopt] at hmerge
        obtain ⟨hmiddle, -, ⟨rfl, hentries⟩ | ⟨rfl, -⟩⟩ :=
          adopt_cases hlog hindex (Nat.le_refl _) hadopt
        · rw [List.take_of_length_le (Nat.le_refl _)] at hentries
          have hlength :
              (entries middle).length = (entries log).length + 1 := by
            simp [hentries]
          rw [hindex, ← hlength] at hmerge
          obtain ⟨hdiffers, hafter⟩ := ih hmiddle hmerge
          rw [hlength] at hdiffers hafter
          simp only [consecutive, hindex, ↓reduceIte, ne_eq, List.cons.injEq,
            true_and]
          refine ⟨hdiffers, ?_⟩
          rw [hafter, hentries, List.append_assoc]
          rfl
        · simp at hmerge
      · rw [if_pos hindex] at hmerge
        obtain ⟨-, rfl⟩ := Prod.mk.inj hmerge
        simp [consecutive, hindex]

/-- The first entry that the log does not hold may be stored if it lies past
the committed ones or past the log.  A protocol error comes from a misnumbered
entry then, and all in front of it are stored. -/
theorem merge_replaces_refused (hlog : Fit steady log)
    (hprevious : previous ≤ (entries log).length) {entry : LogEntry}
    (hindex : entry.index = previous + 1) (hholds : ¬holds log entry = true)
    (hopen : ¬(entry.index ≤ LogStore.lastIndex log ∧
      entry.index ≤ commitIndex))
    (hmerge : merge commitIndex log previous (entry :: received) =
      (.error .protocolError, after)) :
    consecutive (previous + 1) received ≠ received ∧
      entries after = (entries log).take previous ++
        entry :: consecutive (previous + 1) received := by
  unfold merge at hmerge
  rw [if_neg (fun hne => hne hindex), if_neg hholds, if_neg hopen] at hmerge
  rcases hadopt : adopt log entry with ⟨adopted, middle⟩
  rw [hadopt] at hmerge
  obtain ⟨hmiddle, -, ⟨rfl, hentries⟩ | ⟨rfl, -⟩⟩ :=
    adopt_cases hlog hindex hprevious hadopt
  · have hlength : (entries middle).length = previous + 1 := by
      rw [hentries, List.length_append, List.length_take]
      simp only [List.length_singleton]
      omega
    rw [hindex, ← hlength] at hmerge
    obtain ⟨hdiffers, hafter⟩ := merge_past_end_refused hmiddle hmerge
    rw [hlength] at hdiffers hafter
    refine ⟨hdiffers, ?_⟩
    rw [hafter, hentries, List.append_assoc]
    rfl
  · simp at hmerge

/-- A merge that ends with a protocol error leaves the log alone, or has stored
the entries in front of a misnumbered one, and those contradict nothing that is
committed. -/
theorem merge_refused (hlog : Fit steady log)
    (hprevious : previous ≤ (entries log).length)
    (hmerge : merge commitIndex log previous received =
      (.error .protocolError, after)) :
    entries after = entries log ∨
      consecutive previous received ≠ received ∧
        ¬Conflicts commitIndex (entries log)
          (consecutive previous received) ∧
        entries after =
          splice (entries log) previous (consecutive previous received) := by
  induction received generalizing previous with
  | nil => simp [merge] at hmerge
  | cons entry received ih =>
      by_cases hindex : entry.index = previous + 1
      · have hfront : consecutive previous (entry :: received) =
            entry :: consecutive (previous + 1) received := if_pos hindex
        by_cases hholds : holds log entry = true
        · unfold merge at hmerge
          rw [if_neg (fun hne => hne hindex), if_pos hholds, hindex] at hmerge
          obtain ⟨own, hown, hterm⟩ := (holds_iff hlog.sound hindex).mp hholds
          obtain ⟨hplace, -⟩ := List.getElem?_eq_some_iff.mp hown
          refine (ih hplace hmerge).imp_right ?_
          rintro ⟨hdiffers, hpeaceful, hafter⟩
          rw [hfront, splice, if_pos (by rw [hown, ← hterm]; rfl),
            conflicts_cons_iff, hindex, Nat.add_sub_cancel, hown]
          refine ⟨fun heq => hdiffers (List.cons.inj heq).2, ?_, hafter⟩
          rintro (⟨-, other, hother, hne⟩ | hconflicts)
          · exact hne (Option.some.inj hother ▸ hterm)
          · exact hpeaceful hconflicts
        · by_cases hopen : entry.index ≤ LogStore.lastIndex log ∧
              entry.index ≤ commitIndex
          · unfold merge at hmerge
            rw [if_neg (fun hne => hne hindex), if_neg hholds, if_pos hopen]
              at hmerge
            obtain ⟨-, rfl⟩ := Prod.mk.inj hmerge
            exact Or.inl rfl
          · obtain ⟨hdiffers, hafter⟩ :=
              merge_replaces_refused hlog hprevious hindex hholds hopen hmerge
            have hother : ¬(entries log)[previous]?.map LogEntry.term =
                some entry.term := by
              rw [Option.map_eq_some_iff]
              exact fun hown => hholds ((holds_iff hlog.sound hindex).mpr hown)
            -- All that follows the first entry that is not there lies past the
            -- committed ones or past the log, as that one does.
            have hpeaceful : ¬Conflicts commitIndex (entries log)
                (consecutive previous (entry :: received)) := by
              apply not_conflicts_consecutive
              rw [lastIndex_eq_length hlog.sound, hindex] at hopen
              omega
            refine Or.inr ⟨?_, hpeaceful, ?_⟩
            · rw [hfront]
              exact fun heq => hdiffers (List.cons.inj heq).2
            · rw [hfront, splice, if_neg hother]
              exact hafter
      · unfold merge at hmerge
        rw [if_pos hindex] at hmerge
        obtain ⟨-, rfl⟩ := Prod.mk.inj hmerge
        exact Or.inl rfl

end Merging

/-- What a request with entries leaves alone unless it is accepted.  What waits
for the node's own leadership is let go with it. -/
structure Spared {L σ : Type} (before after : Node L σ) : Prop where
  id : after.id = before.id
  members : after.members = before.members
  config : after.config = before.config
  commitIndex : after.commitIndex = before.commitIndex
  lastApplied : after.lastApplied = before.lastApplied
  executor : after.executor = before.executor
  outbox : after.outbox = before.outbox
  now : after.now = before.now
  waiting : before.leadership = none → after.waiters = before.waiters ∧
    after.queries = before.queries ∧ after.answers = before.answers

variable {L σ : Type} [LogStore L]

omit [LogStore L] in
theorem Spared.refl (node : Node L σ) : node.Spared node :=
  ⟨rfl, rfl, rfl, rfl, rfl, rfl, rfl, rfl, fun _ => ⟨rfl, rfl, rfl⟩⟩

theorem spared_becomeFollower (node : Node L σ) (term : Nat) :
    node.Spared (node.becomeFollower term) := by
  rw [becomeFollower_eq]
  have hleadership : (node.adoptTerm term).leadership = node.leadership := by
    unfold adoptTerm
    split <;> rfl
  have hadopted : node.Spared (node.adoptTerm term) := by
    unfold adoptTerm
    split
    · exact ⟨rfl, rfl, rfl, rfl, rfl, rfl, rfl, rfl, fun _ => ⟨rfl, rfl, rfl⟩⟩
    · exact .refl node
  unfold stepDown
  obtain ⟨hid, hmembers, hconfig, hcommit, happlied, hexecutor, houtbox, hnow,
    hwaiting⟩ := hadopted
  split
  · rename_i hsome
    obtain ⟨leadership, hled⟩ := Option.isSome_iff_exists.mp hsome
    simp only [hleadership] at hled
    simp only [dropLeadership, hleadership, hled]
    exact ⟨hid, hmembers, hconfig, hcommit, happlied, hexecutor, houtbox,
      hnow, fun hnone => by simp [hled] at hnone⟩
  · exact ⟨hid, hmembers, hconfig, hcommit, happlied, hexecutor, houtbox,
      hnow, hwaiting⟩

variable [FaithfulLog L] {node after : Node L σ}

theorem spared_receptive (hlog : Sound node.log) (request : AppendRequest) :
    node.Spared (node.receptive request) ∧
      entries (node.receptive request).log = entries node.log := by
  unfold receptive
  split
  · obtain ⟨hid, hmembers, hconfig, hcommit, happlied, hexecutor, houtbox,
      hnow, hwaiting⟩ := spared_becomeFollower node request.term
    exact ⟨⟨hid, hmembers, hconfig, hcommit, happlied, hexecutor, houtbox,
      hnow, hwaiting⟩, becomeFollower_entries hlog request.term⟩
  · exact ⟨⟨rfl, rfl, rfl, rfl, rfl, rfl, rfl, rfl,
      fun _ => ⟨rfl, rfl, rfl⟩⟩, rfl⟩

variable [StateMachine σ]

/-- A request with entries that is refused spares the node, and what it leaves
in the log was in front of a misnumbered entry. -/
theorem handleAppend_refused (hlog : Sound node.log) {request : AppendRequest}
    {response : AppendResponse} {restart : Bool}
    (happend : node.handleAppend request = ((response, restart), after))
    (hrefused : response = .error .protocolError ∨
      ∃ appended, response = .ok appended ∧ appended.succeeded = false) :
    node.Spared after ∧ (entries after.log = entries node.log ∨
      response = .error .protocolError ∧
        consecutive request.prevLogIndex request.entries ≠ request.entries ∧
        ¬Conflicts node.commitIndex (entries node.log)
          (consecutive request.prevLogIndex request.entries) ∧
        entries after.log = splice (entries node.log) request.prevLogIndex
          (consecutive request.prevLogIndex request.entries)) := by
  rw [handleAppend_eq] at happend
  split at happend
  · obtain ⟨-, rfl⟩ := Prod.mk.inj happend
    exact ⟨.refl node, Or.inl rfl⟩
  · rename_i hterm
    have hfit : Fit False (node.receptive request).log :=
      ((receptive_cases hterm).1 (.of_sound hlog)).1
    obtain ⟨hspared, hentries⟩ := spared_receptive hlog request
    rw [← hentries, ← hspared.commitIndex]
    generalize node.receptive request = follower at happend hfit hspared ⊢
    unfold receive at happend
    dsimp only at happend
    split at happend
    · obtain ⟨-, rfl⟩ := Prod.mk.inj happend
      exact ⟨hspared, Or.inl rfl⟩
    rename_i hprevious
    split at happend
    · obtain ⟨-, rfl⟩ := Prod.mk.inj happend
      exact ⟨hspared, Or.inl rfl⟩
    rw [lastIndex_eq_length hfit.sound, Nat.not_lt] at hprevious
    split at happend
    · rename_i kind log hmerge
      obtain ⟨hresponse, rfl⟩ := Prod.mk.inj happend
      obtain ⟨rfl, -⟩ := Prod.mk.inj hresponse
      obtain rfl : kind = .protocolError := by simpa using hrefused
      refine ⟨?_, (merge_refused hfit hprevious hmerge).imp_right
        (fun hstored => ⟨rfl, hstored⟩)⟩
      obtain ⟨hid, hmembers, hconfig, hcommit, happlied, hexecutor, houtbox,
        hnow, hwaiting⟩ := hspared
      exact ⟨hid, hmembers, hconfig, hcommit, happlied, hexecutor, houtbox,
        hnow, hwaiting⟩
    · obtain ⟨hresponse, -⟩ := Prod.mk.inj happend
      obtain ⟨rfl, -⟩ := Prod.mk.inj hresponse
      simp [appended] at hrefused

end Node

namespace Life

variable {L σ : Type} [LogStore L] [FaithfulLog L] [StateMachine σ]
  {life : Life L σ}

/-- A request with entries that is refused leaves everything that was committed
or applied as it was, and the log too.  Only if an entry is misnumbered may
those in front of it be in the log, as a request without the rest would have
stored them, and not even then if one of them contradicts a committed entry. -/
theorem refused_appends_spare (hvalid : life.Valid) {time : Nat}
    {request : AppendRequest} {response : AppendResponse} {restart : Bool}
    {after : Node L σ}
    (htakes : life.Takes time (.append request) (.append response restart)
      after)
    (hrefused : response = .error .protocolError ∨
      ∃ appended, response = .ok appended ∧ appended.succeeded = false) :
    (life.node time).Spared after ∧
      (entries after.log = entries (life.node time).log ∨
        response = .error .protocolError ∧
          consecutive request.prevLogIndex request.entries ≠
            request.entries ∧
          ¬Conflicts (life.node time).commitIndex
            (entries (life.node time).log)
            (consecutive request.prevLogIndex request.entries) ∧
          entries after.log =
            splice (entries (life.node time).log) request.prevLogIndex
              (consecutive request.prevLogIndex request.entries)) := by
  cases Node.stepsTo htakes.2 with
  | append happend =>
      exact Node.handleAppend_refused (hvalid.proper time).sound happend
        hrefused

end Life

namespace Witness

/-- A follower that has committed an entry and is sent entries with a gap
between them by a later leader, first in its place and then behind it. -/
def badgered : Life MemoryLog Tally where
  start := member .empty .start 1
  incidents := [
    .input (.append ⟨1, 2, 0, 0, [⟨1, 1, .noOp⟩], 1, 1⟩),
    .input (.append ⟨2, 3, 0, 0, [⟨2, 1, .noOp⟩, ⟨2, 3, .noOp⟩], 2, 1⟩),
    .input (.append ⟨2, 3, 1, 1, [⟨2, 2, .noOp⟩, ⟨2, 4, .noOp⟩], 2, 1⟩)]

theorem badgered_valid : badgered.Valid where
  begins := ⟨1, [1, 2, 3], {}, .empty, .start, numbered_nil, rfl⟩
  possible := Life.possible_of_inputs (by simp [badgered])

/-- The request to replace what is committed changes nothing, though there is a
misnumbered entry in it, too. -/
theorem refused_appends_spare_committed : badgered.Valid ∧ ∃ after,
    badgered.Takes 1
        (.append ⟨2, 3, 0, 0, [⟨2, 1, .noOp⟩, ⟨2, 3, .noOp⟩], 2, 1⟩)
        (.append (.error .protocolError) true) after ∧
      after.commitIndex = 1 ∧ after.lastApplied = 1 ∧
      entries after.log = [⟨1, 1, .noOp⟩] := by
  obtain ⟨after, htakes⟩ : ∃ after, badgered.Takes 1
      (.append ⟨2, 3, 0, 0, [⟨2, 1, .noOp⟩, ⟨2, 3, .noOp⟩], 2, 1⟩)
      (.append (.error .protocolError) true) after := ⟨_, rfl, rfl⟩
  obtain ⟨hspared, hentries⟩ := Life.refused_appends_spare badgered_valid
    htakes (Or.inl rfl)
  refine ⟨badgered_valid, after, htakes, hspared.commitIndex,
    hspared.lastApplied, ?_⟩
  have hconflicts : Conflicts 1 [⟨1, 1, .noOp⟩]
      (consecutive 0 [⟨2, 1, .noOp⟩, ⟨2, 3, .noOp⟩]) :=
    ⟨⟨2, 1, .noOp⟩, by decide, by decide, ⟨1, 1, .noOp⟩, rfl, by decide⟩
  rcases hentries with hsame | ⟨-, -, hpeaceful, -⟩
  · exact hsame
  · exact absurd hconflicts hpeaceful

/-- The request with a gap is refused too, but the entry in front of the gap
stays in the log. -/
theorem refused_appends_spare_misnumbered : badgered.Valid ∧ ∃ after,
    badgered.Takes 2
        (.append ⟨2, 3, 1, 1, [⟨2, 2, .noOp⟩, ⟨2, 4, .noOp⟩], 2, 1⟩)
        (.append (.error .protocolError) true) after ∧
      entries (badgered.node 2).log = [⟨1, 1, .noOp⟩] ∧
      entries after.log = [⟨1, 1, .noOp⟩, ⟨2, 2, .noOp⟩] :=
  ⟨badgered_valid, _, ⟨rfl, rfl⟩, rfl, rfl⟩

end Witness

end SessionRaft
