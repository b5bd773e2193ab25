/-
Logs that hold entries of one index and one term are equal up to there, in
every run that begins with empty logs, whatever becomes of messages and nodes
and whichever write fails.
-/
import SessionRaft.Proofs.ElectionSafety
import SessionRaft.Proofs.LogMatching

namespace SessionRaft

/-- What is remembered of elections and logs can be carried on. -/
theorem Matching.steps {σ : Type} [StateMachine σ] {members : List NodeId}
    {chron next : Chronicle σ} {steady : Prop}
    (helections : Elections members chron) (hmatching : Matching members chron)
    (hsteps : Chronicle.Steps steady members chron next) :
    Elections members next ∧ Matching members next ∧ chron.Grown next := by
  induction hsteps with
  | refl => exact ⟨helections, hmatching, .refl chron⟩
  | tail _ hstep ih =>
      obtain ⟨hmiddle, hmiddleMatching, hgrown⟩ := ih
      obtain ⟨hnext, hmore⟩ := hmiddleMatching.step hmiddle hstep
      exact ⟨(hmiddle.step hstep).1, hnext, hgrown.trans hmore⟩

namespace Run

open FaithfulLog

variable {L σ : Type} [LogStore L] [FaithfulLog L] [StateMachine σ]
  {run : Run L σ}

/-- A run whose members begin with empty logs. -/
def BeginsEmpty (run : Run L σ) : Prop :=
  ∀ id ∈ run.members, LogStore.lastIndex (run.start.nodes id).log = 0

/-- What is remembered of the logs at a time is still true later. -/
theorem Valid.matching (hvalid : run.Valid) (hempty : run.BeginsEmpty)
    {first second : Nat} (hle : first ≤ second) :
    ∃ chron later : Chronicle σ,
      chron.scene = (run.network first).scene ∧
      later.scene = (run.network second).scene ∧
      Matching run.members chron ∧ Matching run.members later ∧
      chron.Grown later := by
  obtain ⟨chron, hsteps, hscene⟩ :=
    hvalid.chronicled run.stores_false first
  obtain ⟨later, hmore, hlater⟩ := hvalid.carried run.stores_false hle hscene
  have hbegins : Matching run.members
      (Chronicle.first (run.network 0).scene) := by
    refine .first hvalid.scene_begins (fun id hid => ?_)
    apply List.eq_nil_of_length_eq_zero
    exact (lastIndex_eq_length (hvalid.sane 0 id hid).1).symm.trans
      (hempty id hid)
  obtain ⟨helections, hmatching, -⟩ :=
    hbegins.steps (.first hvalid.scene_begins) hsteps
  obtain ⟨-, hlaterMatching, hgrown⟩ := hmatching.steps helections hmore
  exact ⟨chron, later, hscene, hlater, hmatching, hlaterMatching, hgrown⟩

/-- The entries of a member that are remembered at a time follow the logs of
leaders. -/
theorem follows_of_matching {chron : Chronicle σ} {time : Nat} {id : NodeId}
    (hscene : chron.scene = (run.network time).scene) (hid : id ∈ run.members)
    (hmatching : Matching run.members chron) :
    chron.Follows (entries (run.node time id).log) := by
  have hfollows := (hmatching.copied id hid).follows
  rw [Chronicle.standing, hscene] at hfollows
  exact hfollows

/-- Two logs, the second no earlier than the first, agree up to a place at
which they hold entries of one term. -/
theorem Valid.take_eq_of_term_eq (hvalid : run.Valid)
    (hempty : run.BeginsEmpty) {first second : Nat} (hle : first ≤ second)
    {id other : NodeId} (hid : id ∈ run.members) (hother : other ∈ run.members)
    {place : Nat} {entry another : LogEntry}
    (hentry : (entries (run.node first id).log)[place]? = some entry)
    (hanother : (entries (run.node second other).log)[place]? = some another)
    (hterm : entry.term = another.term) :
    (entries (run.node first id).log).take (place + 1) =
      (entries (run.node second other).log).take (place + 1) := by
  obtain ⟨chron, later, hscene, hlater, hmatching, hlaterMatching, hgrown⟩ :=
    hvalid.matching hempty hle
  -- What the leaders of the earlier time had is only extended, so both logs
  -- follow the leaders that are remembered at the later one.
  have hfirst := (follows_of_matching hscene hid hmatching).mono hgrown
  exact hfirst.matching (follows_of_matching hlater hother hlaterMatching)
    hentry hanother hterm

/-- Log matching. -/
theorem log_matching (hvalid : run.Valid) (hempty : run.BeginsEmpty)
    {first second : Nat} {id other : NodeId} (hid : id ∈ run.members)
    (hother : other ∈ run.members) {index : Nat} {entry another : LogEntry}
    (hentry : LogStore.get? (run.node first id).log index = some entry)
    (hanother : LogStore.get? (run.node second other).log index = some another)
    (hterm : entry.term = another.term) :
    ∀ smaller ≤ index, LogStore.get? (run.node first id).log smaller =
      LogStore.get? (run.node second other).log smaller := by
  have hsound : Sound (run.node first id).log := (hvalid.sane first id hid).1
  have hsoundOther : Sound (run.node second other).log :=
    (hvalid.sane second other hother).1
  rintro (_ | smaller) hsmaller
  · rw [get?_eq hsound, get?_eq hsoundOther]
    rfl
  obtain ⟨place, rfl⟩ : ∃ place, index = place + 1 := ⟨index - 1, by omega⟩
  rw [get?_succ hsound] at hentry ⊢
  rw [get?_succ hsoundOther] at hanother ⊢
  have htake : (entries (run.node first id).log).take (place + 1) =
      (entries (run.node second other).log).take (place + 1) := by
    rcases Nat.le_total first second with hle | hle
    · exact hvalid.take_eq_of_term_eq hempty hle hid hother hentry hanother
        hterm
    · exact (hvalid.take_eq_of_term_eq hempty hle hother hid hanother hentry
        hterm.symm).symm
  exact getElem?_eq_of_take_eq htake hsmaller

end Run

namespace Witness

open FaithfulLog

/-- The first two entries of a leader. -/
def openingEntries : List LogEntry :=
  [⟨1, 1, .noOp⟩, ⟨1, 2, .register 7 60000 0⟩]

/-- A run in which a follower stores the first of two entries and then fails. -/
def interrupted : Run (Faulty MemoryLog) Tally where
  members := [1, 2, 3]
  start :=
    { nodes := fun id => member
        ⟨.empty, if id = 2 then { append := some 1 } else .none⟩ .start id
      sent := [] }
  happenings := [
    .input 1 .electionTimeout,
    .delivery ⟨1, 2, .vote ⟨1, 1, 0, 0⟩⟩,
    .delivery ⟨2, 1, .voteResponse (.ok ⟨1, true⟩)⟩,
    .input 1 (.register 1 ⟨7, 60000⟩),
    .delivery ⟨1, 2, .append ⟨1, 1, 0, 0, openingEntries, 0, 2⟩⟩]

theorem interrupted_valid : interrupted.Valid where
  distinct := by decide
  begins id hid := by
    have hcases : id = 1 ∨ id = 2 ∨ id = 3 := by
      simpa [interrupted] using hid
    refine ⟨{}, ⟨.empty, if id = 2 then { append := some 1 } else .none⟩,
      .start, ?_, ?_⟩
    · rcases hcases with rfl | rfl | rfl <;> exact ⟨rfl, rfl, rfl, numbered_nil⟩
    · rcases hcases with rfl | rfl | rfl <;> rfl
  silent := rfl
  possible time happening hhappening := by
    rcases time with _ | _ | _ | _ | _ | time
    all_goals simp only [interrupted, List.getElem?_cons_succ,
      List.getElem?_cons_zero, List.getElem?_nil, Option.some.injEq,
      reduceCtorEq] at hhappening
    all_goals subst hhappening
    all_goals exact ⟨by decide, by decide⟩

/-- The follower holds less than the leader, and what it holds is the same. -/
theorem log_matching_interrupted : interrupted.Valid ∧
    interrupted.BeginsEmpty ∧
    LogStore.lastIndex (interrupted.node 5 1).log = 2 ∧
    LogStore.lastIndex (interrupted.node 5 2).log = 1 ∧
    ∀ smaller ≤ 1, LogStore.get? (interrupted.node 5 1).log smaller =
      LogStore.get? (interrupted.node 5 2).log smaller :=
  ⟨interrupted_valid, fun _ _ => rfl, rfl, rfl,
    Run.log_matching interrupted_valid (fun _ _ => rfl) (by decide) (by decide)
      (show _ = some ⟨1, 1, .noOp⟩ from rfl)
      (show _ = some ⟨1, 1, .noOp⟩ from rfl) rfl⟩

end Witness

end SessionRaft
