/-
What is committed at a node stays in its log, and the state of a node is what
its applied entries, one after the other, make of it.
-/
import SessionRaft.Proofs.Standing

namespace SessionRaft

variable {σ : Type}

/-- What is applied was committed, and what is committed is in the log. -/
structure Standing.Settled (standing : Standing σ) : Prop where
  applied : standing.lastApplied ≤ standing.commitIndex
  committed : standing.commitIndex ≤ standing.entries.length

/-- Nothing that was committed or applied is taken back. -/
structure Standing.Advances (before after : Standing σ) : Prop where
  applied : before.lastApplied ≤ after.lastApplied
  committed : before.commitIndex ≤ after.commitIndex
  kept : after.entries.take before.commitIndex =
    before.entries.take before.commitIndex

/-- An executor commits entries one after the other.  In between, clients
acknowledge events. -/
inductive Executor.Commits [StateMachine σ] (start : Executor σ) :
    List LogEntry → Executor σ → Prop where
  | none : Commits start [] start
  | commit {entries : List LogEntry} {executor : Executor σ} (entry : LogEntry)
      (hcommits : Commits start entries executor) :
      Commits start (entries ++ [entry]) (executor.commit entry).1
  | acknowledge {entries : List LogEntry} {executor : Executor σ}
      (session : SessionId) (sequence : Int)
      (hcommits : Commits start entries executor) :
      Commits start entries (executor.acknowledge session sequence)

theorem Executor.Commits.trans [StateMachine σ] {start middle last : Executor σ}
    {first second : List LogEntry} (hfirst : start.Commits first middle)
    (hsecond : middle.Commits second last) :
    start.Commits (first ++ second) last := by
  induction hsecond with
  | none =>
      rw [List.append_nil]
      exact hfirst
  | commit entry _ ih =>
      rw [← List.append_assoc]
      exact ih.commit entry
  | acknowledge session sequence _ ih => exact ih.acknowledge session sequence

namespace Standing.Advances

variable {before middle after : Standing σ}

theorem refl (standing : Standing σ) : standing.Advances standing :=
  ⟨Nat.le_refl _, Nat.le_refl _, rfl⟩

theorem take_eq (hadvances : before.Advances after) {count : Nat}
    (hcount : count ≤ before.commitIndex) :
    after.entries.take count = before.entries.take count :=
  take_eq_of_take_eq hadvances.kept hcount

theorem trans (hfirst : before.Advances middle)
    (hsecond : middle.Advances after) : before.Advances after :=
  ⟨Nat.le_trans hfirst.applied hsecond.applied,
    Nat.le_trans hfirst.committed hsecond.committed,
    (hsecond.take_eq hfirst.committed).trans hfirst.kept⟩

end Standing.Advances

variable [StateMachine σ] {steady : Prop} {input : Input}
  {before after : Standing σ}

theorem Move.settled (hsettled : before.Settled)
    (hmove : Move steady input before after) :
    after.Settled ∧ before.Advances after := by
  obtain ⟨happlied, hcommitted⟩ := hsettled
  cases hmove with
  | extend operation _ =>
      refine ⟨⟨happlied, ?_⟩, Nat.le_refl _, Nat.le_refl _, ?_⟩
      · simp only [List.length_append, List.length_singleton]
        omega
      · exact List.take_append_of_le_length hcommitted
  | merge _ _ _ _ _ hspliced =>
      have hkept := spliced_committed hcommitted hspliced
      refine ⟨⟨happlied, ?_⟩, Nat.le_refl _, Nat.le_refl _, hkept⟩
      have hlength := congrArg List.length hkept
      rw [List.length_take, List.length_take] at hlength
      simp only
      omega
  | hear _ _ hjoined _ hmatched hlt =>
      have hlength := matches_length hjoined.1 hjoined.2.2
      exact ⟨⟨by simp only; omega, Nat.le_trans hmatched hlength⟩,
        Nat.le_refl _, Nat.le_of_lt hlt, rfl⟩
  | commit _ hlt hle _ _ =>
      exact ⟨⟨by simp only; omega, hle⟩, Nat.le_refl _, Nat.le_of_lt hlt, rfl⟩
  | apply hlt _ =>
      exact ⟨⟨hlt, hcommitted⟩, Nat.le_succ _, Nat.le_refl _, rfl⟩
  | _ => exact ⟨⟨happlied, hcommitted⟩, Nat.le_refl _, Nat.le_refl _, rfl⟩

/-- How the state of a node comes to change. -/
theorem Move.executor_cases (hmove : Move steady input before after) :
    (after.lastApplied = before.lastApplied ∧
      (after.executor = before.executor ∨ ∃ session sequence,
        after.executor = before.executor.acknowledge session sequence)) ∨
    ∃ entry, after.lastApplied = before.lastApplied + 1 ∧
      after.entries[before.lastApplied]? = some entry ∧
      after.executor = (before.executor.commit entry).1 := by
  cases hmove with
  | apply _ hentry => exact Or.inr ⟨_, rfl, hentry, rfl⟩
  | acknowledge session sequence =>
      exact Or.inl ⟨rfl, Or.inr ⟨session, sequence, rfl⟩⟩
  | _ => exact Or.inl ⟨rfl, Or.inl rfl⟩

/-- The entries that a node applies between two standings. -/
def Standing.appliedBetween (before after : Standing σ) : List LogEntry :=
  (after.entries.take after.lastApplied).drop before.lastApplied

omit [StateMachine σ] in
/-- What is applied later begins with what was applied before. -/
theorem Standing.Advances.take_applied (hadvances : before.Advances after)
    (hsettled : before.Settled) : after.entries.take after.lastApplied =
      before.entries.take before.lastApplied ++ before.appliedBetween after := by
  have happlied := hadvances.applied
  rw [← hadvances.take_eq hsettled.applied, Standing.appliedBetween]
  have hsplit := List.take_append_drop before.lastApplied
    (after.entries.take after.lastApplied)
  rw [List.take_take, Nat.min_eq_left happlied] at hsplit
  exact hsplit.symm

theorem Moves.settled (hsettled : before.Settled)
    (hmoves : Moves steady input before after) :
    after.Settled ∧ before.Advances after := by
  induction hmoves with
  | refl => exact ⟨hsettled, .refl _⟩
  | tail _ hmove ih =>
      obtain ⟨hmiddle, hadvances⟩ := ih
      obtain ⟨hafter, hstep⟩ := hmove.settled hmiddle
      exact ⟨hafter, hadvances.trans hstep⟩

/-- Moves commit the applied entries, in their order and each once. -/
theorem Moves.commits (hsettled : before.Settled)
    (hmoves : Moves steady input before after) :
    before.executor.Commits (before.appliedBetween after) after.executor := by
  induction hmoves with
  | refl =>
      rw [Standing.appliedBetween, List.drop_eq_nil_of_le (by
        rw [List.length_take]
        omega)]
      exact .none
  | @tail middle last hbefore hmove ih =>
      obtain ⟨hmiddle, hadvances⟩ := Moves.settled hsettled hbefore
      obtain ⟨-, hstep⟩ := hmove.settled hmiddle
      have hkept := hstep.take_eq hmiddle.applied
      rcases hmove.executor_cases with ⟨happlied, hexecutor⟩ |
        ⟨entry, happlied, hentry, hexecutor⟩
      · have hsame : before.appliedBetween last =
            before.appliedBetween middle := by
          rw [Standing.appliedBetween, happlied, hkept]
          rfl
        rw [hsame]
        rcases hexecutor with heq | ⟨session, sequence, heq⟩
        · rwa [heq]
        · rw [heq]
          exact ih.acknowledge session sequence
      · have hone : before.appliedBetween last =
            before.appliedBetween middle ++ [entry] := by
          have hlength : before.lastApplied ≤
              (middle.entries.take middle.lastApplied).length := by
            have happlied := hadvances.applied
            have hle := hmiddle.applied
            have hcommitted := hmiddle.committed
            rw [List.length_take]
            omega
          rw [Standing.appliedBetween, happlied, List.take_add_one, hentry,
            hkept, Option.toList_some, List.drop_append_of_le_length hlength]
          rfl
        rw [hone, hexecutor]
        exact ih.commit entry

end SessionRaft
