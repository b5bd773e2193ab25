/-
What the sequencer knows of the commands of one session, beside its backlog:
the sequences and indices of those of its commands that stand in the log and
are not applied, in the order of the log.
-/
import Mathlib.Data.List.Nodup
import SessionRaft.Proofs.StepMoves

namespace SessionRaft

namespace Table

variable {α : Type}

theorem size_erase_lt {table : Table α} {key : Nat} {value : α}
    (hget : table.get? key = some value) :
    (table.erase key).size < table.size := by
  rw [get?_eq_some_iff] at hget
  apply List.length_filter_lt_length_iff_exists.mpr
  exact ⟨(key, value), hget, by simp⟩

theorem get?_of_isEmpty {table : Table α} (hempty : table.isEmpty = true)
    (key : Nat) : table.get? key = none := by
  have hrows : table.rows = [] := List.isEmpty_iff.mp hempty
  simp [get?, hrows, findRow]

end Table

def Submission.due : Submission → List PendingCommand
  | .ready commands => commands
  | _ => []

namespace Lane

/-- Of the held commands those that follow `last` without a gap have left, and
`final` is the last of them. -/
structure Released (last : Nat) (held : Table PendingCommand) (final : Nat)
    (commands : List PendingCommand) (rest : Table PendingCommand) : Prop where
  final_eq : final = last + commands.length
  commands_eq : ∀ place command, commands[place]? = some command →
    held.get? (last + 1 + place) = some command
  rest_eq : ∀ key, rest.get? key =
    if last < key ∧ key ≤ final then none else held.get? key
  next_eq : rest.get? (final + 1) = none

theorem released_nil {last : Nat} {held : Table PendingCommand}
    (hnext : held.get? (last + 1) = none) : Released last held last [] held where
  final_eq := rfl
  commands_eq place command hcommand := by simp at hcommand
  rest_eq key := by
    rw [if_neg]
    omega
  next_eq := hnext

theorem released_cons {last final : Nat} {held rest : Table PendingCommand}
    {command : PendingCommand} {commands : List PendingCommand}
    (hcommand : held.get? (last + 1) = some command)
    (hreleased : Released (last + 1) (held.erase (last + 1)) final commands
      rest) : Released last held final (command :: commands) rest where
  final_eq := by
    rw [hreleased.final_eq, List.length_cons]
    omega
  commands_eq place later hlater := by
    cases place with
    | zero => simpa [← hlater] using hcommand
    | succ place =>
        rw [List.getElem?_cons_succ] at hlater
        have hheld := hreleased.commands_eq place later hlater
        rw [Table.get?_erase, if_neg (by omega)] at hheld
        rw [← hheld]
        congr 1
        omega
  rest_eq key := by
    have hfinal := hreleased.final_eq
    rw [hreleased.rest_eq key, Table.get?_erase]
    by_cases hkey : key = last + 1
    · rw [if_neg (by omega), if_pos hkey, if_pos (by omega)]
    · rw [if_neg hkey]
      by_cases hle : last + 1 < key ∧ key ≤ final
      · rw [if_pos hle, if_pos (by omega)]
      · rw [if_neg hle, if_neg (by omega)]
  next_eq := hreleased.next_eq

/-- Releasing takes everything that follows without a gap, because the fuel
outlasts the held commands. -/
theorem released_of_release {fuel last final : Nat}
    {held rest : Table PendingCommand} {commands : List PendingCommand}
    (hrelease : release fuel last held = .ok (final, commands, rest))
    (hfuel : held.size < fuel) : Released last held final commands rest := by
  induction fuel generalizing last held commands with
  | zero => exact absurd hfuel (Nat.not_lt_zero _)
  | succ fuel ih =>
      obtain ⟨next, hsuccessor, hrelease⟩ := exists_of_bind hrelease
      have hnext : next = last + 1 := by
        unfold successor at hsuccessor
        split at hsuccessor
        · simp at hsuccessor
        · exact (Except.ok.inj hsuccessor).symm
      subst hnext
      split at hrelease
      · rename_i hnone
        simp only [pure, Except.pure, Except.ok.injEq, Prod.mk.injEq]
          at hrelease
        obtain ⟨rfl, rfl, rfl⟩ := hrelease
        exact released_nil hnone
      · rename_i command hcommand
        obtain ⟨⟨_, more, _⟩, hmore, heq⟩ := exists_of_bind hrelease
        simp only [pure, Except.pure, Except.ok.injEq, Prod.mk.injEq] at heq
        obtain ⟨rfl, rfl, rfl⟩ := heq
        have hsize := Table.size_erase_lt hcommand
        exact released_cons hcommand (ih hmore (by omega))

/-- What becomes of a lane when a command is submitted to it, where the
commands up to `last` are known to have entered the log. -/
inductive Submitted (lane : Lane) (last : Nat) (command : PendingCommand) :
    Lane → Submission → Prop where
  | inFlight {index : Nat} (hle : command.request.sequence ≤ last)
      (hindex : lane.inFlight.get? command.request.sequence = some index) :
      Submitted lane last command { lane with sequenced := some last }
        (.inFlight index command)
  | stale (hle : command.request.sequence ≤ last)
      (hnone : lane.inFlight.get? command.request.sequence = none) :
      Submitted lane last command { lane with sequenced := some last }
        (.stale command)
  | held (hlt : last + 1 < command.request.sequence) :
      Submitted lane last command
        ({ lane with sequenced := some last }.hold command.request.sequence
          command) .held
  | ready {final : Nat} {commands : List PendingCommand}
      {rest : Table PendingCommand}
      (hnext : command.request.sequence = last + 1)
      (hreleased : Released (last + 1) lane.held final commands rest) :
      Submitted lane last command ⟨some final, rest, lane.inFlight⟩
        (.ready (command :: commands))

theorem submitted_of_submit {lane after : Lane} {applied : Nat}
    {command : PendingCommand} {submission : Submission}
    (hsubmit : lane.submit applied command = .ok (after, submission)) :
    Submitted lane (max (lane.sequenced.getD applied) applied) command after
      submission := by
  unfold submit at hsubmit
  dsimp only at hsubmit
  generalize max (lane.sequenced.getD applied) applied = last at hsubmit ⊢
  split at hsubmit
  · rename_i hle
    split at hsubmit
    · rename_i index hindex
      obtain ⟨rfl, rfl⟩ := Prod.mk.inj (Except.ok.inj hsubmit)
      exact .inFlight hle hindex
    · rename_i hnone
      obtain ⟨rfl, rfl⟩ := Prod.mk.inj (Except.ok.inj hsubmit)
      exact .stale hle hnone
  · split at hsubmit
    · rename_i hlt
      obtain ⟨rfl, rfl⟩ := Prod.mk.inj (Except.ok.inj hsubmit)
      exact .held hlt
    · have hnext : command.request.sequence = last + 1 := by omega
      rw [hnext] at hsubmit
      split at hsubmit
      · rename_i hempty
        obtain ⟨rfl, rfl⟩ := Prod.mk.inj (Except.ok.inj hsubmit)
        exact .ready hnext (released_nil (Table.get?_of_isEmpty hempty _))
      · obtain ⟨⟨final, commands, rest⟩, hrelease, heq⟩ :=
          exists_of_bind hsubmit
        obtain ⟨rfl, rfl⟩ := Prod.mk.inj (Except.ok.inj heq)
        exact .ready hnext
          (released_of_release hrelease (Nat.lt_succ_self _))

/-- A command that is in flight is found there. -/
theorem submit_of_inFlight {lane : Lane} {applied top index : Nat}
    {command : PendingCommand} (htop : lane.sequenced = some top)
    (hle : command.request.sequence ≤ top)
    (hindex : lane.inFlight.get? command.request.sequence = some index) :
    lane.submit applied command =
      .ok ({ lane with sequenced := some (max top applied) },
        .inFlight index command) := by
  have hmax : command.request.sequence ≤ max top applied :=
    Nat.le_trans hle (Nat.le_max_left _ _)
  simp only [submit, htop, Option.getD_some, if_pos hmax, hindex]
  rfl

/-- The held commands are commands of the session, each at its own sequence,
and somebody waits for each. -/
def Kept (session : SessionId) (lane : Lane) : Prop :=
  ∀ key command, lane.held.get? key = some command →
    command.request.session = session ∧ command.request.sequence = key ∧
      command.tickets ≠ []

/-- The lane knows every command of a backlog that lies past a mark, and knows
nothing else. -/
structure Covers (lane : Lane) (mark : Nat) (backlog : List (Nat × Nat)) :
    Prop where
  sound : ∀ sequence index, lane.inFlight.get? sequence = some index →
    (sequence, index) ∈ backlog
  complete : ∀ sequence index, (sequence, index) ∈ backlog →
    mark < sequence →
      ∃ last, lane.inFlight.get? sequence = some last ∧ index ≤ last
  reached : ∀ sequence index, (sequence, index) ∈ backlog →
    mark < sequence → ∃ top, lane.sequenced = some top ∧ sequence ≤ top

/-- The commands up to `reach` have entered the log, and every held one still
misses a predecessor. -/
structure InStep (lane : Lane) (reach : Nat) : Prop where
  sequenced : ∀ top, lane.sequenced = some top → top = reach
  held : ∀ key, lane.held.get? key ≠ none → reach + 1 < key

/-- The lane comes from nothing but the commands of a backlog. -/
structure Seeded (lane : Lane) (backlog : List (Nat × Nat)) : Prop where
  covers : lane.Covers 0 backlog
  attained : ∀ top, lane.sequenced = some top →
    ∃ index, (top, index) ∈ backlog
  held : lane.held = .empty

/-- The lane says of a session exactly what its mark and its backlog say. -/
structure Agrees (lane : Lane) (mark : Nat) (backlog : List (Nat × Nat)) :
    Prop where
  sequenced : lane.sequenced = some (mark + backlog.length) ∨
    lane.sequenced = none ∧ backlog = []
  inFlight : ∀ sequence index, lane.inFlight.get? sequence = some index ↔
    (sequence, index) ∈ backlog
  held : ∀ sequence, lane.held.get? sequence ≠ none →
    mark + backlog.length + 1 < sequence

section Submitting

variable {lane after : Lane} {last : Nat} {command : PendingCommand}
  {submission : Submission} {session : SessionId}

theorem Submitted.inFlight_eq
    (hsubmitted : Submitted lane last command after submission) :
    after.inFlight = lane.inFlight := by
  cases hsubmitted <;> rfl

theorem Submitted.sequenced_eq
    (hsubmitted : Submitted lane last command after submission) :
    after.sequenced = some (last + submission.due.length) := by
  cases hsubmitted with
  | ready hnext hreleased =>
      simp only [hreleased.final_eq, Submission.due, List.length_cons]
      congr 1
      omega
  | _ => rfl

theorem Kept.hold (hkept : lane.Kept session)
    (hsession : command.request.session = session)
    (htickets : command.tickets ≠ []) :
    (lane.hold command.request.sequence command).Kept session := by
  intro key found hfound
  simp only [Lane.hold, Table.get?_insert] at hfound
  split at hfound
  · rename_i hkey
    subst hkey
    cases hheld : lane.held.get? command.request.sequence with
    | none =>
        simp only [hheld, Option.some.injEq] at hfound
        subst hfound
        exact ⟨hsession, rfl, htickets⟩
    | some held =>
        obtain ⟨hsame, hsequence, -⟩ := hkept _ held hheld
        simp only [hheld, Option.some.injEq] at hfound
        subst hfound
        exact ⟨hsame, hsequence, by simp [htickets]⟩
  · exact hkept key found hfound

theorem Kept.submitted (hkept : lane.Kept session)
    (hsession : command.request.session = session)
    (htickets : command.tickets ≠ [])
    (hsubmitted : Submitted lane last command after submission) :
    after.Kept session := by
  cases hsubmitted with
  | inFlight _ _ => exact hkept
  | stale _ _ => exact hkept
  | held _ =>
      have hraised : Kept session { lane with sequenced := some last } := hkept
      exact hraised.hold hsession htickets
  | ready _ hreleased =>
      intro key found hfound
      rw [hreleased.rest_eq] at hfound
      split at hfound
      · simp at hfound
      · exact hkept key found hfound

/-- The commands that are due are commands of the session and carry the
sequences that follow. -/
theorem Kept.due (hkept : lane.Kept session)
    (hsession : command.request.session = session)
    (htickets : command.tickets ≠ [])
    (hsubmitted : Submitted lane last command after submission) :
    ∀ place due, submission.due[place]? = some due →
      due.request.session = session ∧
        due.request.sequence = last + 1 + place ∧ due.tickets ≠ [] := by
  intro place due hdue
  cases hsubmitted with
  | ready hnext hreleased =>
      cases place with
      | zero =>
          simp only [Submission.due, List.getElem?_cons_zero,
            Option.some.injEq] at hdue
          subst hdue
          exact ⟨hsession, hnext, htickets⟩
      | succ place =>
          simp only [Submission.due, List.getElem?_cons_succ] at hdue
          obtain ⟨hsame, hsequence, hwaits⟩ :=
            hkept _ due (hreleased.commands_eq place due hdue)
          exact ⟨hsame, by omega, hwaits⟩
  | _ => simp [Submission.due] at hdue

/-- Somebody waits for each command that is due. -/
theorem Kept.due_waited (hkept : lane.Kept session)
    (hsession : command.request.session = session)
    (htickets : command.tickets ≠ [])
    (hsubmitted : Submitted lane last command after submission) :
    ∀ due ∈ submission.due, due.tickets ≠ [] := by
  intro due hdue
  obtain ⟨place, hplace⟩ := List.mem_iff_getElem?.mp hdue
  exact (hkept.due hsession htickets hsubmitted place due hplace).2.2

theorem InStep.submitted (hstep : lane.InStep last)
    (hsubmitted : Submitted lane last command after submission) :
    after.InStep (last + submission.due.length) := by
  refine ⟨fun top htop => ?_, fun key hkey => ?_⟩
  · rw [hsubmitted.sequenced_eq] at htop
    exact (Option.some.inj htop).symm
  · cases hsubmitted with
    | inFlight _ _ => exact hstep.held key hkey
    | stale _ _ => exact hstep.held key hkey
    | held hlt =>
        simp only [Lane.hold, Table.get?_insert] at hkey
        split at hkey
        · rename_i heq
          exact heq ▸ hlt
        · exact hstep.held key hkey
    | ready _ hreleased =>
        have hfinal := hreleased.final_eq
        rename_i final commands rest _
        have hne : key ≠ final + 1 := by
          rintro rfl
          exact hkey hreleased.next_eq
        simp only [hreleased.rest_eq] at hkey
        split at hkey
        · exact absurd rfl hkey
        · have hlt := hstep.held key hkey
          simp only [Submission.due, List.length_cons]
          omega

theorem Covers.submitted {mark : Nat} {backlog : List (Nat × Nat)}
    (hcovers : lane.Covers mark backlog)
    (hlast : ∀ top, lane.sequenced = some top → top ≤ last)
    (hsubmitted : Submitted lane last command after submission) :
    after.Covers mark backlog where
  sound := hsubmitted.inFlight_eq ▸ hcovers.sound
  complete := hsubmitted.inFlight_eq ▸ hcovers.complete
  reached sequence index hmem hlt := by
    obtain ⟨top, htop, hle⟩ := hcovers.reached sequence index hmem hlt
    have htopLast := hlast top htop
    exact ⟨_, hsubmitted.sequenced_eq, by omega⟩

end Submitting

theorem kept_empty (session : SessionId) : Lane.empty.Kept session := by
  intro key command hcommand
  simp [Lane.empty] at hcommand

theorem InStep.congr {before after : Lane} {reach : Nat}
    (hstep : before.InStep reach) (hsequenced : after.sequenced = before.sequenced)
    (hheld : after.held = before.held) : after.InStep reach :=
  ⟨hsequenced ▸ hstep.sequenced, hheld ▸ hstep.held⟩

theorem seeded_empty : Lane.empty.Seeded [] where
  covers :=
    { sound := fun _ _ hindex => by simp [Lane.empty] at hindex
      complete := by simp
      reached := by simp }
  attained _ htop := by simp [Lane.empty] at htop
  held := rfl

section Backlog

variable {lane : Lane} {mark sequence index : Nat}
  {backlog : List (Nat × Nat)}

theorem Covers.mono {higher : Nat} (hcovers : lane.Covers mark backlog)
    (hle : mark ≤ higher) : lane.Covers higher backlog where
  sound := hcovers.sound
  complete sequence index hmem hlt :=
    hcovers.complete sequence index hmem (Nat.lt_of_le_of_lt hle hlt)
  reached sequence index hmem hlt :=
    hcovers.reached sequence index hmem (Nat.lt_of_le_of_lt hle hlt)

/-- A command has been appended behind the backlog. -/
theorem Covers.append (hcovers : lane.Covers mark backlog)
    (hbound : ∀ row ∈ backlog, row.2 ≤ index)
    (htop : ∃ top, lane.sequenced = some top ∧ sequence ≤ top) :
    { lane with inFlight := lane.inFlight.insert sequence index }.Covers mark
      (backlog ++ [(sequence, index)]) where
  sound found place hfound := by
    rw [Table.get?_insert] at hfound
    split at hfound
    · rename_i heq
      simp only [Option.some.injEq] at hfound
      simp [heq, hfound]
    · exact List.mem_append_left _ (hcovers.sound found place hfound)
  complete found place hmem hlt := by
    simp only [Table.get?_insert]
    rcases List.mem_append.mp hmem with hmem | hmem
    · split
      · exact ⟨index, rfl, hbound _ hmem⟩
      · exact hcovers.complete found place hmem hlt
    · obtain ⟨rfl, rfl⟩ := Prod.mk.inj (List.mem_singleton.mp hmem)
      exact ⟨place, if_pos rfl, Nat.le_refl _⟩
  reached found place hmem hlt := by
    rcases List.mem_append.mp hmem with hmem | hmem
    · exact hcovers.reached found place hmem hlt
    · obtain ⟨rfl, rfl⟩ := Prod.mk.inj (List.mem_singleton.mp hmem)
      exact htop

/-- The first command of the backlog has been applied. -/
theorem Covers.applied (hcovers : lane.Covers mark ((sequence, index) :: backlog)) :
    { lane with inFlight := lane.inFlight.erase sequence }.Covers
      (max mark sequence) backlog where
  sound found place hfound := by
    rw [Table.get?_erase] at hfound
    split at hfound
    · simp at hfound
    · rename_i hne
      rcases List.mem_cons.mp (hcovers.sound found place hfound) with heq | hmem
      · exact absurd (Prod.mk.inj heq).1 hne
      · exact hmem
  complete found place hmem hlt := by
    simp only [Table.get?_erase]
    rw [if_neg (by omega)]
    exact hcovers.complete found place (List.mem_cons_of_mem _ hmem) (by omega)
  reached found place hmem hlt :=
    hcovers.reached found place (List.mem_cons_of_mem _ hmem) (by omega)

/-- Take note that a command of the lane was applied, if one was. -/
def settle (lane : Lane) : Option Nat → Lane
  | none => lane
  | some sequence => { lane with inFlight := lane.inFlight.erase sequence }

theorem Covers.settle {sequence? : Option Nat}
    (hcovers : lane.Covers mark
      ((sequence?.map (fun sequence => (sequence, index))).toList ++ backlog)) :
    (lane.settle sequence?).Covers (max mark (sequence?.getD 0)) backlog := by
  cases sequence? with
  | none => exact hcovers.mono (Nat.le_max_left _ _)
  | some sequence => exact hcovers.applied

theorem InStep.settle {reach : Nat} (hstep : lane.InStep reach)
    (sequence? : Option Nat) : (lane.settle sequence?).InStep reach := by
  cases sequence? <;> exact hstep.congr rfl rfl

/-- Note a command of the backlog that an earlier leader left. -/
def seed (lane : Lane) (sequence index : Nat) : Lane :=
  { lane with
    sequenced := some (max (lane.sequenced.getD 0) sequence)
    inFlight := lane.inFlight.insert sequence index }

theorem Seeded.seed (hseeded : lane.Seeded backlog)
    (hbound : ∀ row ∈ backlog, row.2 ≤ index) :
    (lane.seed sequence index).Seeded (backlog ++ [(sequence, index)]) where
  covers := by
    have hraised : Covers { lane with
        sequenced := some (max (lane.sequenced.getD 0) sequence) } 0 backlog :=
      { sound := hseeded.covers.sound
        complete := hseeded.covers.complete
        reached := fun found place hmem hlt => by
          obtain ⟨top, htop, hle⟩ :=
            hseeded.covers.reached found place hmem hlt
          refine ⟨_, rfl, ?_⟩
          rw [htop, Option.getD_some]
          exact Nat.le_trans hle (Nat.le_max_left _ _) }
    exact hraised.append hbound ⟨_, rfl, Nat.le_max_right _ _⟩
  attained top htop := by
    have hmax : max (lane.sequenced.getD 0) sequence = top :=
      Option.some.inj htop
    cases hsequenced : lane.sequenced with
    | none =>
        rw [hsequenced, Option.getD_none, Nat.zero_max] at hmax
        exact ⟨index, by simp [hmax]⟩
    | some before =>
        rw [hsequenced, Option.getD_some] at hmax
        rcases Nat.le_total before sequence with hle | hle
        · rw [Nat.max_eq_right hle] at hmax
          exact ⟨index, by simp [hmax]⟩
        · rw [Nat.max_eq_left hle] at hmax
          obtain ⟨place, hplace⟩ := hseeded.attained before hsequenced
          exact ⟨place, List.mem_append_left _ (hmax ▸ hplace)⟩
  held := hseeded.held

/-- The sequences of a backlog that is in order lie just past the mark. -/
theorem mem_range_of_mem
    (horder : backlog.map Prod.fst = List.range' (mark + 1) backlog.length)
    (hmem : (sequence, index) ∈ backlog) :
    mark < sequence ∧ sequence ≤ mark + backlog.length := by
  have hrange : sequence ∈ List.range' (mark + 1) backlog.length :=
    horder ▸ List.mem_map_of_mem hmem
  rw [List.mem_range'_1] at hrange
  omega

/-- Once its first command has been applied, an ordered backlog is in order
past a higher mark and reaches as far as before. -/
theorem ordered_rest {sequence? : Option Nat}
    (horder : ((sequence?.map (fun sequence => (sequence, index))).toList ++
        backlog).map Prod.fst =
      List.range' (mark + 1) ((sequence?.map
        (fun sequence => (sequence, index))).toList ++ backlog).length) :
    backlog.map Prod.fst =
        List.range' (max mark (sequence?.getD 0) + 1) backlog.length ∧
      max mark (sequence?.getD 0) + backlog.length =
        mark + ((sequence?.map (fun sequence => (sequence, index))).toList ++
          backlog).length := by
  cases sequence? with
  | none => exact ⟨by simpa using horder, by simp⟩
  | some sequence =>
      simp only [Option.map_some, Option.toList_some, List.singleton_append,
        List.map_cons, List.length_cons, List.range'_succ,
        List.cons.injEq] at horder
      obtain ⟨rfl, hrest⟩ := horder
      simp only [Option.getD_some, Option.map_some, Option.toList_some,
        List.singleton_append, List.length_cons,
        Nat.max_eq_right (Nat.le_succ mark)]
      exact ⟨hrest, by omega⟩

theorem Seeded.inStep (hseeded : lane.Seeded backlog)
    (horder : backlog.map Prod.fst =
      List.range' (mark + 1) backlog.length) :
    lane.InStep (mark + backlog.length) where
  sequenced top htop := by
    obtain ⟨index, hmem⟩ := hseeded.attained top htop
    obtain ⟨hlt, hle⟩ := mem_range_of_mem horder hmem
    -- The last command of the backlog is the one at the reach.
    have hlast : mark + backlog.length ∈ backlog.map Prod.fst := by
      rw [horder, List.mem_range'_1]
      omega
    obtain ⟨⟨last, place⟩, hrow, hreach⟩ := List.mem_map.mp hlast
    simp only at hreach
    obtain ⟨_, htop', hlastLe⟩ :=
      hseeded.covers.reached last place hrow (by omega)
    rw [htop, Option.some.injEq] at htop'
    omega
  held key hkey := by simp [hseeded.held] at hkey

/-- Where a lane in step takes the commands of its session to have entered the
log up to. -/
theorem Agrees.last_eq (hagrees : lane.Agrees mark backlog) :
    max (lane.sequenced.getD mark) mark = mark + backlog.length := by
  rcases hagrees.sequenced with hsome | ⟨hnone, hnil⟩
  · rw [hsome, Option.getD_some]
    omega
  · simp [hnone, hnil]

/-- A lane that covers an ordered backlog and is in step with it agrees with
it. -/
theorem Covers.agrees (hcovers : lane.Covers mark backlog)
    (hstep : lane.InStep (mark + backlog.length))
    (horder : backlog.map Prod.fst =
      List.range' (mark + 1) backlog.length) :
    lane.Agrees mark backlog where
  sequenced := by
    cases hsequenced : lane.sequenced with
    | some top => exact Or.inl (by rw [hstep.sequenced top hsequenced])
    | none =>
        refine Or.inr ⟨rfl, List.eq_nil_iff_forall_not_mem.mpr ?_⟩
        rintro ⟨sequence, index⟩ hmem
        obtain ⟨top, htop, -⟩ := hcovers.reached sequence index hmem
          (mem_range_of_mem horder hmem).1
        simp [hsequenced] at htop
  inFlight sequence index := by
    refine ⟨hcovers.sound sequence index, fun hmem => ?_⟩
    obtain ⟨last, hlast, -⟩ := hcovers.complete sequence index hmem
      (mem_range_of_mem horder hmem).1
    have hnodup : (backlog.map Prod.fst).Nodup := horder ▸ List.nodup_range'
    have hsame : (sequence, last) = (sequence, index) :=
      List.inj_on_of_nodup_map hnodup (hcovers.sound sequence last hlast) hmem
        rfl
    rw [hlast, (Prod.mk.inj hsame).2]
  held := hstep.held

end Backlog

end Lane

namespace Sequencer

theorem lane_setLane (sequencer : Sequencer) (session : SessionId)
    (lane : Lane) : (sequencer.setLane session lane).lane =
      Function.update sequencer.lane session lane := by
  funext other
  rw [Function.update_apply]
  simp only [Sequencer.lane, setLane, Table.getD, Table.get?_insert]
  split <;> rfl

theorem lane_appended (sequencer : Sequencer) (session : SessionId)
    (sequence index : Nat) : (sequencer.appended session sequence index).lane =
      Function.update sequencer.lane session
        { sequencer.lane session with
          inFlight :=
            (sequencer.lane session).inFlight.insert sequence index } :=
  sequencer.lane_setLane session _

theorem lane_seed (sequencer : Sequencer) (session : SessionId)
    (sequence index : Nat) : (sequencer.seed session sequence index).lane =
      Function.update sequencer.lane session
        ((sequencer.lane session).seed sequence index) := by
  rw [seed, lane_appended, lane_setLane, Function.update_self,
    Function.update_idem]
  rfl

theorem lane_applied (sequencer : Sequencer) (session : SessionId)
    (sequence : Nat) : (sequencer.applied session sequence).lane =
      Function.update sequencer.lane session
        { sequencer.lane session with
          inFlight := (sequencer.lane session).inFlight.erase sequence } := by
  funext other
  rw [Function.update_apply]
  simp only [Sequencer.lane, applied, Table.getD, Table.get?_modify]
  split
  · rename_i heq
    subst heq
    cases sequencer.lanes.get? other <;> rfl
  · rfl

theorem lane_forget (sequencer : Sequencer) (session : SessionId) :
    (sequencer.forget session).1.lane =
      Function.update sequencer.lane session .empty := by
  funext other
  rw [Function.update_apply]
  simp only [Sequencer.lane, forget, Table.getD, Table.get?_erase]
  split <;> rfl

theorem submitted_of_submit {sequencer after : Sequencer}
    {applied : Nat} {command : PendingCommand} {submission : Submission}
    (hsubmit : sequencer.submit applied command = .ok (after, submission)) :
    ∃ lane, after = sequencer.setLane command.request.session lane ∧
      Lane.Submitted (sequencer.lane command.request.session)
        (max ((sequencer.lane command.request.session).sequenced.getD applied)
          applied) command lane submission := by
  obtain ⟨⟨lane, _⟩, hlane, hset⟩ := exists_of_bind hsubmit
  obtain ⟨rfl, rfl⟩ := Prod.mk.inj (Except.ok.inj hset)
  exact ⟨lane, rfl, Lane.submitted_of_submit hlane⟩

end Sequencer

end SessionRaft
