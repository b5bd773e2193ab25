/-
Commands against the order of their arrival.  However the commands of a
session come in, early, late or again and again, and whatever other sessions
do meanwhile, the sequencer lets them out one after the other, without a gap
and each once; what still misses a predecessor is held, and a repeat of what
has left is handed back.
-/
import SessionRaft.Proofs.Lanes

namespace SessionRaft

/-! ### Submitting within machine words -/

namespace Lane

theorem release_ok {fuel last : Nat} {held : Table PendingCommand}
    (hlast : last < wordMax)
    (hheld : ∀ key, held.get? key ≠ none → key < wordMax) :
    ∃ released, release fuel last held = .ok released := by
  induction fuel generalizing last held with
  | zero => exact ⟨_, rfl⟩
  | succ fuel ih =>
      simp only [release, successor, if_neg (Nat.ne_of_lt hlast), bind,
        Except.bind]
      cases hnext : held.get? (last + 1) with
      | none => exact ⟨_, rfl⟩
      | some command =>
          have hword : last + 1 < wordMax :=
            hheld (last + 1) (by rw [hnext]; exact Option.some_ne_none command)
          have hrest : ∀ key, (held.erase (last + 1)).get? key ≠ none →
              key < wordMax := by
            intro key hkey
            rw [Table.get?_erase] at hkey
            split at hkey
            · exact absurd rfl hkey
            · exact hheld key hkey
          obtain ⟨released, hreleased⟩ := ih hword hrest
          rw [hreleased]
          exact ⟨_, rfl⟩

/-- A submission overflows only at the last machine word. -/
theorem submit_ok {lane : Lane} {command : PendingCommand} (applied : Nat)
    (hword : command.request.sequence < wordMax)
    (hheld : ∀ key, lane.held.get? key ≠ none → key < wordMax) :
    ∃ outcome, lane.submit applied command = .ok outcome := by
  unfold submit
  dsimp only
  split
  · split <;> exact ⟨_, rfl⟩
  · split
    · exact ⟨_, rfl⟩
    · split
      · exact ⟨_, rfl⟩
      · obtain ⟨released, hreleased⟩ : ∃ released,
            release (lane.held.size + 1) command.request.sequence lane.held =
              .ok released := release_ok hword hheld
        rw [hreleased]
        exact ⟨_, rfl⟩

end Lane

/-! ### Traffic -/

/-- What a sequencer is told. -/
inductive Traffic where
  | submit (applied : Nat) (command : PendingCommand)
  | appended (session : SessionId) (sequence index : Nat)
  | applied (session : SessionId) (sequence : Nat)
  | seed (session : SessionId) (sequence index : Nat)
  | forget (session : SessionId)

def Submission.returned : Submission → List PendingCommand
  | .inFlight _ command | .stale command => [command]
  | _ => []

/-- What a session has put into the sequencer, and where it has come out. -/
structure Intake where
  submitted : List PendingCommand
  released : List PendingCommand
  returned : List PendingCommand
  /-- The log index of every command that was noted as appended and has not
  been noted as applied since. -/
  placed : Nat → Option Nat

namespace Intake

def start : Intake := ⟨[], [], [], fun _ => none⟩

/-- Take down a command and what came of it. -/
def enter (intake : Intake) (command : PendingCommand)
    (submission : Submission) : Intake :=
  { intake with
    submitted := intake.submitted ++ [command]
    released := intake.released ++ submission.due
    returned := intake.returned ++ submission.returned }

/-- Take down where a command stands in the log, or that it has been applied. -/
def place (intake : Intake) (sequence : Nat) (index : Option Nat) : Intake :=
  { intake with placed := Function.update intake.placed sequence index }

end Intake

/-- The commands of a sequence. -/
def slot (sequence : Nat) (commands : List PendingCommand) :
    List PendingCommand :=
  commands.filter (fun command => command.request.sequence = sequence)

namespace Sequencer

/-- Tell the sequencer something, and keep an account of one session. -/
def serve (session : SessionId) (sequencer : Sequencer) (intake : Intake) :
    Traffic → Except Overflow (Sequencer × Intake)
  | .submit applied command => do
      let (sequencer, submission) ← sequencer.submit applied command
      return (sequencer, if command.request.session = session then
        intake.enter command submission else intake)
  | .appended owner sequence index =>
      .ok (sequencer.appended owner sequence index,
        if owner = session then intake.place sequence (some index) else intake)
  | .applied owner sequence =>
      .ok (sequencer.applied owner sequence,
        if owner = session then intake.place sequence none else intake)
  | .seed owner sequence index =>
      .ok (sequencer.seed owner sequence index, intake)
  | .forget owner => .ok ((sequencer.forget owner).1, intake)

def serveAll (session : SessionId) (sequencer : Sequencer) (intake : Intake) :
    List Traffic → Except Overflow (Sequencer × Intake)
  | [] => .ok (sequencer, intake)
  | first :: later => do
      let (sequencer, intake) ← sequencer.serve session intake first
      sequencer.serveAll session intake later

end Sequencer

/-- The session whose commands had been applied up to `mark` at the start
submits commands beyond that, and tells of an applied sequence between the mark
and what it has been let out.  It is neither seeded nor forgotten. -/
def Traffic.Proper (session : SessionId) (mark : Nat) (intake : Intake) :
    Traffic → Prop
  | submit told command => command.request.session = session →
      (mark < command.request.sequence ∧ command.request.sequence < wordMax) ∧
        mark ≤ told ∧ told ≤ mark + intake.released.length
  | appended .. | applied .. => True
  | seed owner .. | forget owner => owner ≠ session

/-- All traffic is proper as it comes. -/
def Sequencer.Properly (session : SessionId) (mark : Nat)
    (sequencer : Sequencer) (intake : Intake) : List Traffic → Prop
  | [] => True
  | first :: later => first.Proper session mark intake ∧
      ∀ after account, sequencer.serve session intake first = .ok (after, account) →
        after.Properly session mark account later

theorem Sequencer.Properly.cons {session : SessionId} {mark : Nat}
    {sequencer after : Sequencer} {intake account : Intake} {first : Traffic}
    {later : List Traffic} (hfirst : first.Proper session mark intake)
    (hserve : sequencer.serve session intake first = .ok (after, account))
    (hlater : after.Properly session mark account later) :
    sequencer.Properly session mark intake (first :: later) := by
  refine ⟨hfirst, fun other last hother => ?_⟩
  obtain ⟨rfl, rfl⟩ := Prod.mk.inj (Except.ok.inj (hserve.symm.trans hother))
  exact hlater

/-! ### The commands of a sequence -/

/-- Two series of commands that begin with the same request and have the same
waiting for them. -/
structure Alike (left right : List PendingCommand) : Prop where
  request : left.head?.map (·.request) = right.head?.map (·.request)
  tickets : left.flatMap (·.tickets) = right.flatMap (·.tickets)

namespace Alike

variable {left middle right : List PendingCommand}

theorem refl (commands : List PendingCommand) : Alike commands commands :=
  ⟨rfl, rfl⟩

theorem trans (hleft : Alike left middle) (hright : Alike middle right) :
    Alike left right :=
  ⟨hleft.request.trans hright.request, hleft.tickets.trans hright.tickets⟩

theorem append (halike : Alike left right) (commands : List PendingCommand) :
    Alike (left ++ commands) (right ++ commands) where
  request := by
    have hrequest := halike.request
    cases left <;> cases right <;> simp at hrequest ⊢
    exact hrequest
  tickets := by simp only [List.flatMap_append, halike.tickets]

end Alike

section Slots

variable {sequence : Nat}

theorem slot_append (sequence : Nat) (first second : List PendingCommand) :
    slot sequence (first ++ second) = slot sequence first ++ slot sequence second :=
  List.filter_append _ _

theorem slot_cons (sequence : Nat) (command : PendingCommand)
    (commands : List PendingCommand) :
    slot sequence (command :: commands) =
      slot sequence [command] ++ slot sequence commands :=
  slot_append sequence [command] commands

theorem slot_eq_nil {commands : List PendingCommand}
    (hnone : ∀ command ∈ commands, command.request.sequence ≠ sequence) :
    slot sequence commands = [] := by
  simpa [slot, List.filter_eq_nil_iff] using hnone

theorem slot_singleton {command : PendingCommand}
    (hsequence : command.request.sequence = sequence) :
    slot sequence [command] = [command] := by
  simp [slot, hsequence]

theorem slot_singleton_of_ne {command : PendingCommand}
    (hsequence : sequence ≠ command.request.sequence) :
    slot sequence [command] = [] := by
  simp [slot, Ne.symm hsequence]

theorem slot_ne_nil_iff {commands : List PendingCommand} :
    slot sequence commands ≠ [] ↔
      ∃ command ∈ commands, command.request.sequence = sequence := by
  simp [slot, List.filter_eq_nil_iff]

/-- Of commands whose sequences follow one another each slot has one. -/
theorem slot_of_consecutive {first : Nat} {commands : List PendingCommand}
    (hconsecutive : commands.map (·.request.sequence) =
      List.range' first commands.length) :
    slot sequence commands =
      if first ≤ sequence then commands[sequence - first]?.toList else [] := by
  induction commands generalizing first with
  | nil => simp [slot]
  | cons command commands ih =>
      rw [List.map_cons, List.length_cons, List.range'_succ,
        List.cons.injEq] at hconsecutive
      obtain ⟨hfirst, hrest⟩ := hconsecutive
      rw [slot_cons, ih hrest]
      by_cases hsequence : sequence = first
      · rw [slot_singleton (hfirst.trans hsequence.symm), if_neg (by omega),
          if_pos (by omega), hsequence, Nat.sub_self]
        rfl
      · have hother : slot sequence [command] = [] :=
          slot_singleton_of_ne (hfirst ▸ hsequence)
        rw [hother, List.nil_append]
        by_cases hle : first ≤ sequence
        · have hsub : sequence - first = sequence - (first + 1) + 1 := by omega
          rw [if_pos hle, if_pos (by omega), hsub, List.getElem?_cons_succ]
        · rw [if_neg hle, if_neg (by omega)]

end Slots

namespace Lane

section Releasing

variable {last final : Nat} {held rest : Table PendingCommand}
  {commands : List PendingCommand}

theorem Released.consecutive (hreleased : Released last held final commands rest)
    (hheld : ∀ sequence command, held.get? sequence = some command →
      command.request.sequence = sequence) :
    commands.map (·.request.sequence) =
      List.range' (last + 1) commands.length := by
  refine List.ext_getElem? (fun place => ?_)
  rw [List.getElem?_map]
  by_cases hplace : place < commands.length
  · have hcommand := hreleased.commands_eq place commands[place]
      (List.getElem?_eq_getElem hplace)
    rw [List.getElem?_eq_getElem hplace, List.getElem?_range' hplace,
      Option.map_some, hheld _ _ hcommand, Nat.one_mul]
  · rw [List.getElem?_eq_none (by omega),
      List.getElem?_eq_none (by rw [List.length_range']; omega), Option.map_none]

/-- What is released leaves its slot, and the rest stays. -/
theorem Released.slot_eq (hreleased : Released last held final commands rest)
    (hheld : ∀ sequence command, held.get? sequence = some command →
      command.request.sequence = sequence) (sequence : Nat) :
    slot sequence commands ++ (rest.get? sequence).toList =
      (held.get? sequence).toList := by
  have hfinal := hreleased.final_eq
  rw [slot_of_consecutive (hreleased.consecutive hheld), hreleased.rest_eq]
  by_cases hwithin : last < sequence ∧ sequence ≤ final
  · have hplace : sequence - (last + 1) < commands.length := by omega
    have hcommand := hreleased.commands_eq _ _ (List.getElem?_eq_getElem hplace)
    have hsequence : last + 1 + (sequence - (last + 1)) = sequence := by omega
    rw [hsequence] at hcommand
    rw [if_pos hwithin, if_pos (by omega), List.getElem?_eq_getElem hplace,
      hcommand, Option.toList_none, List.append_nil]
  · rw [if_neg hwithin]
    split
    · rw [List.getElem?_eq_none (by omega)]
      rfl
    · rfl

end Releasing

def heldAt (lane : Lane) (sequence : Nat) : List PendingCommand :=
  (lane.held.get? sequence).toList

/-- The lane of a session and the account of its commands agree. -/
structure Arranged (mark : Nat) (lane : Lane) (intake : Intake) : Prop where
  inStep : lane.InStep (mark + intake.released.length)
  unsequenced : lane.sequenced = none → intake.released = []
  released : intake.released.map (·.request.sequence) =
    List.range' (mark + 1) intake.released.length
  held_sequence : ∀ sequence command, lane.held.get? sequence = some command →
    command.request.sequence = sequence
  returned : ∀ command ∈ intake.returned, mark < command.request.sequence ∧
    command.request.sequence ≤ mark + intake.released.length
  words : ∀ command ∈ intake.submitted, command.request.sequence < wordMax
  inFlight : ∀ sequence, lane.inFlight.get? sequence = intake.placed sequence
  alike : ∀ sequence, Alike (slot sequence intake.submitted)
    (slot sequence intake.released ++ lane.heldAt sequence ++
      slot sequence intake.returned)

section Arranging

variable {mark : Nat} {lane : Lane} {intake : Intake}

theorem Arranged.slot_released (harranged : lane.Arranged mark intake)
    {sequence : Nat} (habove : mark + intake.released.length < sequence) :
    slot sequence intake.released = [] := by
  rw [slot_of_consecutive harranged.released,
    List.getElem?_eq_none (by omega)]
  exact ite_self _

theorem Arranged.slot_returned (harranged : lane.Arranged mark intake)
    {sequence : Nat} (habove : mark + intake.released.length < sequence) :
    slot sequence intake.returned = [] :=
  slot_eq_nil (fun command hcommand => by
    have hle := (harranged.returned command hcommand).2
    omega)

theorem Arranged.mem_released_iff (harranged : lane.Arranged mark intake)
    {sequence : Nat} :
    slot sequence intake.released ≠ [] ↔
      mark < sequence ∧ sequence ≤ mark + intake.released.length := by
  rw [slot_ne_nil_iff, ← List.mem_map (f := fun command : PendingCommand =>
    command.request.sequence), harranged.released, List.mem_range'_1]
  omega

/-- What was submitted was released or is held. -/
theorem Arranged.arrived_iff (harranged : lane.Arranged mark intake)
    (sequence : Nat) :
    (∃ command ∈ intake.submitted, command.request.sequence = sequence) ↔
      (mark < sequence ∧ sequence ≤ mark + intake.released.length) ∨
        lane.held.get? sequence ≠ none := by
  have hsame : slot sequence intake.submitted = [] ↔
      slot sequence intake.released ++ lane.heldAt sequence ++
        slot sequence intake.returned = [] := by
    rw [← List.head?_eq_none_iff, ← List.head?_eq_none_iff,
      ← Option.map_eq_none_iff, (harranged.alike sequence).request,
      Option.map_eq_none_iff]
  have hheld : lane.heldAt sequence ≠ [] ↔ lane.held.get? sequence ≠ none := by
    simp [heldAt]
  have hreturned : slot sequence intake.returned ≠ [] →
      mark < sequence ∧ sequence ≤ mark + intake.released.length := by
    intro hreturned
    obtain ⟨command, hcommand, rfl⟩ := slot_ne_nil_iff.mp hreturned
    exact harranged.returned command hcommand
  rw [← slot_ne_nil_iff, Ne, hsame, List.append_eq_nil_iff,
    List.append_eq_nil_iff, ← harranged.mem_released_iff, ← hheld]
  rw [← harranged.mem_released_iff] at hreturned
  tauto

theorem Arranged.held_word (harranged : lane.Arranged mark intake)
    {sequence : Nat} (hheld : lane.held.get? sequence ≠ none) :
    sequence < wordMax := by
  obtain ⟨command, hcommand, rfl⟩ :=
    (harranged.arrived_iff sequence).mpr (.inr hheld)
  exact harranged.words command hcommand

/-- What is known to have entered the log, whatever applied sequence between
the mark and that is told. -/
theorem Arranged.last_eq (harranged : lane.Arranged mark intake) {told : Nat}
    (hmark : mark ≤ told) (htold : told ≤ mark + intake.released.length) :
    max (lane.sequenced.getD told) told = mark + intake.released.length := by
  cases hsequenced : lane.sequenced with
  | some top =>
      rw [Option.getD_some, harranged.inStep.sequenced top hsequenced,
        Nat.max_eq_left htold]
  | none =>
      rw [harranged.unsequenced hsequenced, List.length_nil] at htold ⊢
      rw [Option.getD_none, Nat.max_self]
      omega

/-- What is next is not held. -/
theorem Arranged.heldAt_next (harranged : lane.Arranged mark intake) :
    lane.heldAt (mark + intake.released.length + 1) = [] := by
  have hnone : lane.held.get? (mark + intake.released.length + 1) = none := by
    by_contra hsome
    exact Nat.lt_irrefl _ (harranged.inStep.held _ hsome)
  rw [heldAt, hnone]
  rfl

section Submitting

variable {command : PendingCommand} {after : Lane} {submission : Submission}
  {sequence : Nat}

theorem alike_hold (lane : Lane) (command : PendingCommand) :
    Alike (lane.heldAt command.request.sequence ++ [command])
      ((lane.hold command.request.sequence command).heldAt
        command.request.sequence) := by
  simp only [heldAt, hold, Table.get?_insert, if_pos]
  cases lane.held.get? command.request.sequence with
  | none => exact .refl _
  | some held => exact ⟨rfl, by simp⟩

theorem heldAt_hold_of_ne (lane : Lane) (command : PendingCommand)
    (hsequence : sequence ≠ command.request.sequence) :
    (lane.hold command.request.sequence command).heldAt sequence =
      lane.heldAt sequence := by
  simp only [heldAt, hold, Table.get?_insert, if_neg hsequence]

/-- A command that comes too early joins those of its sequence that are held. -/
theorem Arranged.alike_holds (harranged : lane.Arranged mark intake)
    (habove : mark + intake.released.length + 1 < command.request.sequence) :
    Alike (slot sequence intake.submitted ++ slot sequence [command])
      (slot sequence intake.released ++
        (lane.hold command.request.sequence command).heldAt sequence ++
        slot sequence intake.returned) := by
  by_cases hsequence : sequence = command.request.sequence
  · have hbefore := (harranged.alike sequence).append [command]
    rw [harranged.slot_released (by omega),
      harranged.slot_returned (by omega), List.nil_append,
      List.append_nil] at hbefore ⊢
    rw [slot_singleton hsequence.symm]
    rw [hsequence] at hbefore ⊢
    exact hbefore.trans (alike_hold lane command)
  · rw [slot_singleton_of_ne hsequence, List.append_nil,
      heldAt_hold_of_ne _ command hsequence]
    exact harranged.alike sequence

/-- A command that is next is the first of its sequence, and those released
with it leave their slots. -/
theorem Arranged.alike_releases (harranged : lane.Arranged mark intake)
    {final : Nat} {commands : List PendingCommand}
    {rest : Table PendingCommand}
    (hnext : command.request.sequence = mark + intake.released.length + 1)
    (hreleased : Released (mark + intake.released.length + 1) lane.held final
      commands rest) :
    Alike (slot sequence intake.submitted ++ slot sequence [command])
      (slot sequence intake.released ++ slot sequence (command :: commands) ++
        (rest.get? sequence).toList ++ slot sequence intake.returned) := by
  have hrest : slot sequence commands ++ (rest.get? sequence).toList =
      lane.heldAt sequence :=
    hreleased.slot_eq harranged.held_sequence sequence
  have hplaces : slot sequence intake.released ++
      slot sequence (command :: commands) ++ (rest.get? sequence).toList ++
        slot sequence intake.returned =
      slot sequence intake.released ++ slot sequence [command] ++
        lane.heldAt sequence ++ slot sequence intake.returned := by
    rw [← hrest, slot_cons]
    simp only [List.append_assoc]
  rw [hplaces]
  by_cases hsequence : sequence = command.request.sequence
  · have hbefore := (harranged.alike sequence).append (slot sequence [command])
    rw [harranged.slot_released (by omega), harranged.slot_returned (by omega),
      hsequence, hnext, harranged.heldAt_next] at hbefore ⊢
    simpa using hbefore
  · rw [slot_singleton_of_ne hsequence, List.append_nil, List.append_nil]
    exact harranged.alike sequence

/-- What was held and has not been released is held. -/
theorem Arranged.held_submitted (harranged : lane.Arranged mark intake)
    (hsubmitted : Submitted lane (mark + intake.released.length) command after
      submission) : ∀ sequence held, after.held.get? sequence = some held →
        held.request.sequence = sequence := by
  intro sequence held hheld
  cases hsubmitted with
  | inFlight _ _ => exact harranged.held_sequence sequence held hheld
  | stale _ _ => exact harranged.held_sequence sequence held hheld
  | held _ =>
      simp only [hold, Table.get?_insert] at hheld
      split at hheld
      · rename_i hsequence
        cases hbefore : lane.held.get? command.request.sequence with
        | none =>
            rw [hbefore] at hheld
            rw [← Option.some.inj hheld, hsequence]
        | some before =>
            rw [hbefore] at hheld
            rw [← Option.some.inj hheld, hsequence]
            exact harranged.held_sequence _ before hbefore
      · exact harranged.held_sequence sequence held hheld
  | ready _ hreleased =>
      simp only [hreleased.rest_eq] at hheld
      split at hheld
      · simp at hheld
      · exact harranged.held_sequence sequence held hheld

/-- The released commands go on without a gap. -/
theorem Arranged.released_submitted (harranged : lane.Arranged mark intake)
    (hsubmitted : Submitted lane (mark + intake.released.length) command after
      submission) :
    (intake.released ++ submission.due).map (·.request.sequence) =
      List.range' (mark + 1)
        (intake.released.length + submission.due.length) := by
  rw [List.map_append, harranged.released, ← List.range'_append_1]
  congr 1
  cases hsubmitted with
  | ready hnext hreleased =>
      have hfirst : mark + 1 + intake.released.length =
          mark + intake.released.length + 1 := by omega
      rw [Submission.due, List.map_cons, hnext,
        hreleased.consecutive harranged.held_sequence, List.length_cons,
        List.range'_succ, hfirst]
  | _ => rfl

/-- Only repeats of released commands come back. -/
theorem Arranged.returned_submitted (harranged : lane.Arranged mark intake)
    (hmark : mark < command.request.sequence)
    (hsubmitted : Submitted lane (mark + intake.released.length) command after
      submission) : ∀ other ∈ intake.returned ++ submission.returned,
        mark < other.request.sequence ∧ other.request.sequence ≤
          mark + (intake.released.length + submission.due.length) := by
  intro other hother
  rcases List.mem_append.mp hother with hother | hother
  · have hwithin := harranged.returned other hother
    omega
  · cases hsubmitted with
    | inFlight hle _ | stale hle _ =>
        obtain rfl := List.mem_singleton.mp hother
        exact ⟨hmark, by omega⟩
    | _ => simp [Submission.returned] at hother

/-- Everyone who asks for a sequence stays accounted for. -/
theorem Arranged.alike_submitted (harranged : lane.Arranged mark intake)
    (hsubmitted : Submitted lane (mark + intake.released.length) command after
      submission) :
    Alike (slot sequence intake.submitted ++ slot sequence [command])
      (slot sequence intake.released ++ slot sequence submission.due ++
        after.heldAt sequence ++ (slot sequence intake.returned ++
          slot sequence submission.returned)) := by
  have hnil : slot sequence [] = [] := rfl
  cases hsubmitted with
  | inFlight _ _ | stale _ _ =>
      have hbefore := (harranged.alike sequence).append (slot sequence [command])
      simp only [Submission.due, Submission.returned, hnil, List.append_nil,
        ← List.append_assoc]
      exact hbefore
  | held habove =>
      simp only [Submission.due, Submission.returned, hnil, List.append_nil]
      exact harranged.alike_holds habove
  | ready hnext hreleased =>
      simp only [Submission.due, Submission.returned, hnil, List.append_nil]
      exact harranged.alike_releases hnext hreleased

theorem Arranged.submitted (harranged : lane.Arranged mark intake)
    (hmark : mark < command.request.sequence)
    (hword : command.request.sequence < wordMax)
    (hsubmitted : Submitted lane (mark + intake.released.length) command after
      submission) : after.Arranged mark (intake.enter command submission) where
  inStep := by
    have hstep := harranged.inStep.submitted hsubmitted
    rwa [Nat.add_assoc, ← List.length_append] at hstep
  unsequenced hnone := by simp [hsubmitted.sequenced_eq] at hnone
  released := by
    simp only [Intake.enter, List.length_append]
    exact harranged.released_submitted hsubmitted
  held_sequence := harranged.held_submitted hsubmitted
  returned := by
    simp only [Intake.enter, List.length_append]
    exact harranged.returned_submitted hmark hsubmitted
  words other hother := by
    rcases List.mem_append.mp hother with hother | hother
    · exact harranged.words other hother
    · exact List.mem_singleton.mp hother ▸ hword
  inFlight := hsubmitted.inFlight_eq ▸ harranged.inFlight
  alike sequence := by
    simp only [Intake.enter, slot_append]
    exact harranged.alike_submitted hsubmitted

end Submitting

/-- Where commands stand in the log is taken down alike. -/
theorem Arranged.place (harranged : lane.Arranged mark intake)
    {inFlight : Table Nat} {sequence : Nat} {index : Option Nat}
    (hplace : ∀ other, inFlight.get? other =
      if other = sequence then index else lane.inFlight.get? other) :
    Arranged mark { lane with inFlight := inFlight }
      (intake.place sequence index) :=
  { harranged with
    inStep := harranged.inStep.congr rfl rfl
    inFlight := fun other => by
      simp only [Intake.place, Function.update_apply, hplace,
        harranged.inFlight] }

theorem arranged_empty (mark : Nat) : Lane.empty.Arranged mark .start where
  inStep := ⟨fun _ hsequenced => by simp [Lane.empty] at hsequenced,
    fun _ hheld => by simp [Lane.empty] at hheld⟩
  unsequenced _ := rfl
  released := rfl
  held_sequence _ _ hheld := by simp [Lane.empty] at hheld
  returned _ hcommand := by simp [Intake.start] at hcommand
  words _ hcommand := by simp [Intake.start] at hcommand
  inFlight _ := rfl
  alike _ := .refl []

end Arranging

end Lane

/-! ### Any traffic -/

namespace Sequencer

variable {session : SessionId} {mark : Nat} {sequencer after : Sequencer}
  {intake account : Intake}

theorem arranged_submit
    (harranged : (sequencer.lane session).Arranged mark intake) {told : Nat}
    {command : PendingCommand} {submission : Submission}
    (hproper : (Traffic.submit told command).Proper session mark intake)
    (hsubmit : sequencer.submit told command = .ok (after, submission)) :
    (after.lane session).Arranged mark
      (if command.request.session = session then
        intake.enter command submission else intake) := by
  obtain ⟨lane, rfl, hsubmitted⟩ := submitted_of_submit hsubmit
  rw [lane_setLane]
  by_cases hsession : command.request.session = session
  · obtain ⟨⟨hwithin, hword⟩, hmark, htold⟩ := hproper hsession
    rw [hsession, harranged.last_eq hmark htold] at hsubmitted
    rw [hsession, Function.update_self, if_pos rfl]
    exact harranged.submitted hwithin hword hsubmitted
  · rw [Function.update_of_ne (Ne.symm hsession), if_neg hsession]
    exact harranged

theorem arranged_serve
    (harranged : (sequencer.lane session).Arranged mark intake)
    {traffic : Traffic} (hproper : traffic.Proper session mark intake)
    (hserve : sequencer.serve session intake traffic = .ok (after, account)) :
    (after.lane session).Arranged mark account := by
  cases traffic with
  | submit told command =>
      obtain ⟨⟨next, submission⟩, hsubmit, hentered⟩ := exists_of_bind hserve
      obtain ⟨rfl, rfl⟩ := Prod.mk.inj (Except.ok.inj hentered)
      exact arranged_submit harranged hproper hsubmit
  | appended owner sequence index =>
      obtain ⟨rfl, rfl⟩ := Prod.mk.inj (Except.ok.inj hserve)
      rw [lane_appended]
      by_cases howner : owner = session
      · rw [howner, Function.update_self, if_pos rfl]
        exact harranged.place (fun _ => Table.get?_insert ..)
      · rw [Function.update_of_ne (Ne.symm howner), if_neg howner]
        exact harranged
  | applied owner sequence =>
      obtain ⟨rfl, rfl⟩ := Prod.mk.inj (Except.ok.inj hserve)
      rw [lane_applied]
      by_cases howner : owner = session
      · rw [howner, Function.update_self, if_pos rfl]
        exact harranged.place (fun _ => Table.get?_erase ..)
      · rw [Function.update_of_ne (Ne.symm howner), if_neg howner]
        exact harranged
  | seed owner sequence index =>
      obtain ⟨rfl, rfl⟩ := Prod.mk.inj (Except.ok.inj hserve)
      rw [lane_seed, Function.update_of_ne (Ne.symm hproper)]
      exact harranged
  | forget owner =>
      obtain ⟨rfl, rfl⟩ := Prod.mk.inj (Except.ok.inj hserve)
      rw [lane_forget, Function.update_of_ne (Ne.symm hproper)]
      exact harranged

/-- A submission of the session itself does not overflow. -/
theorem submit_ok (harranged : (sequencer.lane session).Arranged mark intake)
    (told : Nat) {command : PendingCommand}
    (hsession : command.request.session = session)
    (hword : command.request.sequence < wordMax) :
    ∃ outcome, sequencer.submit told command = .ok outcome := by
  obtain ⟨⟨lane, submission⟩, hlane⟩ := Lane.submit_ok told hword
    (fun _ hheld => harranged.held_word hheld)
  simp only [submit, hsession, hlane]
  exact ⟨_, rfl⟩

theorem serve_cases (harranged : (sequencer.lane session).Arranged mark intake)
    {traffic : Traffic} (hproper : traffic.Proper session mark intake) :
    (∃ outcome, sequencer.serve session intake traffic = .ok outcome) ∨
      ∃ told command, traffic = .submit told command ∧
        command.request.session ≠ session ∧
        sequencer.submit told command = .error .addition := by
  cases traffic with
  | submit told command =>
      cases hsubmit : sequencer.submit told command with
      | ok outcome =>
          refine .inl ?_
          simp only [serve, hsubmit]
          exact ⟨_, rfl⟩
      | error fault =>
          refine .inr ⟨told, command, rfl, fun hsession => ?_, by rw [← hsubmit]⟩
          obtain ⟨outcome, hok⟩ := submit_ok harranged told hsession
            (hproper hsession).1.2
          simp [hok] at hsubmit
  | _ => exact .inl ⟨_, rfl⟩

/-- All traffic is served, unless a submission of another session overflows. -/
theorem serveAll_cases
    (harranged : (sequencer.lane session).Arranged mark intake)
    {traffic : List Traffic}
    (hproper : sequencer.Properly session mark intake traffic) :
    (∃ after account,
      sequencer.serveAll session intake traffic = .ok (after, account) ∧
      (after.lane session).Arranged mark account) ∨
    ∃ before told command later between account,
      traffic = before ++ .submit told command :: later ∧
      sequencer.serveAll session intake before = .ok (between, account) ∧
      command.request.session ≠ session ∧
      between.submit told command = .error .addition := by
  induction traffic generalizing sequencer intake with
  | nil => exact .inl ⟨sequencer, intake, rfl, harranged⟩
  | cons first later ih =>
      obtain ⟨hfirst, hlater⟩ := hproper
      obtain ⟨⟨next, account⟩, hserve⟩ | ⟨told, command, rfl, hother, hsubmit⟩ :=
        serve_cases harranged hfirst
      · have hnext := arranged_serve harranged hfirst hserve
        obtain ⟨after, last, hall, hdone⟩ |
          ⟨before, told, command, rest, between, last, rfl, hbefore, hfault⟩ :=
          ih hnext (hlater next account hserve)
        · refine .inl ⟨after, last, ?_, hdone⟩
          simp only [serveAll, hserve]
          exact hall
        · refine .inr ⟨first :: before, told, command, rest, between, last, rfl,
            ?_, hfault⟩
          simp only [serveAll, hserve]
          exact hbefore
      · exact .inr ⟨[], told, command, later, sequencer, intake, rfl, rfl, hother,
          hsubmit⟩

/-! ### What comes out -/

/-- What has become of the commands that a session submitted, of which those
up to `mark` had been applied at the start. -/
structure Arranges (session : SessionId) (mark : Nat) (sequencer : Sequencer)
    (intake : Intake) : Prop where
  /-- The released commands carry the sequences after the mark, in their order
  and each once, … -/
  released : intake.released.map (·.request.sequence) =
    List.range' (mark + 1) intake.released.length
  /-- … up to the first that has not been submitted. -/
  arrived : ∀ sequence, mark < sequence →
    sequence ≤ mark + intake.released.length →
      ∃ command ∈ intake.submitted, command.request.sequence = sequence
  missing : ∀ command ∈ intake.submitted,
    command.request.sequence ≠ mark + intake.released.length + 1
  /-- Held are those beyond it. -/
  held_iff : ∀ sequence,
    ((sequencer.lane session).held.get? sequence).isSome = true ↔
      mark + intake.released.length < sequence ∧
        ∃ command ∈ intake.submitted, command.request.sequence = sequence
  /-- A repeat of a released command comes back, with its log index if it was
  appended and has not been applied. -/
  repeats : ∀ told command, command.request.session = session →
    mark < command.request.sequence →
    command.request.sequence ≤ mark + intake.released.length →
    told ≤ mark + intake.released.length →
      ∃ after, sequencer.submit told command = .ok (after,
        match intake.placed command.request.sequence with
        | some index => .inFlight index command
        | none => .stale command)
  /-- Of one sequence the request that came first is released or held. -/
  requests : ∀ sequence,
    (slot sequence intake.submitted).head?.map (·.request) =
      (slot sequence intake.released ++
        (sequencer.lane session).heldAt sequence).head?.map (·.request)
  /-- Everyone who asked for it waits at the released command, at the held one
  or at one that came back, in the order of asking. -/
  tickets : ∀ sequence,
    (slot sequence intake.submitted).flatMap (·.tickets) =
      (slot sequence intake.released).flatMap (·.tickets) ++
        ((sequencer.lane session).heldAt sequence).flatMap (·.tickets) ++
        (slot sequence intake.returned).flatMap (·.tickets)

theorem repeats_of_arranged
    (harranged : (sequencer.lane session).Arranged mark intake) (told : Nat)
    {command : PendingCommand} (hsession : command.request.session = session)
    (hmark : mark < command.request.sequence)
    (hreach : command.request.sequence ≤ mark + intake.released.length)
    (htold : told ≤ mark + intake.released.length) :
    ∃ after, sequencer.submit told command = .ok (after,
      match intake.placed command.request.sequence with
      | some index => .inFlight index command
      | none => .stale command) := by
  have hsequenced : (sequencer.lane session).sequenced =
      some (mark + intake.released.length) := by
    cases hsequenced : (sequencer.lane session).sequenced with
    | some top => rw [harranged.inStep.sequenced top hsequenced]
    | none =>
        rw [harranged.unsequenced hsequenced, List.length_nil] at hreach
        omega
  obtain ⟨other, hother, hsame⟩ :=
    (harranged.arrived_iff command.request.sequence).mpr (.inl ⟨hmark, hreach⟩)
  obtain ⟨⟨after, submission⟩, hsubmit⟩ := submit_ok harranged told hsession
    (hsame ▸ harranged.words other hother)
  refine ⟨after, ?_⟩
  obtain ⟨lane, -, hsubmitted⟩ := submitted_of_submit hsubmit
  rw [hsession, hsequenced, Option.getD_some, Nat.max_eq_left htold]
    at hsubmitted
  rw [hsubmit, ← harranged.inFlight]
  cases hsubmitted with
  | inFlight _ hindex => rw [hindex]
  | stale _ hnone => rw [hnone]
  | held habove => omega
  | ready hnext _ => omega

theorem arranges_of_arranged
    (harranged : (sequencer.lane session).Arranged mark intake) :
    sequencer.Arranges session mark intake where
  released := harranged.released
  arrived sequence hmark hreach :=
    (harranged.arrived_iff sequence).mpr (.inl ⟨hmark, hreach⟩)
  missing command hcommand hsequence := by
    rcases (harranged.arrived_iff _).mp ⟨command, hcommand, hsequence⟩ with
      hreach | hheld
    · omega
    · exact Nat.lt_irrefl _ (harranged.inStep.held _ hheld)
  held_iff sequence := by
    rw [harranged.arrived_iff, Option.isSome_iff_ne_none]
    constructor
    · intro hheld
      have habove := harranged.inStep.held sequence hheld
      exact ⟨by omega, .inr hheld⟩
    · rintro ⟨habove, hreach | hheld⟩
      · omega
      · exact hheld
  repeats told _ := repeats_of_arranged harranged told
  requests sequence := by
    rw [(harranged.alike sequence).request]
    cases hplaces : slot sequence intake.released ++
        (sequencer.lane session).heldAt sequence with
    | cons first rest => rfl
    | nil =>
        have hreturned : slot sequence intake.returned = [] := by
          by_contra hreturned
          obtain ⟨command, hcommand, rfl⟩ := slot_ne_nil_iff.mp hreturned
          exact harranged.mem_released_iff.mpr
            (harranged.returned command hcommand)
            (List.append_eq_nil_iff.mp hplaces).1
        rw [hreturned]
        rfl
  tickets sequence := by
    rw [(harranged.alike sequence).tickets, List.flatMap_append,
      List.flatMap_append]

/-- Two series of commands with the same sequences are released alike, in
whatever order and however often each came. -/
theorem Arranges.independent {other : Sequencer}
    (hfirst : sequencer.Arranges session mark intake)
    (hsecond : other.Arranges session mark account)
    (hsame : ∀ sequence,
      (∃ command ∈ intake.submitted, command.request.sequence = sequence) ↔
        ∃ command ∈ account.submitted, command.request.sequence = sequence) :
    intake.released.map (·.request.sequence) =
        account.released.map (·.request.sequence) ∧
      ∀ sequence, ((sequencer.lane session).held.get? sequence).isSome =
        ((other.lane session).held.get? sequence).isSome := by
  have hlength : intake.released.length = account.released.length := by
    rcases Nat.lt_trichotomy intake.released.length account.released.length
      with hlt | heq | hgt
    · obtain ⟨command, hcommand, hsequence⟩ := (hsame _).mpr
        (hsecond.arrived (mark + intake.released.length + 1) (by omega)
          (by omega))
      exact absurd hsequence (hfirst.missing command hcommand)
    · exact heq
    · obtain ⟨command, hcommand, hsequence⟩ := (hsame _).mp
        (hfirst.arrived (mark + account.released.length + 1) (by omega)
          (by omega))
      exact absurd hsequence (hsecond.missing command hcommand)
  refine ⟨?_, fun sequence => ?_⟩
  · rw [hfirst.released, hsecond.released, hlength]
  · rw [Bool.eq_iff_iff, hfirst.held_iff, hsecond.held_iff, hlength, hsame]

/-- From where nothing is known of a session, its commands are let out in
sequence, in whatever order they come, how often each is repeated and whatever
goes on in other sessions, unless a submission of another session overflows. -/
theorem releases_in_sequence (hempty : sequencer.lane session = .empty)
    {traffic : List Traffic}
    (hproper : sequencer.Properly session mark .start traffic) :
    (∃ after account,
      sequencer.serveAll session .start traffic = .ok (after, account) ∧
      after.Arranges session mark account) ∨
    ∃ before told command later between account,
      traffic = before ++ .submit told command :: later ∧
      sequencer.serveAll session .start before = .ok (between, account) ∧
      command.request.session ≠ session ∧
      between.submit told command = .error .addition := by
  have hstart : (sequencer.lane session).Arranged mark .start :=
    hempty ▸ Lane.arranged_empty mark
  obtain ⟨after, account, hall, hdone⟩ | hfault :=
    serveAll_cases hstart hproper
  · exact .inl ⟨after, account, hall, arranges_of_arranged hdone⟩
  · exact .inr hfault

end Sequencer

namespace Witness

/-- A command of a session that somebody waits for. -/
def asked (session sequence : Nat) (ticket : Ticket) : PendingCommand :=
  ⟨⟨session, sequence, [7]⟩, [ticket]⟩

/-- A session that has applied four commands sends the seventh first, and the
fifth twice; another session comes in between. -/
def shuffled : List Traffic :=
  [.submit 4 (asked 1 7 0), .submit 0 (asked 2 1 1), .submit 4 (asked 1 5 2),
    .appended 1 5 9, .submit 4 (asked 1 5 3), .submit 5 (asked 1 6 4),
    .forget 2, .submit 4 (asked 1 9 5)]

theorem releases_in_sequence_shuffled :
    Sequencer.start.lane 1 = .empty ∧
      Sequencer.start.Properly 1 4 .start shuffled ∧
      ((∃ after account,
        Sequencer.start.serveAll 1 .start shuffled = .ok (after, account) ∧
        after.Arranges 1 4 account) ∨
      ∃ before told command later between account,
        shuffled = before ++ .submit told command :: later ∧
        Sequencer.start.serveAll 1 .start before = .ok (between, account) ∧
        command.request.session ≠ 1 ∧
        between.submit told command = .error .addition) ∧
      ((Sequencer.start.serveAll 1 .start shuffled).map fun outcome =>
        (outcome.2.released.map (·.request.sequence),
          outcome.2.returned)).toOption =
        some ([5, 6, 7], [asked 1 5 3]) := by
  have hempty : Sequencer.start.lane 1 = .empty := rfl
  have hproper : Sequencer.start.Properly 1 4 .start shuffled := by
    refine .cons (fun _ => ⟨by decide, by decide⟩) rfl ?_
    refine .cons (fun hown => absurd hown (by decide)) rfl ?_
    refine .cons (fun _ => ⟨by decide, by decide⟩) rfl ?_
    refine .cons trivial rfl ?_
    refine .cons (fun _ => ⟨by decide, by decide⟩) rfl ?_
    refine .cons (fun _ => ⟨by decide, by decide⟩) rfl ?_
    refine .cons (by decide : (2 : Nat) ≠ 1) rfl ?_
    exact .cons (fun _ => ⟨by decide, by decide⟩) rfl trivial
  exact ⟨hempty, hproper, Sequencer.releases_in_sequence hempty hproper, by decide⟩

end Witness

end SessionRaft
