/-
Replacing a file.  The new content goes into a draft, which in the end takes
the name of the file.  Wherever the operations end, be it that the device
refuses one or that no more are made, every file but the draft is what it was,
or all of them were carried out and the file has the new content.
-/
import SessionRaft.Storage.Disk

namespace SessionRaft

/-- The names whose items an operation may change. -/
def FileAction.names : FileAction → List String
  | create name | write name _ | sync name | remove name => [name]
  | rename source target => [source, target]

variable {name other : String} {content : Bytes}

namespace Directory

variable {directory after : Directory}

theorem item?_of_perform? {action : FileAction}
    (hperform : directory.perform? action = some after)
    (hname : name ∉ action.names) :
    after.item? name = directory.item? name := by
  cases action with
  | create target =>
      simp only [FileAction.names, List.mem_singleton] at hname
      simp only [perform?] at hperform
      split at hperform
      · simp at hperform
      · rw [← Option.some.inj hperform, item?_put, if_neg hname]
  | write target content =>
      simp only [FileAction.names, List.mem_singleton] at hname
      simp only [perform?] at hperform
      split at hperform
      · rw [← Option.some.inj hperform, item?_put, if_neg hname]
      · simp at hperform
  | sync target => rw [← Option.some.inj hperform]
  | rename source target =>
      simp only [FileAction.names, List.mem_cons, List.not_mem_nil, or_false,
        not_or] at hname
      simp only [perform?] at hperform
      split at hperform
      · simp at hperform
      · rw [← Option.some.inj hperform, item?_put, if_neg hname.2, item?_erase,
          if_neg hname.1]
      · simp at hperform
  | remove target =>
      simp only [FileAction.names, List.mem_singleton] at hname
      simp only [perform?] at hperform
      split at hperform
      · simp at hperform
      · rw [← Option.some.inj hperform, item?_erase, if_neg hname]

theorem item?_of_write (hperform :
    directory.perform? (.write name content) = some after) :
    after.item? name = some (.file content) := by
  simp only [perform?] at hperform
  split at hperform
  · rw [← Option.some.inj hperform, item?_put, if_pos rfl]
  · simp at hperform

theorem item?_of_rename (hdraft : directory.item? other = some (.file content))
    (hperform : directory.perform? (.rename other name) = some after) :
    after.item? name = some (.file content) := by
  simp only [perform?, hdraft] at hperform
  split at hperform
  · simp at hperform
  · rename_i hsource _
    obtain rfl := Item.file.inj (Option.some.inj hsource)
    rw [← Option.some.inj hperform, item?_put, if_pos rfl]
  · simp at hperform

end Directory

namespace Disk

variable {disk after : Disk}

theorem item?_of_perform? {action : FileAction}
    {directory : Option Directory}
    (hperform : disk.perform? action = some directory)
    (hname : name ∉ action.names) :
    directory.bind (·.item? name) = disk.item? name := by
  unfold perform? at hperform
  split at hperform
  · rename_i held hheld
    obtain ⟨result, hresult, rfl⟩ := Option.map_eq_some_iff.mp hperform
    rw [item?, hheld]
    exact Directory.item?_of_perform? hresult hname
  · rename_i hnone
    split at hperform
    · rw [← Option.some.inj hperform, item?, hnone]
    · simp at hperform

theorem item?_damage (disk : Disk) {action : FileAction} (left : Bytes)
    (hname : name ∉ action.names) :
    (disk.damage action left).item? name = disk.item? name := by
  unfold damage
  split
  · rename_i target _
    cases hperform : disk.perform? (.write target left) with
    | none => rfl
    | some directory => exact item?_of_perform? hperform hname
  · rfl

/-- An operation changes only the items it names, carried out or refused. -/
theorem item?_act (disk : Disk) {action : FileAction}
    (hname : name ∉ action.names) :
    (disk.act action).2.item? name = disk.item? name := by
  unfold act
  split
  · exact item?_damage _ _ hname
  · split
    · rfl
    · rename_i hperform
      exact item?_of_perform? hperform hname

theorem item?_run (disk : Disk) {actions : List FileAction}
    (hname : ∀ action ∈ actions, name ∉ action.names) :
    (disk.run actions).2.item? name = disk.item? name := by
  induction actions generalizing disk with
  | nil => rfl
  | cons action actions ih =>
      rw [List.forall_mem_cons] at hname
      have hact := disk.item?_act hname.1
      unfold run
      split
      · rename_i hfault
        rw [hfault] at hact
        exact hact
      · rename_i later hdone
        rw [hdone] at hact
        exact (ih later hname.2).trans hact

theorem perform?_of_act {action : FileAction}
    (hact : disk.act action = (.ok (), after)) :
    disk.perform? action = some after.directory := by
  unfold act at hact
  split at hact
  · simp at hact
  · split at hact
    · simp at hact
    · rename_i directory hperform
      obtain rfl := (Prod.mk.inj hact).2
      exact hperform

/-- Only a write that fails leaves something behind. -/
theorem directory_of_failed {action : FileAction} {fault : LogFault}
    (hwrite : ∀ name content, action ≠ .write name content)
    (hact : disk.act action = (.error fault, after)) :
    after.directory = disk.directory := by
  unfold act at hact
  split at hact
  · obtain rfl := (Prod.mk.inj hact).2
    unfold damage
    split
    · exact absurd rfl (hwrite _ _)
    · rfl
  · split at hact
    · obtain rfl := (Prod.mk.inj hact).2
      rfl
    · simp at hact

theorem act_of_run_cons {action : FileAction} {actions : List FileAction}
    (hrun : disk.run (action :: actions) = (.ok (), after)) :
    ∃ later, disk.act action = (.ok (), later) ∧
      later.run actions = (.ok (), after) := by
  unfold run at hrun
  split at hrun
  · simp at hrun
  · rename_i later hact
    exact ⟨later, hact, hrun⟩

/-- Only the removal of a file succeeds without the directory. -/
theorem perform?_eq_some {action : FileAction}
    {directory : Option Directory} (hkeeps : ∀ name, action ≠ .remove name)
    (hperform : disk.perform? action = some directory) :
    ∃ held result, disk.directory = some held ∧
      held.perform? action = some result ∧ directory = some result := by
  unfold perform? at hperform
  split at hperform
  · rename_i held hheld
    obtain ⟨result, hresult, rfl⟩ := Option.map_eq_some_iff.mp hperform
    exact ⟨held, result, hheld, hresult, rfl⟩
  · split at hperform
    · exact absurd rfl (hkeeps _)
    · simp at hperform

theorem item?_of_write (hact :
    disk.act (.write name content) = (.ok (), after)) :
    after.item? name = some (.file content) := by
  obtain ⟨held, result, -, hresult, hafter⟩ :=
    perform?_eq_some (fun _ => FileAction.noConfusion) (perform?_of_act hact)
  rw [item?, hafter]
  exact Directory.item?_of_write hresult

theorem item?_of_rename (hdraft : disk.item? other = some (.file content))
    (hact : disk.act (.rename other name) = (.ok (), after)) :
    after.item? name = some (.file content) := by
  obtain ⟨held, result, hheld, hresult, hafter⟩ :=
    perform?_eq_some (fun _ => FileAction.noConfusion) (perform?_of_act hact)
  rw [item?, hheld] at hdraft
  rw [item?, hafter]
  exact Directory.item?_of_rename hdraft hresult

/-- A sync changes nothing in the directory. -/
theorem item?_of_sync (hact : disk.act (.sync name) = (.ok (), after)) :
    after.item? = disk.item? := by
  obtain ⟨held, result, hheld, hresult, hafter⟩ :=
    perform?_eq_some (fun _ => FileAction.noConfusion) (perform?_of_act hact)
  funext other
  rw [item?, item?, hafter, hheld, ← Option.some.inj hresult]

/-! ### Replacing a file -/

def draftOf (name : String) : String := name ++ ".tmp"

/-- The operations of a replacement that concern the draft alone. -/
def drafting (name : String) (content : Bytes) : List FileAction :=
  [.create (draftOf name), .write (draftOf name) content,
    .sync (draftOf name)]

theorem replacement_eq (name : String) (content : Bytes) :
    replacement name content =
      drafting name content ++ [.rename (draftOf name) name] := rfl

theorem item?_drafting (disk : Disk) (steps : Nat)
    (hother : other ≠ draftOf name) :
    (disk.run ((drafting name content).take steps)).2.item? other =
      disk.item? other := by
  refine disk.item?_run (fun action haction => ?_)
  have hnames : action.names = [draftOf name] := by
    have hmem := List.mem_of_mem_take haction
    simp only [drafting, List.mem_cons, List.not_mem_nil, or_false] at hmem
    rcases hmem with rfl | rfl | rfl <;> rfl
  rw [hnames, List.mem_singleton]
  exact hother

theorem item?_of_drafting
    (hrun : disk.run (drafting name content) = (.ok (), after)) :
    after.item? (draftOf name) = some (.file content) := by
  obtain ⟨created, -, hrun⟩ := act_of_run_cons hrun
  obtain ⟨written, hwrite, hrun⟩ := act_of_run_cons hrun
  obtain ⟨synced, hsync, hrun⟩ := act_of_run_cons hrun
  obtain rfl := (Prod.mk.inj hrun).2
  rw [item?_of_sync hsync, item?_of_write hwrite]

theorem item?_renaming (disk : Disk)
    (hdraft : disk.item? (draftOf name) = some (.file content))
    (hother : other ≠ draftOf name) :
    (disk.run [.rename (draftOf name) name]).2.item? other =
      if other = name ∧
          (disk.run [.rename (draftOf name) name]).1.isOk = true then
        some (.file content)
      else disk.item? other := by
  rw [run]
  cases hact : disk.act (.rename (draftOf name) name) with
  | mk outcome after =>
      cases outcome with
      | error fault =>
          rw [if_neg (fun hdone => Bool.false_ne_true hdone.2)]
          change after.item? other = disk.item? other
          rw [item?, item?, directory_of_failed
            (fun _ _ => FileAction.noConfusion) hact]
      | ok value =>
          by_cases hname : other = name
          · rw [if_pos ⟨hname, rfl⟩, hname]
            exact item?_of_rename hdraft hact
          · have hkept : (disk.act (.rename (draftOf name) name)).2.item? other =
                disk.item? other :=
              disk.item?_act (by simp [FileAction.names, hother, hname])
            rw [hact] at hkept
            rw [if_neg (fun hdone => hname hdone.1)]
            exact hkept

/-- A replacement is made as a whole or not at all. -/
theorem item?_replacement (disk : Disk) (content : Bytes)
    (hother : other ≠ draftOf name) :
    (disk.run (replacement name content)).2.item? other =
      if other = name ∧ (disk.run (replacement name content)).1.isOk = true then
        some (.file content)
      else disk.item? other := by
  have hdrafting : (disk.run (drafting name content)).2.item? other =
      disk.item? other := disk.item?_drafting 3 hother
  rw [replacement_eq, run_append]
  cases hrun : disk.run (drafting name content) with
  | mk outcome drafted =>
      rw [hrun] at hdrafting
      cases outcome with
      | error fault =>
          rw [if_neg (fun hdone => Bool.false_ne_true hdone.2)]
          exact hdrafting
      | ok value =>
          rw [← hdrafting]
          exact item?_renaming drafted (item?_of_drafting hrun) hother

/-! ### Stopping between two operations -/

/-- Make the first so many operations of a list, as far as they succeed, and
tell whether that was all of them. -/
def attempt (disk : Disk) (actions : List FileAction) (steps : Nat) :
    Bool × Disk :=
  let (outcome, after) := disk.run (actions.take steps)
  (outcome.isOk && decide (actions.length ≤ steps), after)

theorem attempt_of_le {actions : List FileAction} {steps : Nat}
    (hsteps : actions.length ≤ steps) (disk : Disk) :
    disk.attempt actions steps =
      ((disk.run actions).1.isOk, (disk.run actions).2) := by
  rw [attempt, List.take_of_length_le hsteps, decide_eq_true hsteps]
  simp only [Bool.and_true]

theorem attempt_of_lt {actions : List FileAction} {steps : Nat}
    (hsteps : steps < actions.length) (disk : Disk) :
    disk.attempt actions steps =
      (false, (disk.run (actions.take steps)).2) := by
  rw [attempt, decide_eq_false (Nat.not_le_of_lt hsteps)]
  simp only [Bool.and_false]

theorem item?_attempt (disk : Disk) (content : Bytes) (steps : Nat)
    (hother : other ≠ draftOf name) :
    (disk.attempt (replacement name content) steps).2.item? other =
      if other = name ∧
          (disk.attempt (replacement name content) steps).1 = true then
        some (.file content)
      else disk.item? other := by
  by_cases hsteps : (replacement name content).length ≤ steps
  · rw [attempt_of_le hsteps]
    exact disk.item?_replacement content hother
  · -- Short of the last operation only the draft is touched.
    have hfirst : (replacement name content).take steps =
        (drafting name content).take steps := by
      rw [replacement_eq]
      exact List.take_append_of_le_length
        (Nat.le_of_lt_succ (Nat.lt_of_not_le hsteps))
    rw [attempt_of_lt (Nat.lt_of_not_le hsteps), hfirst,
      if_neg (fun hdone => Bool.false_ne_true hdone.2)]
    exact disk.item?_drafting steps hother

end Disk

end SessionRaft
