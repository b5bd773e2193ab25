/-
Whatever two nodes apply at one index is the same entry, in every run in which
votes are stored, and whatever becomes of messages and nodes.
-/
import SessionRaft.Proofs.Agreement
import SessionRaft.Proofs.ElectionSafety

namespace SessionRaft

section Settles

variable {σ : Type}

/-- It is certain which entry is committed at an index. -/
def Chronicle.Settles (members : List NodeId) (chron : Chronicle σ)
    (place : Nat) (entry : LogEntry) : Prop :=
  ∃ term log, chron.Certified members term log (place + 1) ∧
    log[place]? = some entry

variable {members : List NodeId} {chron next : Chronicle σ} {place : Nat}
  {entry other : LogEntry}

theorem Chronicle.Settles.mono (hsettles : chron.Settles members place entry)
    (hages : chron.Ages next) : next.Settles members place entry := by
  obtain ⟨term, log, hcertified, hentry⟩ := hsettles
  exact ⟨term, log, hcertified.mono hages (Nat.le_refl _) rfl, hentry⟩

theorem Agreed.settles_unique (hagreed : Agreed members chron)
    (hfirst : chron.Settles members place entry)
    (hsecond : chron.Settles members place other) : entry = other := by
  obtain ⟨_, log, hcertified, hentry⟩ := hfirst
  obtain ⟨_, another, hcertifiedOther, hother⟩ := hsecond
  have htake := hcertified.agree hagreed.commitment hagreed.matching
    hcertifiedOther (Nat.le_refl (place + 1)) (Nat.le_refl _)
  have hget := getElem?_eq_of_take_eq htake (Nat.lt_succ_self place)
  rw [hentry, hother] at hget
  exact Option.some.inj hget

end Settles

namespace Run

open FaithfulLog

variable {L σ : Type} [LogStore L] [FaithfulLog L] [StateMachine σ]
  {run : Run L σ}

/-- At a time a node applies the entry that its log has at an index. -/
def Applies (run : Run L σ) (time : Nat) (id : NodeId) (index : Nat)
    (entry : LogEntry) : Prop :=
  ∃ input output after, run.Takes time id input output after ∧
    (run.node time id).lastApplied < index ∧ index ≤ after.lastApplied ∧
    LogStore.get? after.log index = some entry

/-- A run whose members begin with empty logs and always store their votes. -/
structure Regular (run : Run L σ) : Prop where
  valid : run.Valid
  empty : ∀ id ∈ run.members,
    LogStore.lastIndex (run.start.nodes id).log = 0
  stores : ∀ time, ∀ id ∈ run.members, StoresVotes (run.node time id).log

theorem Regular.stores_true (hregular : run.Regular) : run.Stores True :=
  fun time _ => hregular.stores time

/-- What is remembered at a time. -/
theorem Regular.agreed (hregular : run.Regular) (time : Nat) :
    ∃ chron : Chronicle σ, chron.scene = (run.network time).scene ∧
      Agreed run.members chron := by
  have hvalid := hregular.valid
  obtain ⟨chron, hsteps, hscene⟩ := hvalid.chronicled hregular.stores_true time
  refine ⟨chron, hscene, (Agreed.steps trivial (.first hvalid.scene_begins
    (fun id hid => ?_)) hsteps).1⟩
  apply List.eq_nil_of_length_eq_zero
  exact (lastIndex_eq_length (hvalid.sane 0 id hid).1).symm.trans
    (hregular.empty id hid)

/-- What is remembered can be carried on. -/
theorem Regular.agreed_later (hregular : run.Regular) {first second : Nat}
    (hle : first ≤ second) {chron : Chronicle σ}
    (hscene : chron.scene = (run.network first).scene)
    (hagreed : Agreed run.members chron) :
    ∃ later : Chronicle σ, later.scene = (run.network second).scene ∧
      Agreed run.members later ∧ chron.Ages later := by
  obtain ⟨later, hsteps, hlater⟩ :=
    hregular.valid.carried hregular.stores_true hle hscene
  obtain ⟨hlaterAgreed, hages⟩ := hagreed.steps trivial hsteps
  exact ⟨later, hlater, hlaterAgreed, hages⟩

/-- What is remembered right after a node has taken an input. -/
theorem Regular.agreed_after (hregular : run.Regular) {time : Nat}
    {id : NodeId} {input : Input} {output : Output} {after : Node L σ}
    (htakes : run.Takes time id input output after) {chron : Chronicle σ}
    (hscene : chron.scene = (run.network time).scene)
    (hagreed : Agreed run.members chron) :
    id ∈ run.members ∧ Sound after.log ∧
      Moves True input (run.standing time id) after.standing ∧
      (run.standing time id).Settled ∧
      ∃ middle later : Chronicle σ, middle.standing id = after.standing ∧
        later.scene = (run.network (time + 1)).scene ∧
        Agreed run.members middle ∧ Agreed run.members later ∧
        chron.Ages middle ∧ middle.Ages later := by
  have hvalid := hregular.valid
  obtain ⟨-, -, -, -, hid, hbrings⟩ := hvalid.takes htakes
  obtain ⟨hsound, -, hmoves⟩ := Network.taken (hvalid.sane time)
    (hregular.stores_true time) hid htakes.2
  have hsettled := (hagreed.commitment.sworn id hid).settled
  rw [Chronicle.standing, hscene] at hsettled
  rw [← hscene] at hbrings
  have hchain : Moves True input (chron.scene.standings id)
      after.standing := by
    rwa [hscene]
  obtain ⟨middle, hmiddle, hmiddleScene⟩ := chron.exists_steps
    (Scene.steps_of_moves hid hbrings hchain)
  have hrest := hvalid.steps_after hregular.stores_true htakes
  rw [← hscene, ← hmiddleScene] at hrest
  obtain ⟨later, hlater, hlaterScene⟩ := middle.exists_steps hrest
  obtain ⟨hmiddleAgreed, hages⟩ := hagreed.steps trivial hmiddle
  obtain ⟨hlaterAgreed, hmore⟩ := hmiddleAgreed.steps trivial hlater
  refine ⟨hid, hsound, hmoves, hsettled, middle, later, ?_, hlaterScene,
    hmiddleAgreed, hlaterAgreed, hages, hmore⟩
  rw [Chronicle.standing, hmiddleScene, Scene.put_self]

/-- What a node applies is certain. -/
theorem Applies.settles (hregular : run.Regular) {time : Nat} {id : NodeId}
    {place : Nat} {entry : LogEntry}
    (happlies : run.Applies time id (place + 1) entry) {chron : Chronicle σ}
    (hscene : chron.scene = (run.network time).scene)
    (hagreed : Agreed run.members chron) :
    ∃ later : Chronicle σ, later.scene = (run.network (time + 1)).scene ∧
      Agreed run.members later ∧ chron.Ages later ∧
      later.Settles run.members place entry := by
  obtain ⟨input, output, after, htakes, -, hle, hentry⟩ := happlies
  obtain ⟨hid, hsound, -, -, middle, later, hstanding, hlater, hmiddleAgreed,
    hlaterAgreed, hages, hmore⟩ := hregular.agreed_after htakes hscene hagreed
  have hsworn := hmiddleAgreed.commitment.sworn id hid
  rw [hstanding] at hsworn
  rw [get?_succ hsound] at hentry
  refine ⟨later, hlater, hlaterAgreed, hages.trans hmore, ?_⟩
  refine Chronicle.Settles.mono ?_ hmore
  exact ⟨_, _, hsworn.commit.le (Nat.le_trans hle hsworn.settled.applied),
    hentry⟩

/-- Two applications of an index, the second later, are of one entry. -/
theorem Regular.applies_unique (hregular : run.Regular) {first second : Nat}
    {id other : NodeId} {index : Nat} {entry another : LogEntry}
    (hlt : first < second) (hfirst : run.Applies first id index entry)
    (hsecond : run.Applies second other index another) : entry = another := by
  obtain ⟨place, rfl⟩ : ∃ place, index = place + 1 := by
    obtain ⟨_, _, _, _, hlt, -⟩ := hfirst
    exact ⟨index - 1, by omega⟩
  obtain ⟨chron, hscene, hagreed⟩ := hregular.agreed first
  obtain ⟨middle, hmiddle, hmiddleAgreed, -, hsettles⟩ :=
    hfirst.settles hregular hscene hagreed
  obtain ⟨late, hlate, hlateAgreed, hages⟩ :=
    hregular.agreed_later hlt hmiddle hmiddleAgreed
  obtain ⟨last, -, hlastAgreed, hmore, hsettled⟩ :=
    hsecond.settles hregular hlate hlateAgreed
  exact hlastAgreed.settles_unique (hsettles.mono (hages.trans hmore)) hsettled

/-- State machine safety.  A node's state comes from the entries that it
applies, one after the other, and no index is ever applied with two
entries. -/
theorem state_machine_safety (hregular : run.Regular) :
    (∀ time id input output after, run.Takes time id input output after →
      ∃ applied, (run.node time id).executor.Commits applied after.executor ∧
        after.lastApplied = (run.node time id).lastApplied + applied.length ∧
        ∀ offset entry, applied[offset]? = some entry →
          run.Applies time id
            ((run.node time id).lastApplied + offset + 1) entry) ∧
    ∀ first second id other index entry another,
      run.Applies first id index entry →
      run.Applies second other index another → entry = another := by
  constructor
  · intro time id input output after htakes
    obtain ⟨chron, hscene, hagreed⟩ := hregular.agreed time
    obtain ⟨-, hsound, hmoves, hsettled, -⟩ :=
      hregular.agreed_after htakes hscene hagreed
    obtain ⟨hafter, hadvances⟩ := hmoves.settled hsettled
    have hlength := Nat.le_trans hafter.applied hafter.committed
    refine ⟨_, hmoves.commits hsettled, ?_, ?_⟩
    · have hle := hadvances.applied
      rw [Standing.appliedBetween, List.length_drop, List.length_take]
      change after.standing.lastApplied = (run.standing time id).lastApplied + _
      omega
    · intro offset entry hentry
      rw [Standing.appliedBetween, List.getElem?_drop,
        List.getElem?_take] at hentry
      split at hentry
      · rename_i hplace
        refine ⟨input, output, after, htakes, by omega, hplace, ?_⟩
        rw [get?_succ hsound]
        exact hentry
      · simp at hentry
  · intro first second id other index entry another hfirst hsecond
    rcases Nat.lt_trichotomy first second with hlt | rfl | hlt
    · exact hregular.applies_unique hlt hfirst hsecond
    · -- One time has one input and so one outcome.
      obtain ⟨_, _, _, ⟨hinput, hstep⟩, -, -, hentry⟩ := hfirst
      obtain ⟨_, _, _, ⟨hagain, hstepAgain⟩, -, -, hother⟩ := hsecond
      rw [hinput] at hagain
      obtain ⟨rfl, rfl⟩ := Prod.mk.inj (Option.some.inj hagain)
      rw [hstep] at hstepAgain
      obtain ⟨-, rfl⟩ := Prod.mk.inj (Except.ok.inj hstepAgain)
      exact Option.some.inj (hentry.symm.trans hother)
    · exact (hregular.applies_unique hlt hsecond hfirst).symm

end Run

namespace Witness

open FaithfulLog

/-- The entry with which the first leader begins. -/
def opening : LogEntry := ⟨1, 1, .noOp⟩

/-- A run in which a leader commits its first entry and tells a follower. -/
def replicated : Run MemoryLog Tally where
  members := [1, 2, 3]
  start := { nodes := member .empty .start, sent := [] }
  happenings := [
    .input 1 .electionTimeout,
    .delivery ⟨1, 2, .vote ⟨1, 1, 0, 0⟩⟩,
    .delivery ⟨2, 1, .voteResponse (.ok ⟨1, true⟩)⟩,
    .delivery ⟨1, 2, .append ⟨1, 1, 0, 0, [opening], 0, 1⟩⟩,
    .delivery ⟨2, 1, .appendResponse (.ok ⟨1, true, 1, 1⟩)⟩,
    .input 1 .heartbeat,
    .delivery ⟨1, 2, .append ⟨1, 1, 1, 1, [], 1, 2⟩⟩]

theorem replicated_regular : replicated.Regular where
  valid := {
    distinct := by decide
    begins := fun id _ => ⟨{}, .empty, .start, numbered_nil, rfl⟩
    silent := rfl
    possible := fun time happening hhappening => by
      rcases time with _ | _ | _ | _ | _ | _ | _ | time
      all_goals simp only [replicated, List.getElem?_cons_succ,
        List.getElem?_cons_zero, List.getElem?_nil, Option.some.injEq,
        reduceCtorEq] at hhappening
      all_goals subst hhappening
      all_goals exact ⟨by decide, by decide⟩ }
  empty _ _ := rfl
  stores _ _ _ := MemoryLog.storesVotes _

/-- Two nodes apply the first index with one entry, and so does everybody who
ever applies it. -/
theorem state_machine_safety_replicated :
    replicated.Regular ∧ replicated.Applies 4 1 1 opening ∧
      replicated.Applies 6 2 1 opening ∧
      ∀ time id entry, replicated.Applies time id 1 entry → opening = entry := by
  have hfirst : replicated.Applies 4 1 1 opening :=
    ⟨_, _, _, ⟨rfl, rfl⟩, by decide, by decide, rfl⟩
  have hsecond : replicated.Applies 6 2 1 opening :=
    ⟨_, _, _, ⟨rfl, rfl⟩, by decide, by decide, rfl⟩
  exact ⟨replicated_regular, hfirst, hsecond, fun time id entry =>
    (Run.state_machine_safety replicated_regular).2 4 time 1 id 1 opening entry
      hfirst⟩

end Witness

end SessionRaft
