/-
A scene together with what is remembered of its past: who voted for whom, who
won, which log was led and how far it was taken over.  Nothing of this steers
anything; every chain of scene steps can be chronicled.
-/
import SessionRaft.Proofs.Scene

namespace SessionRaft

def mark {α : Type} (pages : NodeId → Nat → α) (id : NodeId) (term : Nat)
    (value : α) : NodeId → Nat → α :=
  Function.update pages id (Function.update (pages id) term value)

section Mark

variable {α : Type} (pages : NodeId → Nat → α) {id other : NodeId}
  {term later : Nat} (value : α)

@[simp] theorem mark_self : mark pages id term value id term = value := by
  simp [mark]

theorem mark_of_ne (hne : other ≠ id ∨ later ≠ term) :
    mark pages id term value other later = pages other later := by
  by_cases hid : other = id
  · subst hid
    have hterm : later ≠ term := hne.resolve_left (fun hne => hne rfl)
    simp [mark, Function.update_of_ne hterm]
  · simp [mark, Function.update_of_ne hid]

theorem mark_eq_self (hvalue : pages id term = value) :
    mark pages id term value = pages := by
  subst hvalue
  simp [mark]

end Mark

/-- A scene and its past. -/
structure Chronicle (σ : Type) where
  scene : Scene σ
  /-- The vote that a node stored in a term. -/
  ballot : NodeId → Nat → Option NodeId
  /-- The node that won a term. -/
  winner : Nat → Option NodeId
  /-- The log of a term's leader. -/
  canon : Nat → List LogEntry
  /-- The log with which a node stood for a term. -/
  bid : NodeId → Nat → List LogEntry
  /-- How far a node has taken over the log of a term's leader. -/
  taken : NodeId → Nat → Nat

namespace Chronicle

variable {σ : Type}

def standing (chron : Chronicle σ) (id : NodeId) : Standing σ :=
  chron.scene.standings id

/-- Note what a member has become by a move. -/
def note (chron : Chronicle σ) (id : NodeId) (after : Standing σ) :
    Chronicle σ where
  scene := chron.scene.put id after
  ballot := mark chron.ballot id after.stored.1 after.stored.2
  winner :=
    if after.role = .leader then
      Function.update chron.winner after.term (some id)
    else chron.winner
  canon :=
    if after.role = .leader then
      Function.update chron.canon after.term after.entries
    else chron.canon
  bid :=
    if after.role = .candidate then
      mark chron.bid id after.term after.entries
    else chron.bid
  taken :=
    if after.role = .leader then
      mark chron.taken id after.term after.entries.length
    else chron.taken

@[simp] theorem note_standing_self (chron : Chronicle σ) (id : NodeId)
    (after : Standing σ) : (chron.note id after).standing id = after :=
  chron.scene.put_self id after

theorem note_standing_of_ne (chron : Chronicle σ) {id other : NodeId}
    (hne : other ≠ id) (after : Standing σ) :
    (chron.note id after).standing other = chron.standing other :=
  Scene.put_of_ne hne after

theorem note_ballot (chron : Chronicle σ) (id : NodeId) (after : Standing σ) :
    (chron.note id after).ballot =
      mark chron.ballot id after.stored.1 after.stored.2 := rfl

theorem note_winner (chron : Chronicle σ) (id : NodeId) (after : Standing σ) :
    (chron.note id after).winner =
      if after.role = .leader then
        Function.update chron.winner after.term (some id)
      else chron.winner := rfl

theorem note_canon (chron : Chronicle σ) (id : NodeId) (after : Standing σ) :
    (chron.note id after).canon =
      if after.role = .leader then
        Function.update chron.canon after.term after.entries
      else chron.canon := rfl

theorem note_bid (chron : Chronicle σ) (id : NodeId) (after : Standing σ) :
    (chron.note id after).bid =
      if after.role = .candidate then
        mark chron.bid id after.term after.entries
      else chron.bid := rfl

theorem note_taken (chron : Chronicle σ) (id : NodeId) (after : Standing σ) :
    (chron.note id after).taken =
      if after.role = .leader then
        mark chron.taken id after.term after.entries.length
      else chron.taken := rfl

/-- How far members have taken over their leaders' logs, once one of them has
given an answer. -/
def credit (chron : Chronicle σ) (id : NodeId) :
    AppendResponse → NodeId → Nat → Nat
  | .ok ⟨term, true, index, _⟩ =>
      mark chron.taken id term (max (chron.taken id term) index)
  | _ => chron.taken

/-- A scene step with its note. -/
inductive Step [StateMachine σ] (steady : Prop) (members : List NodeId) :
    Chronicle σ → Chronicle σ → Prop where
  | move {chron : Chronicle σ} {id : NodeId} {input : Input}
      {after : Standing σ} (hid : id ∈ members)
      (hbrings : chron.scene.Brings id input)
      (hmove : Move steady input (chron.standing id) after) :
      Step steady members chron (chron.note id after)
  | mail {chron : Chronicle σ} {id : NodeId} (hid : id ∈ members) :
      Step steady members chron { chron with
        scene := (chron.scene.put id (chron.standing id).emptied).send
          (chron.standing id).posted }
  | vouch {chron : Chronicle σ} {id sender : NodeId} {request : VoteRequest}
      {response : VoteResponse} (hid : id ∈ members)
      (hsent : ⟨sender, id, .vote request⟩ ∈ chron.scene.sent)
      (hvouches : (chron.standing id).Vouches request response) :
      Step steady members chron { chron with
        scene := chron.scene.send [⟨id, sender, .voteResponse response⟩] }
  | confirm {chron : Chronicle σ} {id sender : NodeId}
      {request : AppendRequest} {response : AppendResponse}
      (hid : id ∈ members)
      (hsent : ⟨sender, id, .append request⟩ ∈ chron.scene.sent)
      (hconfirms : (chron.standing id).Confirms request response) :
      Step steady members chron { chron with
        scene := chron.scene.send [⟨id, sender, .appendResponse response⟩]
        taken := chron.credit id response }
  | restart {chron : Chronicle σ} {id : NodeId} {machine : σ}
      (hid : id ∈ members) :
      Step steady members chron { chron with
        scene := chron.scene.put id
          (.start id (chron.standing id).members (chron.standing id).stored
            (chron.standing id).entries machine) }

def Steps [StateMachine σ] (steady : Prop) (members : List NodeId) :
    Chronicle σ → Chronicle σ → Prop :=
  Relation.ReflTransGen (Step steady members)

variable [StateMachine σ] {steady : Prop} {members : List NodeId}

theorem exists_step {chron : Chronicle σ} {after : Scene σ}
    (hstep : Scene.Step steady members chron.scene after) :
    ∃ next, Step steady members chron next ∧ next.scene = after := by
  generalize hscene : chron.scene = scene at hstep
  cases hstep with
  | move hid hbrings hmove =>
      subst hscene
      exact ⟨_, .move hid hbrings hmove, rfl⟩
  | mail hid =>
      subst hscene
      exact ⟨_, .mail hid, rfl⟩
  | vouch hid hsent hvouches =>
      subst hscene
      exact ⟨_, .vouch hid hsent hvouches, rfl⟩
  | confirm hid hsent hconfirms =>
      subst hscene
      exact ⟨_, .confirm hid hsent hconfirms, rfl⟩
  | restart hid =>
      subst hscene
      exact ⟨_, .restart hid, rfl⟩

/-- Every chain of scene steps can be chronicled. -/
theorem exists_steps (chron : Chronicle σ) {after : Scene σ}
    (hsteps : Scene.Steps steady members chron.scene after) :
    ∃ next, Steps steady members chron next ∧ next.scene = after := by
  generalize hscene : chron.scene = scene at hsteps
  induction hsteps with
  | refl => exact ⟨chron, .refl, hscene⟩
  | tail _ hstep ih =>
      obtain ⟨middle, hmiddle, rfl⟩ := ih
      obtain ⟨next, hnext, hafter⟩ := exists_step hstep
      exact ⟨next, hmiddle.tail hnext, hafter⟩

/-- The chronicle at the beginning, when nothing but the stored votes is
known. -/
def first (scene : Scene σ) : Chronicle σ where
  scene := scene
  ballot id term :=
    if term = (scene.standings id).stored.1 then (scene.standings id).stored.2
    else none
  winner _ := none
  canon _ := []
  bid _ _ := []
  taken _ _ := 0

end Chronicle

/-- The members begin with their logs, and nothing was sent before. -/
structure Scene.Begins {σ : Type} (members : List NodeId) (scene : Scene σ) :
    Prop where
  silent : scene.sent = []
  begins : ∀ id ∈ members, ∃ stored entries machine,
    scene.standings id = .start id members stored entries machine

namespace Run

open FaithfulLog

variable {L σ : Type} [LogStore L] [FaithfulLog L] [StateMachine σ]
  {run : Run L σ}

theorem Valid.scene_begins (hvalid : run.Valid) :
    (run.network 0).scene.Begins run.members where
  silent := hvalid.silent
  begins id hid := by
    obtain ⟨config, log, machine, hlog, hstart⟩ := hvalid.begins id hid
    exact ⟨_, _, machine, (Network.start_standing hlog hstart).2⟩

/-- A chronicle of a run can be carried on to any later time. -/
theorem Valid.carried {steady : Prop} (hvalid : run.Valid)
    (hstores : run.Stores steady) {first second : Nat}
    (hle : first ≤ second) {chron : Chronicle σ}
    (hscene : chron.scene = (run.network first).scene) :
    ∃ next, chron.Steps steady run.members next ∧
      next.scene = (run.network second).scene := by
  induction hle with
  | refl => exact ⟨chron, .refl, hscene⟩
  | @step second _ ih =>
      obtain ⟨middle, hmiddle, hsecond⟩ := ih
      obtain ⟨next, hnext, hafter⟩ := middle.exists_steps
        (hsecond ▸ hvalid.steps hstores second)
      exact ⟨next, hmiddle.trans hnext, hafter⟩

/-- A run can be chronicled from its beginning. -/
theorem Valid.chronicled {steady : Prop} (hvalid : run.Valid)
    (hstores : run.Stores steady) (time : Nat) :
    ∃ chron, (Chronicle.first (run.network 0).scene).Steps steady
        run.members chron ∧
      chron.scene = (run.network time).scene :=
  hvalid.carried hstores (Nat.zero_le time) rfl

end Run

end SessionRaft
