/-
The life of one node, whatever reaches it: any messages, also forged ones, any
requests, storage that begins or ceases to fail, and starts after a stop.  A
life is a list of incidents; everything else is computed.
-/
import SessionRaft.Proofs.DeskInvariants
import SessionRaft.Proofs.DeskTurns
import SessionRaft.Proofs.Replay
import SessionRaft.Proofs.Scene

namespace SessionRaft

open FaithfulLog

/-- What can happen to a node. -/
inductive Incident (L σ : Type) where
  /-- It takes an input, and what it has to say is taken from it. -/
  | input (input : Input)
  /-- Its storage begins or ceases to fail. -/
  | refit (log : L)
  | restart (config : Config) (log : L) (machine : σ)

/-- A node and all that happens to it. -/
structure Life (L σ : Type) where
  start : Node L σ
  incidents : List (Incident L σ)

/-- Whether something can happen to a node: storage keeps what was written to
it. -/
def Incident.Possible {L σ : Type} [LogStore L] [FaithfulLog L]
    (node : Node L σ) : Incident L σ → Prop
  | .input _ => True
  | .refit log => Sound log ∧ memory log = memory node.log
  | .restart _ log _ => Sound log ∧ memory log = memory node.log

/-- Only a leader keeps what a leader keeps. -/
def Standing.Led {σ : Type} (standing : Standing σ) : Prop :=
  standing.leadership.isSome = true → standing.role = .leader

theorem Moves.led {σ : Type} [StateMachine σ] {steady : Prop} {input : Input}
    {before after : Standing σ} (hled : before.Led)
    (hmoves : Moves steady input before after) : after.Led := by
  induction hmoves with
  | refl => exact hled
  | tail _ hmove ih =>
      cases hmove with
      | lead _ _ => exact fun _ => rfl
      | heed _ _ hrole _ _ => exact fun _ => hrole
      | stand hnone => exact fun hsome => by simp [hnone] at hsome
      | round hleadership => exact fun _ => ih (by simp [hleadership])
      | adopt _ _ _ | yield _ | retire _ => exact fun hsome => by simp at hsome
      | _ => exact ih

theorem Turns.founded {fails : SessionId → Nat → Prop} {input : Input}
    {before after : Desk} (hfounded : before.Founded)
    (hturns : Turns fails input before after) : after.Founded := by
  induction hturns with
  | refl => exact hfounded
  | tail _ hturn ih => exact hturn.founded ih

namespace Node

variable {L σ : Type} [LogStore L]

/-- The node after an incident.  Numbers that outgrow a machine word leave it
as it was. -/
def undergo [StateMachine σ] (node : Node L σ) : Incident L σ → Node L σ
  | .input input =>
      match node.step input with
      | .error _ => node
      | .ok (_, after) => after.take.2.2
  | .refit log => { node with log := log }
  | .restart config log machine =>
      match Node.start node.id node.members config log machine with
      | .error _ => node
      | .ok fresh => fresh

variable [FaithfulLog L]

/-- What holds of every node at all times. -/
structure Proper (node : Node L σ) : Prop where
  sound : Sound node.log
  settled : node.standing.Settled
  led : node.standing.Led
  founded : node.desk.Founded

variable {node fresh after : Node L σ}

theorem Proper.leads (hproper : node.Proper)
    (hsome : node.leadership.isSome = true) : node.role = .leader :=
  hproper.led (by simpa [standing] using hsome)

/-- The desk of a node that begins on its log. -/
theorem start_desk {id : NodeId} {members : List NodeId} {config : Config}
    {log : L} {machine : σ} (hlog : Sound log)
    (hstart : Node.start id members config log machine = .ok fresh) :
    fresh.desk =
      { term := (stored log).1
        entries := entries log
        applied := 0
        marks := fun _ => none
        lanes := none
        posted := [] } := by
  unfold Node.start at hstart
  split at hstart
  · simp at hstart
  · rw [loadVote_eq hlog] at hstart
    obtain rfl := Except.ok.inj hstart
    rfl

theorem proper_start {id : NodeId} {members : List NodeId} {config : Config}
    {log : L} {machine : σ} (hlog : Sound log)
    (hstart : Node.start id members config log machine = .ok fresh) :
    fresh.Proper := by
  obtain ⟨hkept, hstanding⟩ := Network.start_standing hlog hstart
  refine ⟨hkept ▸ hlog, ?_, ?_, ?_⟩
  · rw [hstanding]
    exact ⟨Nat.le_refl 0, Nat.zero_le _⟩
  · rw [hstanding]
    exact fun hsome => by simp [Standing.start] at hsome
  · rw [start_desk hlog hstart]
    exact ⟨numbered hlog, Nat.zero_le _, fun _ _ hmark => by simp at hmark,
      fun _ hlanes => by simp at hlanes⟩

/-- Nothing is lost by taking what a node has to say. -/
theorem Proper.take (hproper : node.Proper) : node.take.2.2.Proper where
  sound := hproper.sound
  settled := ⟨hproper.settled.applied, hproper.settled.committed⟩
  led := hproper.led
  founded := ⟨hproper.founded.numbered, hproper.founded.applied_le,
    hproper.founded.opened, hproper.founded.kept⟩

/-- Storage that keeps what was written makes no difference. -/
theorem refit_same {log : L} (hmemory : memory log = memory node.log) :
    ({ node with log := log } : Node L σ).standing = node.standing ∧
      ({ node with log := log } : Node L σ).desk = node.desk := by
  have hentries : entries log = entries node.log :=
    congrArg MemoryLog.entries hmemory
  have hstored : stored log = stored node.log := by
    simp only [stored, hmemory]
  simp only [standing, desk, hentries, hstored, and_self]

variable [StateMachine σ]

/-- Moves of a node that are turns of its desk preserve what holds of every
node. -/
theorem Proper.turned {fails : SessionId → Nat → Prop} {input : Input}
    (hproper : node.Proper) (hproceeds : Proceeds False input node after)
    (hturnsTo : TurnsTo fails input node after) : after.Proper := by
  obtain ⟨hfit, hmoves⟩ := hproceeds (.of_sound hproper.sound)
  obtain ⟨-, hturns⟩ := hturnsTo hproper.sound
  exact ⟨hfit.sound, (hmoves.settled hproper.settled).1,
    hmoves.led hproper.led, hturns.founded hproper.founded⟩

theorem Proper.step {input : Input} {output : Output}
    (hproper : node.Proper) (hstep : node.step input = .ok (output, after)) :
    after.Proper := by
  have hturnsTo : TurnsTo (fun _ _ => True) input node after :=
    step_turnsTo hstep hproper.founded hproper.settled hproper.leads
      (fun _ _ _ _ _ => trivial)
  exact hproper.turned (step_proceeds hstep) hturnsTo

/-- The moves of a node in a step. -/
theorem Proper.moves {input : Input} {output : Output} (hproper : node.Proper)
    (hstep : node.step input = .ok (output, after)) :
    Moves False input node.standing after.standing :=
  ((step_proceeds hstep) (.of_sound hproper.sound)).2

/-- The turns of a desk in a step that fails at most for what is named. -/
theorem Proper.turns {fails : SessionId → Nat → Prop} {input : Input}
    {output : Output} (hproper : node.Proper)
    (hstep : node.step input = .ok (output, after))
    (hfails : ∀ ticket request, input = .command ticket request →
      after.Refused → ¬StoresEntries node.log →
        fails request.session node.term) :
    Turns fails input node.desk after.desk :=
  (step_turnsTo hstep hproper.founded hproper.settled hproper.leads hfails
    hproper.sound).2

/-- What becomes of a node in an incident. -/
inductive Undergoes (node : Node L σ) : Incident L σ → Node L σ → Prop where
  | overflow {input : Input} {overflow : Overflow}
      (hstep : node.step input = .error overflow) :
      Undergoes node (.input input) node
  | taken {input : Input} {output : Output} {after : Node L σ}
      (hstep : node.step input = .ok (output, after)) :
      Undergoes node (.input input) after.take.2.2
  | refit {log : L} (hlog : Sound log)
      (hmemory : memory log = memory node.log) :
      Undergoes node (.refit log) { node with log := log }
  | unfit {config : Config} {log : L} {machine : σ} :
      Undergoes node (.restart config log machine) node
  | restarted {config : Config} {log : L} {machine : σ} {fresh : Node L σ}
      (hlog : Sound log) (hmemory : memory log = memory node.log)
      (hstart : Node.start node.id node.members config log machine =
        .ok fresh) :
      Undergoes node (.restart config log machine) fresh

theorem undergoes (node : Node L σ) {incident : Incident L σ}
    (hpossible : incident.Possible node) :
    node.Undergoes incident (node.undergo incident) := by
  cases incident with
  | input input =>
      simp only [undergo]
      split
      · rename_i hstep
        exact .overflow hstep
      · rename_i hstep
        exact .taken hstep
  | refit log => exact .refit hpossible.1 hpossible.2
  | restart config log machine =>
      simp only [undergo]
      split
      · exact .unfit
      · rename_i hstart
        exact .restarted hpossible.1 hpossible.2 hstart

theorem Proper.undergoes {incident : Incident L σ} (hproper : node.Proper)
    (hundergoes : node.Undergoes incident after) : after.Proper := by
  cases hundergoes with
  | overflow _ => exact hproper
  | taken hstep => exact (hproper.step hstep).take
  | refit hlog hmemory =>
      obtain ⟨hstanding, hdesk⟩ := refit_same hmemory
      refine ⟨hlog, ?_, ?_, ?_⟩
      · rw [hstanding]
        exact hproper.settled
      · rw [hstanding]
        exact hproper.led
      · rw [hdesk]
        exact hproper.founded
  | unfit => exact hproper
  | restarted hlog _ hstart => exact proper_start hlog hstart

end Node

namespace Life

variable {L σ : Type} [LogStore L] [StateMachine σ]

/-- The node after the first incidents, as many as `time`. -/
def node (life : Life L σ) (time : Nat) : Node L σ :=
  (life.incidents.take time).foldl Node.undergo life.start

/-- At a time the node takes an input, tells the output and becomes `after`,
from which nothing was taken yet. -/
def Takes (life : Life L σ) (time : Nat) (input : Input) (output : Output)
    (after : Node L σ) : Prop :=
  life.incidents[time]? = some (.input input) ∧
    (life.node time).step input = .ok (output, after)

/-- The node begins on its log, and only what is possible happens to it. -/
structure Valid [FaithfulLog L] (life : Life L σ) : Prop where
  begins : ∃ id members config log machine, Sound log ∧
    Node.start id members config log machine = .ok life.start
  possible : ∀ (time : Nat) (incident : Incident L σ),
    life.incidents[time]? = some incident →
      incident.Possible (life.node time)

/-- Inputs are possible at any time. -/
theorem possible_of_inputs [FaithfulLog L] {life : Life L σ}
    (hinputs : ∀ incident ∈ life.incidents, ∃ input, incident = .input input)
    (time : Nat) (incident : Incident L σ)
    (hincident : life.incidents[time]? = some incident) :
    incident.Possible (life.node time) := by
  obtain ⟨input, rfl⟩ := hinputs incident (List.mem_of_getElem? hincident)
  exact trivial

theorem node_succ {life : Life L σ} {time : Nat} {incident : Incident L σ}
    (hincident : life.incidents[time]? = some incident) :
    life.node (time + 1) = (life.node time).undergo incident := by
  have htake : life.incidents.take (time + 1) =
      life.incidents.take time ++ [incident] := by
    rw [List.take_add_one, hincident]
    rfl
  rw [node, htake, List.foldl_append]
  rfl

/-- Nothing happens past the end of a life. -/
theorem node_succ_of_end {life : Life L σ} {time : Nat}
    (hend : life.incidents[time]? = none) :
    life.node (time + 1) = life.node time := by
  rw [node, node, List.take_add_one, hend]
  simp

theorem Takes.node_succ {life : Life L σ} {time : Nat} {input : Input}
    {output : Output} {after : Node L σ}
    (htakes : life.Takes time input output after) :
    life.node (time + 1) = after.take.2.2 := by
  rw [Life.node_succ htakes.1]
  simp only [Node.undergo, htakes.2]

variable [FaithfulLog L] {life : Life L σ}

/-- What the incidents preserve that follow on a time holds ever after. -/
theorem Valid.always (hvalid : life.Valid) (holds : Node L σ → Prop)
    {first time : Nat} (hle : first ≤ time) (hfirst : holds (life.node first))
    (hnext : ∀ later incident after, first ≤ later →
      life.incidents[later]? = some incident →
      holds (life.node later) →
      (life.node later).Undergoes incident after → holds after) :
    holds (life.node time) := by
  induction hle with
  | refl => exact hfirst
  | @step time hle ih =>
      cases hincident : life.incidents[time]? with
      | none => rwa [node_succ_of_end hincident]
      | some incident =>
          rw [Life.node_succ hincident]
          exact hnext time incident _ hle hincident ih
            ((life.node time).undergoes (hvalid.possible time _ hincident))

theorem Valid.proper (hvalid : life.Valid) (time : Nat) :
    (life.node time).Proper := by
  obtain ⟨_, _, _, _, _, hlog, hstart⟩ := hvalid.begins
  exact hvalid.always Node.Proper (Nat.zero_le time)
    (Node.proper_start hlog hstart)
    (fun _ _ _ _ _ hproper => hproper.undergoes)

/-- What every node has at its start, what moves preserve and what is not about
messages and answers holds at all times. -/
theorem Valid.always_standing (hvalid : life.Valid)
    {holds : Standing σ → Prop}
    (hstart : ∀ id members stored entries machine,
      holds (.start id members stored entries machine))
    (hmoves : ∀ {input before after}, holds before →
      Moves False input before after → holds after)
    (hemptied : ∀ standing, holds standing → holds standing.emptied)
    (time : Nat) : holds (life.node time).standing := by
  obtain ⟨_, _, _, _, _, hlog, hbegins⟩ := hvalid.begins
  refine (hvalid.always (fun node => node.Proper ∧ holds node.standing)
    (Nat.zero_le time) ⟨hvalid.proper 0, ?_⟩ ?_).2
  · rw [show life.node 0 = life.start from rfl,
      (Network.start_standing hlog hbegins).2]
    exact hstart _ _ _ _ _
  · rintro later incident next - - ⟨hproper, hholds⟩ hundergoes
    refine ⟨hproper.undergoes hundergoes, ?_⟩
    cases hundergoes with
    | overflow _ | unfit => exact hholds
    | taken hstep => exact hemptied _ (hmoves hholds (hproper.moves hstep))
    | refit _ hmemory =>
        rw [(Node.refit_same hmemory).1]
        exact hholds
    | restarted hlog _ hbegins =>
        rw [(Network.start_standing hlog hbegins).2]
        exact hstart _ _ _ _ _

end Life

/-- What a happening in a network is to one of its nodes. -/
def Happening.incident? {L σ : Type} (id : NodeId) :
    Happening L σ → Option (Incident L σ)
  | .input taker given => if taker = id then some (.input given) else none
  | .delivery envelope =>
      if envelope.receiver = id then some (.input envelope.input) else none
  | .refit other log => if other = id then some (.refit log) else none
  | .restart other config log machine =>
      if other = id then some (.restart config log machine) else none

theorem Happening.input?_eq {L σ : Type} {id : NodeId} {given : Input}
    {happening : Happening L σ}
    (hincident : happening.incident? id = some (.input given)) :
    happening.input? = some (id, given) := by
  cases happening <;>
    simp only [incident?, Option.ite_none_right_eq_some, Option.some.injEq,
      reduceCtorEq, and_false, Incident.input.injEq] at hincident
  all_goals
    obtain ⟨rfl, rfl⟩ := hincident
    rfl

namespace Network

variable {L σ : Type} [LogStore L] [StateMachine σ]

/-- What happens in a network leaves a node alone, or the node undergoes it. -/
theorem next_nodes (network : Network L σ) {id : NodeId}
    (hid : (network.nodes id).id = id) (happening : Happening L σ) :
    (network.next happening).nodes id =
      match happening.incident? id with
      | none => network.nodes id
      | some incident => (network.nodes id).undergo incident := by
  have hset : ∀ other (node : Node L σ), (network.set other node).nodes id =
      if other = id then node else network.nodes id := by
    intro other node
    simp only [set, Function.update_apply, eq_comm]
  have hhandle : ∀ other given reply?,
      (network.handle other given reply?).nodes id =
        if other = id then (network.nodes id).undergo (.input given)
        else network.nodes id := by
    intro other given reply?
    by_cases heq : other = id
    · subst heq
      rw [if_pos rfl, handle, Node.undergo]
      cases (network.nodes other).step given with
      | error overflow => rfl
      | ok result => exact (hset other result.2.take.2.2).trans (if_pos rfl)
    · rw [if_neg heq, handle]
      split
      · rfl
      · exact (hset other _).trans (if_neg heq)
  cases happening with
  | input taker given =>
      refine (hhandle taker given _).trans ?_
      simp only [Happening.incident?]
      split <;> rfl
  | delivery envelope =>
      refine (hhandle _ _ _).trans ?_
      simp only [Happening.incident?]
      split <;> rfl
  | refit other log =>
      refine (hset other _).trans ?_
      simp only [Happening.incident?]
      split
      · rename_i heq
        subst heq
        rfl
      · rfl
  | restart other config log machine =>
      simp only [next, Happening.incident?]
      by_cases heq : other = id
      · subst heq
        simp only [↓reduceIte, Node.undergo, hid]
        cases Node.start other (network.nodes other).members config log
            machine with
        | error error => rfl
        | ok fresh => exact (hset other fresh).trans (if_pos rfl)
      · simp only [heq, ↓reduceIte]
        split
        · rfl
        · exact (hset other _).trans (if_neg heq)

end Network

namespace Run

variable {L σ : Type} [LogStore L] [FaithfulLog L] [StateMachine σ]
  {run : Run L σ}

theorem Valid.id_eq (hvalid : run.Valid) (time : Nat) {id : NodeId}
    (hid : id ∈ run.members) : (run.node time id).id = id :=
  (hvalid.sane time id hid).2

/-- A member of a network stays as it is or undergoes an incident. -/
theorem Valid.undergoes (hvalid : run.Valid) (time : Nat) {id : NodeId}
    (hid : id ∈ run.members) :
    run.node (time + 1) id = run.node time id ∨
      ∃ happening incident, run.happenings[time]? = some happening ∧
        happening.incident? id = some incident ∧
        (run.node time id).Undergoes incident (run.node (time + 1) id) := by
  cases hhappening : run.happenings[time]? with
  | none =>
      exact Or.inl (congrArg (fun network => network.nodes id)
        (network_succ_of_end hhappening))
  | some happening =>
      have hnext : run.node (time + 1) id = _ :=
        (congrArg (fun network => network.nodes id)
          (network_succ hhappening)).trans
            (Network.next_nodes _ (hvalid.id_eq time hid) happening)
      cases hincident : happening.incident? id with
      | none =>
          rw [hincident] at hnext
          exact Or.inl hnext
      | some incident =>
          rw [hincident] at hnext
          refine Or.inr ⟨happening, incident, rfl, hincident, ?_⟩
          rw [hnext]
          refine (run.node time id).undergoes ?_
          have hpossible := hvalid.possible time happening hhappening
          cases happening <;>
            simp only [Happening.incident?, Option.ite_none_right_eq_some,
              Option.some.injEq] at hincident
          all_goals obtain ⟨rfl, rfl⟩ := hincident
          · exact trivial
          · exact trivial
          · exact hpossible.2
          · exact hpossible.2

theorem Valid.proper (hvalid : run.Valid) (time : Nat) {id : NodeId}
    (hid : id ∈ run.members) : (run.node time id).Proper := by
  induction time with
  | zero =>
      obtain ⟨_, _, _, hlog, hstart⟩ := hvalid.begins id hid
      exact Node.proper_start hlog hstart
  | succ time ih =>
      rcases hvalid.undergoes time hid with hsame | ⟨_, _, -, -, hundergoes⟩
      · rw [hsame]
        exact ih
      · exact ih.undergoes hundergoes

end Run

end SessionRaft
