/-
A network as its nodes' standings and the messages that were sent.  Whatever
happens in a network is a chain of scene steps: the moves of one node, then
what it sends off, then its answer.
-/
import SessionRaft.Proofs.Network

namespace SessionRaft

namespace Standing

variable {σ : Type}

/-- The standing with which a node begins on its log. -/
def start (id : NodeId) (members : List NodeId)
    (stored : Nat × Option NodeId) (entries : List LogEntry) (machine : σ) :
    Standing σ where
  id := id
  members := members
  role := .follower
  term := stored.1
  votedFor := stored.2
  votes := []
  stored := stored
  entries := entries
  commitIndex := 0
  lastApplied := 0
  executor := .start machine
  leadership := none
  mail := []
  queries := []
  served := []

/-- The standing once everything the node has to say was taken. -/
def emptied (standing : Standing σ) : Standing σ :=
  { standing with mail := [], served := [] }

/-- The messages that a node sends off. -/
def posted (standing : Standing σ) : List Envelope :=
  standing.mail.filterMap (Outbound.envelope? standing.id)

end Standing

/-- The standings of the nodes, and every message that one ever sent. -/
structure Scene (σ : Type) where
  standings : NodeId → Standing σ
  sent : List Envelope

namespace Scene

variable {σ : Type}

def put (scene : Scene σ) (id : NodeId) (standing : Standing σ) : Scene σ :=
  { scene with standings := Function.update scene.standings id standing }

def send (scene : Scene σ) (messages : List Envelope) : Scene σ :=
  { scene with sent := scene.sent ++ messages }

/-- Whether a node can be given an input. -/
def Brings (scene : Scene σ) (id : NodeId) (input : Input) : Prop :=
  input.isLocal = true ∨
    ∃ envelope ∈ scene.sent, envelope.receiver = id ∧ envelope.input = input

/-- One thing that happens in a scene. -/
inductive Step [StateMachine σ] (steady : Prop) (members : List NodeId) :
    Scene σ → Scene σ → Prop where
  | move {scene : Scene σ} {id : NodeId} {input : Input} {after : Standing σ}
      (hid : id ∈ members) (hbrings : scene.Brings id input)
      (hmove : Move steady input (scene.standings id) after) :
      Step steady members scene (scene.put id after)
  /-- A member sends off its mail. -/
  | mail {scene : Scene σ} {id : NodeId} (hid : id ∈ members) :
      Step steady members scene
        ((scene.put id (scene.standings id).emptied).send
          (scene.standings id).posted)
  | vouch {scene : Scene σ} {id sender : NodeId} {request : VoteRequest}
      {response : VoteResponse} (hid : id ∈ members)
      (hsent : ⟨sender, id, .vote request⟩ ∈ scene.sent)
      (hvouches : (scene.standings id).Vouches request response) :
      Step steady members scene
        (scene.send [⟨id, sender, .voteResponse response⟩])
  /-- A member answers a request with entries. -/
  | confirm {scene : Scene σ} {id sender : NodeId} {request : AppendRequest}
      {response : AppendResponse} (hid : id ∈ members)
      (hsent : ⟨sender, id, .append request⟩ ∈ scene.sent)
      (hconfirms : (scene.standings id).Confirms request response) :
      Step steady members scene
        (scene.send [⟨id, sender, .appendResponse response⟩])
  | restart {scene : Scene σ} {id : NodeId} {machine : σ}
      (hid : id ∈ members) :
      Step steady members scene (scene.put id
        (.start id (scene.standings id).members (scene.standings id).stored
          (scene.standings id).entries machine))

def Steps [StateMachine σ] (steady : Prop) (members : List NodeId) :
    Scene σ → Scene σ → Prop :=
  Relation.ReflTransGen (Step steady members)

@[simp] theorem put_self (scene : Scene σ) (id : NodeId)
    (standing : Standing σ) : (scene.put id standing).standings id = standing :=
  Function.update_self ..

theorem put_of_ne {scene : Scene σ} {id other : NodeId}
    (hne : other ≠ id) (standing : Standing σ) :
    (scene.put id standing).standings other = scene.standings other :=
  Function.update_of_ne hne ..

@[simp] theorem put_sent (scene : Scene σ) (id : NodeId)
    (standing : Standing σ) : (scene.put id standing).sent = scene.sent := rfl

@[simp] theorem send_standings (scene : Scene σ) (messages : List Envelope) :
    (scene.send messages).standings = scene.standings := rfl

@[simp] theorem put_put (scene : Scene σ) (id : NodeId)
    (first second : Standing σ) :
    (scene.put id first).put id second = scene.put id second := by
  simp only [put, Function.update_idem]

@[simp] theorem put_same (scene : Scene σ) (id : NodeId) :
    scene.put id (scene.standings id) = scene := by
  simp only [put, Function.update_eq_self]

variable [StateMachine σ] {steady : Prop} {members : List NodeId}

/-- The moves of a member, one after the other. -/
theorem steps_of_moves {scene : Scene σ} {id : NodeId} {input : Input}
    {after : Standing σ} (hid : id ∈ members)
    (hbrings : scene.Brings id input)
    (hmoves : Moves steady input (scene.standings id) after) :
    Steps steady members scene (scene.put id after) := by
  induction hmoves with
  | refl =>
      rw [put_same]
      exact .refl
  | tail hbefore hmove ih =>
      rename_i middle last
      apply ih.tail
      have hstep : Step steady members (scene.put id middle)
          ((scene.put id middle).put id last) :=
        .move hid hbrings (by rwa [put_self])
      rwa [put_put] at hstep

end Scene

namespace Network

open FaithfulLog

variable {L σ : Type} [LogStore L] [FaithfulLog L]

/-- A network as the agreement of its nodes depends on it. -/
def scene (network : Network L σ) : Scene σ where
  standings id := (network.nodes id).standing
  sent := network.sent

/-- Every member bears its own name and has a log that keeps its contract. -/
def Sane (members : List NodeId) (network : Network L σ) : Prop :=
  ∀ id ∈ members, Sound (network.nodes id).log ∧ (network.nodes id).id = id

/-- Where `steady` holds, the members store every vote. -/
def Stores (steady : Prop) (members : List NodeId) (network : Network L σ) :
    Prop :=
  steady → ∀ id ∈ members, StoresVotes (network.nodes id).log

theorem Sane.fit {steady : Prop} {members : List NodeId}
    {network : Network L σ} (hsane : network.Sane members)
    (hstores : network.Stores steady members) {id : NodeId}
    (hid : id ∈ members) : Fit steady (network.nodes id).log :=
  ⟨(hsane id hid).1, fun hsteady => hstores hsteady id hid⟩

theorem scene_set (network : Network L σ) (id : NodeId) (node : Node L σ) :
    (network.set id node).scene = network.scene.put id node.standing := by
  simp only [scene, set, Scene.put, Scene.mk.injEq, and_true]
  exact Function.comp_update (Node.standing) network.nodes id node

theorem take_standing (node : Node L σ) :
    node.take.2.2.standing = node.standing.emptied := rfl

theorem posted_eq (node : Node L σ) :
    node.outbox.filterMap (Outbound.envelope? node.id) =
      node.standing.posted := by
  simp only [Standing.posted, Node.standing]
  rw [List.filterMap_filter]
  congr 1
  funext message
  cases message <;> rfl

theorem scene_settle (network : Network L σ) {id : NodeId} {node : Node L σ}
    (hnode : node.id = id) (reply? : Option Envelope) :
    (network.settle id node reply?).scene =
      ((network.scene.put id node.standing.emptied).send
        node.standing.posted).send reply?.toList := by
  have hset := scene_set network id node.take.2.2
  rw [take_standing] at hset
  rw [← hset, ← posted_eq, hnode]
  rfl

theorem sane_set {members : List NodeId} {network : Network L σ}
    (hsane : network.Sane members) {id : NodeId} {node : Node L σ}
    (hsound : Sound node.log) (hid : node.id = id) :
    (network.set id node).Sane members := by
  intro other hother
  by_cases heq : other = id
  · subst heq
    simpa only [set, Function.update_self] using ⟨hsound, hid⟩
  · simpa only [set, Function.update_of_ne heq] using hsane other hother

variable [StateMachine σ]

/-- A member sends off what it has to say after it has taken an input. -/
theorem steps_settle {steady : Prop} {members : List NodeId}
    {network : Network L σ} {id : NodeId} {node : Node L σ}
    (hid : id ∈ members) (hnode : node.id = id) :
    Scene.Steps steady members (network.scene.put id node.standing)
      (network.settle id node none).scene := by
  rw [scene_settle network hnode]
  have hstep : Scene.Step steady members
      (network.scene.put id node.standing) _ := .mail hid
  rw [Scene.put_self, Scene.put_put] at hstep
  refine .single ?_
  simpa [Scene.send] using hstep

/-- The answer to a message holds of the one who gives it. -/
theorem steps_reply {steady : Prop} {members : List NodeId}
    {network : Network L σ} {envelope : Envelope} {output : Output}
    {node : Node L σ} (hsent : envelope ∈ network.sent)
    (hid : envelope.receiver ∈ members)
    (hlog : Sound (network.nodes envelope.receiver).log)
    (hnode : node.id = envelope.receiver)
    (hstep : (network.nodes envelope.receiver).step envelope.input =
      .ok (output, node)) :
    Scene.Steps steady members (network.settle envelope.receiver node none).scene
      (network.settle envelope.receiver node (envelope.reply? output)).scene := by
  obtain ⟨sender, receiver, packet⟩ := envelope
  simp only at hid hlog hnode hstep ⊢
  have hadd : ∀ reply?, (network.settle receiver node reply?).scene =
      (network.settle receiver node none).scene.send reply?.toList := by
    intro reply?
    rw [scene_settle network hnode, scene_settle network hnode]
    simp [Scene.send]
  have hstanding : (network.settle receiver node none).scene.standings receiver =
      node.standing.emptied := by
    rw [scene_settle network hnode]
    simp
  have hkept : ⟨sender, receiver, packet⟩ ∈
      (network.settle receiver node none).scene.sent := by
    rw [scene_settle network hnode]
    simp only [Scene.send, Scene.put_sent, List.mem_append]
    exact Or.inl (Or.inl hsent)
  cases packet with
  | vote request =>
      obtain ⟨response, restart, rfl⟩ :
          ∃ response restart, output = .vote response restart :=
        ⟨_, _, (Prod.mk.inj (Except.ok.inj hstep)).1.symm⟩
      rw [show (⟨sender, receiver, .vote request⟩ : Envelope).reply?
        (.vote response restart) =
          some ⟨receiver, sender, .voteResponse response⟩ from rfl,
        hadd (some _)]
      refine .single (.vouch hid hkept ?_)
      rw [hstanding]
      exact Node.step_vouches hstep hlog
  | voteResponse response =>
      obtain ⟨outcome, rfl⟩ : ∃ outcome, output = .won outcome :=
        ⟨_, (Prod.mk.inj (Except.ok.inj hstep)).1.symm⟩
      exact .refl
  | append request =>
      obtain ⟨response, restart, rfl⟩ :
          ∃ response restart, output = .append response restart :=
        ⟨_, _, (Prod.mk.inj (Except.ok.inj hstep)).1.symm⟩
      rw [show (⟨sender, receiver, .append request⟩ : Envelope).reply?
        (.append response restart) =
          some ⟨receiver, sender, .appendResponse response⟩ from rfl,
        hadd (some _)]
      refine .single (.confirm hid hkept ?_)
      rw [hstanding]
      exact Node.step_confirms hstep hlog
  | appendResponse response =>
      obtain ⟨heeded, -, heq⟩ := exists_of_bind hstep
      obtain ⟨outcome, rfl⟩ : ∃ outcome, output = .advanced outcome :=
        ⟨_, (Prod.mk.inj (Except.ok.inj heq)).1.symm⟩
      exact .refl

omit [StateMachine σ] in
/-- What a node can take was brought to it. -/
theorem brings_of_possible {members : List NodeId} {network : Network L σ}
    {happening : Happening L σ} {id : NodeId} {input : Input}
    (hpossible : happening.Possible members network)
    (hinput : happening.input? = some (id, input)) :
    id ∈ members ∧ network.scene.Brings id input := by
  cases happening with
  | input other given =>
      obtain ⟨rfl, rfl⟩ := Prod.mk.inj (Option.some.inj hinput)
      exact ⟨hpossible.1, Or.inl hpossible.2⟩
  | delivery envelope =>
      obtain ⟨rfl, rfl⟩ := Prod.mk.inj (Option.some.inj hinput)
      exact ⟨hpossible.2, Or.inr ⟨envelope, hpossible.1, rfl, rfl⟩⟩
  | refit other log => simp [Happening.input?] at hinput
  | restart other config log machine => simp [Happening.input?] at hinput

/-- A member that takes an input makes moves. -/
theorem taken {steady : Prop} {members : List NodeId} {network : Network L σ}
    (hsane : network.Sane members) (hstores : network.Stores steady members)
    {id : NodeId} {input : Input} {output : Output} {node : Node L σ}
    (hid : id ∈ members)
    (hstep : (network.nodes id).step input = .ok (output, node)) :
    Sound node.log ∧ node.id = id ∧
      Moves steady input (network.nodes id).standing node.standing := by
  obtain ⟨hfit, hmoves⟩ := Node.step_proceeds hstep (hsane.fit hstores hid)
  exact ⟨hfit.sound, hmoves.id_eq.trans (hsane id hid).2, hmoves⟩

/-- What comes after the moves of a member that takes an input. -/
theorem steps_after_taken {steady : Prop} {members : List NodeId}
    {network : Network L σ} (hsane : network.Sane members)
    (hstores : network.Stores steady members) {happening : Happening L σ}
    {id : NodeId} {input : Input} {output : Output} {node : Node L σ}
    (hpossible : happening.Possible members network)
    (hinput : happening.input? = some (id, input))
    (hstep : (network.nodes id).step input = .ok (output, node)) :
    Scene.Steps steady members (network.scene.put id node.standing)
        (network.next happening).scene ∧
      (network.next happening).Sane members := by
  obtain ⟨hid, -⟩ := brings_of_possible hpossible hinput
  obtain ⟨hsound, hnode, -⟩ := taken hsane hstores hid hstep
  have hsettled : ∀ reply?, (network.settle id node reply?).Sane members :=
    fun _ => sane_set hsane (show Sound node.take.2.2.log from hsound) hnode
  cases happening with
  | input other given =>
      obtain ⟨rfl, rfl⟩ := Prod.mk.inj (Option.some.inj hinput)
      simp only [next, handle, hstep]
      exact ⟨steps_settle hid hnode, hsettled none⟩
  | delivery envelope =>
      obtain ⟨rfl, rfl⟩ := Prod.mk.inj (Option.some.inj hinput)
      simp only [next, handle, hstep]
      exact ⟨(steps_settle hid hnode).trans (steps_reply hpossible.1 hid
        (hsane _ hid).1 hnode hstep), hsettled _⟩
  | refit other log => simp [Happening.input?] at hinput
  | restart other config log machine => simp [Happening.input?] at hinput

omit [StateMachine σ] in
/-- The standing of a node that begins on its log. -/
theorem start_standing {id : NodeId} {members : List NodeId} {config : Config}
    {log : L} {machine : σ} {node : Node L σ} (hlog : Sound log)
    (hstart : Node.start id members config log machine = .ok node) :
    node.log = log ∧ node.standing =
      .start id members (stored log) (entries log) machine := by
  unfold Node.start at hstart
  split at hstart
  · simp at hstart
  · rw [loadVote_eq hlog] at hstart
    simp only [Except.ok.injEq] at hstart
    subst hstart
    exact ⟨rfl, rfl⟩

/-- Whatever happens in a network is a chain of scene steps. -/
theorem steps_next {steady : Prop} {members : List NodeId}
    {network : Network L σ} (hsane : network.Sane members)
    (hstores : network.Stores steady members) {happening : Happening L σ}
    (hpossible : happening.Possible members network) :
    Scene.Steps steady members network.scene
        (network.next happening).scene ∧
      (network.next happening).Sane members := by
  cases hinput : happening.input? with
  | some taker =>
      obtain ⟨id, input⟩ := taker
      obtain ⟨hid, hbrings⟩ := brings_of_possible hpossible hinput
      cases hstep : (network.nodes id).step input with
      | error overflow =>
          have hsame : network.next happening = network := by
            cases happening <;>
              simp_all [next, handle, Happening.input?]
          rw [hsame]
          exact ⟨.refl, hsane⟩
      | ok result =>
          obtain ⟨output, node⟩ := result
          obtain ⟨-, -, hmoves⟩ := taken hsane hstores hid hstep
          obtain ⟨hrest, hafter⟩ :=
            steps_after_taken hsane hstores hpossible hinput hstep
          exact ⟨(Scene.steps_of_moves hid hbrings hmoves).trans hrest, hafter⟩
  | none =>
      cases happening with
      | input other given => simp [Happening.input?] at hinput
      | delivery envelope => simp [Happening.input?] at hinput
      | refit id log =>
          obtain ⟨hid, hlog, hmemory⟩ := hpossible
          refine ⟨?_, sane_set hsane hlog (hsane id hid).2⟩
          have hsame : ({ network.nodes id with log := log } :
              Node L σ).standing = network.scene.standings id := by
            simp only [scene, Node.standing, entries, stored, hmemory]
          simp only [next, scene_set, hsame, Scene.put_same]
          exact .refl
      | restart id config log machine =>
          obtain ⟨hid, hlog, hmemory⟩ := hpossible
          simp only [next]
          cases hstart : Node.start id (network.nodes id).members config log
              machine with
          | error error => exact ⟨.refl, hsane⟩
          | ok node =>
              obtain ⟨hkept, hstanding⟩ := start_standing hlog hstart
              refine ⟨?_, sane_set hsane (hkept ▸ hlog)
                (congrArg Standing.id hstanding)⟩
              rw [scene_set, hstanding]
              simp only [entries, stored, hmemory]
              exact .single (.restart hid)

end Network

namespace Run

open FaithfulLog

variable {L σ : Type} [LogStore L] [FaithfulLog L] [StateMachine σ]
  {run : Run L σ}

def standing (run : Run L σ) (time : Nat) (id : NodeId) : Standing σ :=
  (run.node time id).standing

theorem Valid.sane (hvalid : run.Valid) (time : Nat) :
    (run.network time).Sane run.members := by
  induction time with
  | zero =>
      intro id hid
      obtain ⟨config, log, machine, hlog, hstart⟩ := hvalid.begins id hid
      obtain ⟨hkept, hstanding⟩ := Network.start_standing hlog hstart
      exact ⟨hkept ▸ hlog, congrArg Standing.id hstanding⟩
  | succ time ih =>
      cases hhappening : run.happenings[time]? with
      | none =>
          rw [network_succ_of_end hhappening]
          exact ih
      | some happening =>
          rw [network_succ hhappening]
          exact (Network.steps_next ih (fun hsteady : False => hsteady.elim)
            (hvalid.possible time happening hhappening)).2

/-- Where `steady` holds, the members store every vote at all times. -/
def Stores (steady : Prop) (run : Run L σ) : Prop :=
  ∀ time, (run.network time).Stores steady run.members

omit [FaithfulLog L] in
theorem stores_false (run : Run L σ) : run.Stores False :=
  fun _ hsteady => hsteady.elim

/-- A run is a chain of scene steps. -/
theorem Valid.steps {steady : Prop} (hvalid : run.Valid)
    (hstores : run.Stores steady) (time : Nat) :
    Scene.Steps steady run.members (run.network time).scene
      (run.network (time + 1)).scene := by
  cases hhappening : run.happenings[time]? with
  | none =>
      rw [network_succ_of_end hhappening]
      exact .refl
  | some happening =>
      rw [network_succ hhappening]
      exact (Network.steps_next (hvalid.sane time) (hstores time)
        (hvalid.possible time happening hhappening)).1

end Run

end SessionRaft
