/-
Runs of a cluster whose network may lose, repeat, delay and reorder messages,
but forges none, and whose nodes may stop and start again with nothing but
their logs.  A run is a list of happenings; everything else is computed.
-/
import Mathlib.Logic.Function.Basic
import SessionRaft.Cluster
import SessionRaft.Proofs.StepMoves

namespace SessionRaft

/-- Whether an input does not come from another node. -/
def Input.isLocal : Input → Bool
  | .vote _ => false
  | .voteResponse _ _ => false
  | .append _ => false
  | .appendResponse _ _ => false
  | _ => true

/-- A message on its way to another node. -/
def Outbound.envelope? (sender : NodeId) : Outbound → Option Envelope
  | .vote receiver request => some ⟨sender, receiver, .vote request⟩
  | .append receiver request => some ⟨sender, receiver, .append request⟩
  | .publish _ _ _ => none

/-- Nodes, and every message that one ever sent to another. -/
structure Network (L σ : Type) where
  nodes : NodeId → Node L σ
  sent : List Envelope

/-- What can happen in a network. -/
inductive Happening (L σ : Type) where
  /-- A timer, a clock, a client or an operator turns to a node. -/
  | input (id : NodeId) (input : Input)
  /-- A message arrives.  One that is lost never does, one that is repeated
  does so more than once. -/
  | delivery (envelope : Envelope)
  | refit (id : NodeId) (log : L)
  | restart (id : NodeId) (config : Config) (log : L) (machine : σ)

/-- The node that takes an input, and the input. -/
def Happening.input? {L σ : Type} : Happening L σ → Option (NodeId × Input)
  | .input id given => some (id, given)
  | .delivery envelope => some (envelope.receiver, envelope.input)
  | .refit _ _ => none
  | .restart _ _ _ _ => none

namespace Network

open FaithfulLog

variable {L σ : Type}

def set (network : Network L σ) (id : NodeId) (node : Node L σ) :
    Network L σ :=
  { network with nodes := Function.update network.nodes id node }

/-- Put a node into its place and send off what it has to say. -/
def settle (network : Network L σ) (id : NodeId) (node : Node L σ)
    (reply? : Option Envelope) : Network L σ :=
  let (messages, _, node) := node.take
  { network.set id node with
    sent := network.sent ++ messages.filterMap (Outbound.envelope? id) ++
      reply?.toList }

variable [LogStore L] [StateMachine σ]

/-- Let a node take an input.  A node whose numbers outgrow a machine word has
written nothing by then. -/
def handle (network : Network L σ) (id : NodeId) (input : Input)
    (reply? : Output → Option Envelope) : Network L σ :=
  match (network.nodes id).step input with
  | .error _ => network
  | .ok (output, node) => network.settle id node (reply? output)

/-- The network after something has happened. -/
def next (network : Network L σ) : Happening L σ → Network L σ
  | .input id input => network.handle id input (fun _ => none)
  | .delivery envelope =>
      network.handle envelope.receiver envelope.input envelope.reply?
  | .refit id log => network.set id { network.nodes id with log := log }
  | .restart id config log machine =>
      match Node.start id (network.nodes id).members config log machine with
      | .error _ => network
      | .ok node => network.set id node

end Network

open FaithfulLog

/-- Whether something can happen in a network: messages are not forged, and
storage keeps what was written to it. -/
def Happening.Possible {L σ : Type} [LogStore L] [FaithfulLog L]
    (members : List NodeId) (network : Network L σ) : Happening L σ → Prop
  | .input id given => id ∈ members ∧ given.isLocal = true
  | .delivery envelope =>
      envelope ∈ network.sent ∧ envelope.receiver ∈ members
  | .refit id log =>
      id ∈ members ∧ Sound log ∧ memory log = memory (network.nodes id).log
  | .restart id _ log _ =>
      id ∈ members ∧ Sound log ∧ memory log = memory (network.nodes id).log

/-- A run of a network. -/
structure Run (L σ : Type) where
  members : List NodeId
  start : Network L σ
  happenings : List (Happening L σ)

namespace Run

variable {L σ : Type} [LogStore L] [StateMachine σ]

/-- The network after the first happenings, as many as `time`. -/
def network (run : Run L σ) (time : Nat) : Network L σ :=
  (run.happenings.take time).foldl Network.next run.start

def node (run : Run L σ) (time : Nat) (id : NodeId) : Node L σ :=
  (run.network time).nodes id

/-- At a time a node takes an input, tells the output and becomes `after`, from
which nothing was taken yet. -/
def Takes (run : Run L σ) (time : Nat) (id : NodeId) (input : Input)
    (output : Output) (after : Node L σ) : Prop :=
  run.happenings[time]?.bind Happening.input? = some (id, input) ∧
    (run.node time id).step input = .ok (output, after)

/-- The members begin with their logs, nothing was sent before, and only what
is possible happens. -/
structure Valid [FaithfulLog L] (run : Run L σ) : Prop where
  distinct : run.members.Nodup
  begins : ∀ id ∈ run.members, ∃ config log machine, Sound log ∧
    Node.start id run.members config log machine = .ok (run.start.nodes id)
  silent : run.start.sent = []
  possible : ∀ (time : Nat) (happening : Happening L σ),
    run.happenings[time]? = some happening →
      happening.Possible run.members (run.network time)

theorem network_zero (run : Run L σ) : run.network 0 = run.start := rfl

theorem network_succ {run : Run L σ} {time : Nat} {happening : Happening L σ}
    (hhappening : run.happenings[time]? = some happening) :
    run.network (time + 1) = (run.network time).next happening := by
  have htake : run.happenings.take (time + 1) =
      run.happenings.take time ++ [happening] := by
    rw [List.take_add_one, hhappening]
    rfl
  rw [network, htake, List.foldl_append]
  rfl

/-- Nothing happens past the end of a run. -/
theorem network_succ_of_end {run : Run L σ} {time : Nat}
    (hend : run.happenings[time]? = none) :
    run.network (time + 1) = run.network time := by
  rw [network, network, List.take_add_one, hend]
  simp

end Run

namespace Witness

/-- A member of a cluster of three that has done nothing yet. -/
def member {L σ : Type} (log : L) (machine : σ) (id : NodeId) : Node L σ where
  id := id
  members := [1, 2, 3]
  config := {}
  role := .follower
  term := 0
  votedFor := none
  leader := none
  votes := []
  commitIndex := 0
  lastApplied := 0
  log := log
  executor := .start machine
  leadership := none
  waiters := .empty
  queries := []
  outbox := []
  answers := []
  now := 0

end Witness

end SessionRaft
