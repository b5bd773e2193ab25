/-
The way of an entry from the log into the executor.  Whatever reaches a node,
what it has committed it has applied, each entry once and in the order of the
log, and nothing that was committed is replaced or taken back.
-/
import SessionRaft.ByteProgram
import SessionRaft.Proofs.Acts
import SessionRaft.Proofs.Lives

namespace SessionRaft

open FaithfulLog

namespace Node

variable {L σ : Type} [LogStore L] [FaithfulLog L]

/-- Everything committed is in the log and was applied. -/
structure Abreast (node : Node L σ) : Prop where
  applied : node.lastApplied = node.commitIndex
  committed : node.commitIndex ≤ (entries node.log).length

/-- Nothing is committed or applied, and the log is at most extended. -/
structure Rests (before after : Node L σ) : Prop where
  term : before.term ≤ after.term
  commitIndex : after.commitIndex = before.commitIndex
  lastApplied : after.lastApplied = before.lastApplied
  log : entries before.log <+: entries after.log

/-- A node goes on from where it stood: what was committed stays, and the
entries handed to the executor are those that follow on the applied ones. -/
structure GoesOn (before : Node L σ) (handed : List LogEntry)
    (after : Node L σ) : Prop where
  term : before.term ≤ after.term
  committed : before.commitIndex ≤ after.commitIndex
  kept : (entries after.log).take before.commitIndex =
    (entries before.log).take before.commitIndex
  applied : (entries after.log).take after.lastApplied =
    (entries before.log).take before.lastApplied ++ handed
  abreast : after.Abreast

variable {node before middle after : Node L σ}

theorem Rests.refl (node : Node L σ) : Rests node node :=
  ⟨Nat.le_refl _, rfl, rfl, List.prefix_rfl⟩

theorem Rests.trans (hfirst : Rests before middle)
    (hsecond : Rests middle after) : Rests before after where
  term := Nat.le_trans hfirst.term hsecond.term
  commitIndex := hsecond.commitIndex.trans hfirst.commitIndex
  lastApplied := hsecond.lastApplied.trans hfirst.lastApplied
  log := hfirst.log.trans hsecond.log

/-- What leaves the term, the log and both indices alone. -/
theorem Rests.of_eq (hterm : after.term = before.term)
    (hcommit : after.commitIndex = before.commitIndex)
    (happlied : after.lastApplied = before.lastApplied)
    (hlog : after.log = before.log) : Rests before after :=
  ⟨Nat.le_of_eq hterm.symm, hcommit, happlied, hlog ▸ List.prefix_rfl⟩

theorem Quiet.rests (hquiet : Quiet before after) : Rests before after :=
  .of_eq (congrArg Standing.term hquiet.standing)
    (congrArg Standing.commitIndex hquiet.standing)
    (congrArg Standing.lastApplied hquiet.standing) hquiet.log

theorem rests_append {operation : Operation} {index : Nat}
    (hlog : Sound node.log)
    (happend : LogStore.append node.log node.term operation =
      (.ok index, after.log)) (hterm : after.term = node.term)
    (hcommit : after.commitIndex = node.commitIndex)
    (happlied : after.lastApplied = node.lastApplied) : Rests node after := by
  refine ⟨Nat.le_of_eq hterm.symm, hcommit, happlied, ?_⟩
  obtain ⟨-, -, hentries⟩ := append_done (.of_sound hlog) happend
  exact hentries ▸ List.prefix_append _ _

theorem rests_becomeFollower (hlog : Sound node.log) (term : Nat) :
    Rests node (node.becomeFollower term) := by
  have hadopted : Rests node (node.adoptTerm term) := by
    unfold adoptTerm
    split
    · rename_i hlt
      rcases hsave : LogStore.saveVote node.log term none with ⟨outcome, log⟩
      obtain ⟨-, hentries, -⟩ := saveVote_cases (.of_sound hlog) hsave
      simp only [persistVote, hsave]
      exact ⟨Nat.le_of_lt hlt, rfl, rfl, hentries ▸ List.prefix_rfl⟩
    · exact .refl node
  have hstanding := stepDown_standing
    { node.adoptTerm term with role := .follower, votes := [] }
  rw [becomeFollower_eq]
  exact hadopted.trans (.of_eq (congrArg Standing.term hstanding)
    (congrArg Standing.commitIndex hstanding)
    (congrArg Standing.lastApplied hstanding) (stepDown_log _))

theorem rests_acknowledgeEvents (node : Node L σ) (session : SessionId)
    (sequence : Int) : Rests node (node.acknowledgeEvents session sequence) := by
  unfold acknowledgeEvents
  split
  · exact .refl node
  · split <;> exact .of_eq rfl rfl rfl rfl

theorem Appends.rests {commands : List PendingCommand}
    (happends : Appends node commands after) (hlog : Sound node.log) :
    Rests node after := by
  induction happends with
  | done => exact .refl _
  | @issue node after command commands index log happend _ ih =>
      have hissued : Rests node (node.issued command index log) :=
        rests_append hlog happend rfl rfl rfl
      exact hissued.trans (ih (append_done (.of_sound hlog) happend).1.sound)
  | @lose node command commands fault log happend =>
      obtain ⟨-, hentries, -⟩ := append_failed (.of_sound hlog) happend
      have hfailed : Rests node { node with log := log } :=
        ⟨Nat.le_refl _, rfl, rfl, hentries ▸ List.prefix_rfl⟩
      exact hfailed.trans (quiet_lost _ command commands).rests

theorem rests_admitted (node : Node L σ) (hlog : Sound node.log)
    (record : Session) (submission : Submission) :
    Rests node (node.admitted record submission) := by
  cases submission with
  | ready commands => exact (appends_appendReady node commands).rests hlog
  | held => exact .refl node
  | inFlight index command => exact .of_eq rfl rfl rfl rfl
  | stale command => exact .of_eq rfl rfl rfl rfl

/-- A node that begins has nothing committed. -/
theorem abreast_fresh {id : NodeId} {members : List NodeId} {config : Config}
    {log : L} {machine : σ} {fresh : Node L σ} (hlog : Sound log)
    (hstart : Node.start id members config log machine = .ok fresh) :
    fresh.Abreast ∧ fresh.lastApplied = 0 := by
  have hstanding := (Network.start_standing hlog hstart).2
  have happlied := congrArg Standing.lastApplied hstanding
  have hcommit := congrArg Standing.commitIndex hstanding
  exact ⟨⟨happlied.trans hcommit.symm,
    Nat.le_trans (Nat.le_of_eq hcommit) (Nat.zero_le _)⟩, happlied⟩

theorem Abreast.refl (habreast : node.Abreast) : GoesOn node [] node :=
  ⟨Nat.le_refl _, Nat.le_refl _, rfl, (List.append_nil _).symm, habreast⟩

theorem Rests.goesOn (hrests : Rests before after)
    (habreast : before.Abreast) : GoesOn before [] after := by
  obtain ⟨happlied, hcommitted⟩ := habreast
  have heq : (entries after.log).take before.commitIndex =
      (entries before.log).take before.commitIndex := by
    obtain ⟨more, hmore⟩ := hrests.log
    rw [← hmore, List.take_append_of_le_length hcommitted]
  refine ⟨hrests.term, Nat.le_of_eq hrests.commitIndex.symm, heq, ?_, ?_, ?_⟩
  · rw [hrests.lastApplied, happlied, heq, List.append_nil]
  · rw [hrests.lastApplied, hrests.commitIndex, happlied]
  · rw [hrests.commitIndex]
    exact Nat.le_trans hcommitted hrests.log.length_le

theorem GoesOn.trans {handed more : List LogEntry}
    (hfirst : GoesOn before handed middle)
    (hsecond : GoesOn middle more after) :
    GoesOn before (handed ++ more) after where
  term := Nat.le_trans hfirst.term hsecond.term
  committed := Nat.le_trans hfirst.committed hsecond.committed
  kept := (take_eq_of_take_eq hsecond.kept hfirst.committed).trans hfirst.kept
  applied := by
    rw [hsecond.applied, hfirst.applied, List.append_assoc]
  abreast := hsecond.abreast

variable [StateMachine σ]

/-- Applying hands the entries that follow to the executor, as many as are
asked for. -/
theorem applyNext_spec (hlog : Sound node.log) {count : Nat}
    (hcount : node.lastApplied + count ≤ (entries node.log).length) :
    (node.applyNext count).log = node.log ∧
      (node.applyNext count).term = node.term ∧
      (node.applyNext count).commitIndex = node.commitIndex ∧
      (node.applyNext count).lastApplied = node.lastApplied + count ∧
      node.handed count =
        ((entries node.log).drop node.lastApplied).take count := by
  induction count generalizing node with
  | zero => exact ⟨rfl, rfl, rfl, rfl, rfl⟩
  | succ count ih =>
      have hplace : node.lastApplied < (entries node.log).length := by omega
      have hget : LogStore.get? node.log (node.lastApplied + 1) =
          some ((entries node.log)[node.lastApplied]) := by
        rw [get?_succ hlog, List.getElem?_eq_getElem hplace]
      have hlapsed := lapsed_applyEntry
        { node with lastApplied := node.lastApplied + 1 }
        ((entries node.log)[node.lastApplied])
      have hterm := congrArg Standing.term hlapsed.standing
      have hcommit := congrArg Standing.commitIndex hlapsed.standing
      have happlied := congrArg Standing.lastApplied hlapsed.standing
      simp only [standing] at hterm hcommit happlied
      have hsame : (applyEntry { node with lastApplied := node.lastApplied + 1 }
        ((entries node.log)[node.lastApplied])).log = node.log := hlapsed.log
      simp only [applyNext, handed, hget]
      generalize applyEntry
        { node with lastApplied := node.lastApplied + 1 }
        ((entries node.log)[node.lastApplied]) = next at hterm hcommit happlied hsame ⊢
      obtain ⟨hlast, hlastTerm, hlastCommit, hlastApplied, hhanded⟩ :=
        @ih next (hsame ▸ hlog) (by rw [hsame, happlied]; omega)
      refine ⟨hlast.trans hsame, hlastTerm.trans hterm,
        hlastCommit.trans hcommit, ?_, ?_⟩
      · rw [hlastApplied, happlied]
        omega
      · rw [hhanded, hsame, happlied, List.drop_eq_getElem_cons hplace,
          List.take_succ_cons]

theorem goesOn_advance {target : Nat} (hlog : Sound node.log)
    (habreast : node.Abreast) (hlt : node.commitIndex < target)
    (hle : target ≤ LogStore.lastIndex node.log) :
    GoesOn node
      ({ node with commitIndex := target }.handed (target - node.lastApplied))
      ({ node with commitIndex := target }.applyNext
        (target - node.lastApplied)) := by
  rw [lastIndex_eq_length hlog] at hle
  obtain ⟨happlied, hcommitted⟩ := habreast
  have hcount : node.lastApplied + (target - node.lastApplied) = target := by
    omega
  obtain ⟨hsame, hterm, hcommit, hlast, hhanded⟩ :=
    @applyNext_spec L σ _ _ { node with commitIndex := target } _ hlog
      (target - node.lastApplied) (by simp only; omega)
  simp only [hcount] at hlast
  refine ⟨Nat.le_of_eq hterm.symm, ?_, by rw [hsame], ?_, ?_, ?_⟩
  · rw [hcommit]
    exact Nat.le_of_lt hlt
  · rw [hsame, hlast, hhanded, ← List.take_add, hcount]
  · rw [hlast, hcommit]
  · rw [hsame, hcommit]
    exact hle

variable {input : Input} {entries : List LogEntry} {demands : List Demand}

/-- Every act goes on from where the node stood. -/
theorem Act.goesOn (hlog : Sound node.log) (habreast : node.Abreast)
    (hact : Act input node entries demands after) :
    GoesOn node entries after := by
  cases hact with
  | follow term _ => exact (rests_becomeFollower hlog term).goesOn habreast
  | fault _ hentries _ =>
      exact Rests.goesOn ⟨Nat.le_refl _, rfl, rfl, hentries ▸ List.prefix_rfl⟩
        habreast
  | stand _ _ _ hentries _ =>
      exact Rests.goesOn ⟨Nat.le_succ _, rfl, rfl, hentries ▸ List.prefix_rfl⟩
        habreast
  | grant _ _ _ hentries _ =>
      exact Rests.goesOn ⟨Nat.le_refl _, rfl, rfl, hentries ▸ List.prefix_rfl⟩
        habreast
  | count member _ =>
      have hrests : Rests node (node.countVote member) := by
        unfold countVote
        split
        · exact .refl node
        · exact .of_eq rfl rfl rfl rfl
      exact hrests.goesOn habreast
  | inaugurate _ happend =>
      exact Rests.goesOn (rests_append hlog happend rfl rfl rfl) habreast
  | merge _ _ hprevious _ hmerge =>
      rw [lastIndex_eq_length hlog] at hprevious
      obtain ⟨-, -, hspliced, -⟩ := merge_cases (.of_sound hlog) hprevious hmerge
      have hkept := spliced_committed habreast.committed hspliced
      refine ⟨Nat.le_refl _, Nat.le_refl _, hkept, ?_, habreast.applied, ?_⟩
      · rw [List.append_nil]
        exact habreast.applied ▸ hkept
      · exact length_le_of_take_eq hkept habreast.committed
  | advance hlt hle => exact goesOn_advance hlog habreast hlt hle
  | publish => exact (quiet_publishEvents node).rests.goesOn habreast
  | @submit _ _ _ leadership sequencer _ _ _ _ _ _ _ =>
      have hsequenced : Rests node (node.sequenced leadership sequencer) :=
        .of_eq rfl rfl rfl rfl
      have hadmitted := rests_admitted (node.sequenced leadership sequencer) hlog
      exact (hsequenced.trans (hadmitted _ _)).goesOn habreast
  | enter _ _ _ happend =>
      exact Rests.goesOn (rests_append hlog happend rfl rfl rfl) habreast
  | acknowledge _ _ => exact (rests_acknowledgeEvents node _ _).goesOn habreast
  | retire _ =>
      have hstanding := dropAll_standing node (fun _ => true)
      exact Rests.goesOn (.of_eq (congrArg Standing.term hstanding)
        (congrArg Standing.commitIndex hstanding)
        (congrArg Standing.lastApplied hstanding) (dropAll_log node _)) habreast
  | _ => exact Rests.goesOn (.of_eq rfl rfl rfl rfl) habreast

theorem Acts.goesOn (hlog : Sound before.log) (habreast : before.Abreast)
    (hacts : Acts input before entries demands after) :
    GoesOn before entries after := by
  induction hacts with
  | refl => exact habreast.refl
  | tail hearlier hact ih =>
      exact ih.trans (hact.goesOn (hearlier.sound hlog) ih.abreast)

end Node

namespace Life

variable {L σ : Type} [LogStore L] [FaithfulLog L] [StateMachine σ]
  {life : Life L σ}

/-- The node is never stopped and started again. -/
def Unbroken (life : Life L σ) : Prop :=
  ∀ config log machine, Incident.restart config log machine ∉ life.incidents

/-- The entries that were handed to the executor up to a time. -/
inductive Hands (life : Life L σ) : Nat → List LogEntry → Prop where
  | start : Hands life 0 []
  | idle {time : Nat} {entries : List LogEntry}
      (hhands : Hands life time entries)
      (hidle : ∀ input output after, ¬life.Takes time input output after) :
      Hands life (time + 1) entries
  | step {time : Nat} {entries handed : List LogEntry} {input : Input}
      {output : Output} {after : Node L σ} (hhands : Hands life time entries)
      (htakes : life.Takes time input output after)
      (hacts : (life.node time).Acts input handed input.demands after) :
      Hands life (time + 1) (entries ++ handed)

/-- What becomes of a node at a time, where it is not started again. -/
theorem Unbroken.next (hunbroken : life.Unbroken) (hvalid : life.Valid)
    (time : Nat) :
    (∃ input output after, life.Takes time input output after) ∨
      (∀ input output after, ¬life.Takes time input output after) ∧
        ∃ log, Sound log ∧ memory log = memory (life.node time).log ∧
          life.node (time + 1) = { life.node time with log := log } := by
  have hsound := (hvalid.proper time).sound
  by_cases htakes : ∃ input output after, life.Takes time input output after
  · exact Or.inl htakes
  · refine Or.inr ⟨fun input output after h => htakes ⟨_, _, _, h⟩, ?_⟩
    cases hincident : life.incidents[time]? with
    | none => exact ⟨_, hsound, rfl, node_succ_of_end hincident⟩
    | some incident =>
        have hundergoes := (life.node time).undergoes
          (hvalid.possible time incident hincident)
        rw [Life.node_succ hincident]
        generalize (life.node time).undergo incident = next at hundergoes ⊢
        cases hundergoes with
        | overflow _ => exact ⟨_, hsound, rfl, rfl⟩
        | taken hstep => exact absurd ⟨_, _, _, hincident, hstep⟩ htakes
        | refit hlog hmemory => exact ⟨_, hlog, hmemory, rfl⟩
        | unfit =>
            exact absurd (List.mem_of_getElem? hincident) (hunbroken _ _ _)
        | restarted _ _ _ =>
            exact absurd (List.mem_of_getElem? hincident) (hunbroken _ _ _)

theorem Valid.abreast_start (hvalid : life.Valid) :
    (life.node 0).Abreast ∧ (life.node 0).lastApplied = 0 := by
  obtain ⟨_, _, _, _, _, hlog, hstart⟩ := hvalid.begins
  exact Node.abreast_fresh hlog hstart

/-- At all times everything committed is in the log and was applied. -/
theorem Valid.abreast (hvalid : life.Valid) (time : Nat) :
    (life.node time).Abreast := by
  refine (hvalid.always (fun node => node.Proper ∧ node.Abreast)
    (Nat.zero_le time) ⟨hvalid.proper 0, hvalid.abreast_start.1⟩ ?_).2
  rintro later incident next - - ⟨hproper, habreast⟩ hundergoes
  refine ⟨hproper.undergoes hundergoes, ?_⟩
  cases hundergoes with
  | overflow _ | unfit => exact habreast
  | taken hstep =>
      obtain ⟨_, hacts⟩ := Node.step_actsTo hstep hproper.sound
      have hafter := (hacts.goesOn hproper.sound habreast).abreast
      exact ⟨hafter.applied, hafter.committed⟩
  | @refit log _ hmemory =>
      have hsame : entries log = entries (life.node later).log :=
        congrArg MemoryLog.entries hmemory
      exact ⟨habreast.applied, hsame ▸ habreast.committed⟩
  | restarted hlog _ hbegins => exact (Node.abreast_fresh hlog hbegins).1

/-- At each time the node goes on from where it stood. -/
theorem Valid.goesOn_succ (hvalid : life.Valid) (hunbroken : life.Unbroken)
    {time : Nat} (habreast : (life.node time).Abreast) :
    ∃ handed, (life.node time).GoesOn handed (life.node (time + 1)) := by
  have hsound := (hvalid.proper time).sound
  rcases hunbroken.next hvalid time with
    ⟨input, output, after, htakes⟩ | ⟨-, log, -, hmemory, hnext⟩
  · obtain ⟨handed, hacts⟩ := Node.step_actsTo htakes.2 hsound
    obtain ⟨hterm, hcommitted, hkept, happlied, hafter⟩ :=
      hacts.goesOn hsound habreast
    rw [htakes.node_succ]
    exact ⟨handed, hterm, hcommitted, hkept, happlied,
      hafter.applied, hafter.committed⟩
  · have hsame : entries log = entries (life.node time).log :=
      congrArg MemoryLog.entries hmemory
    rw [hnext]
    exact ⟨[], Node.Rests.goesOn ⟨Nat.le_refl _, rfl, rfl,
      hsame ▸ List.prefix_rfl⟩ habreast⟩

theorem Valid.goesOn (hvalid : life.Valid) (hunbroken : life.Unbroken)
    {first later : Nat} (hle : first ≤ later) :
    ∃ handed, (life.node first).GoesOn handed (life.node later) := by
  induction hle with
  | refl => exact ⟨[], (hvalid.abreast first).refl⟩
  | @step later _ ih =>
      obtain ⟨handed, hfirst⟩ := ih
      obtain ⟨more, hsecond⟩ := hvalid.goesOn_succ hunbroken hfirst.abreast
      exact ⟨handed ++ more, hfirst.trans hsecond⟩

/-- What was handed to the executor is what the log holds up to the last
applied entry. -/
theorem Hands.eq_take (hvalid : life.Valid) (hunbroken : life.Unbroken)
    {time : Nat} {handed : List LogEntry} (hhands : life.Hands time handed) :
    handed = (entries (life.node time).log).take
      (life.node time).lastApplied := by
  induction hhands with
  | start => rw [hvalid.abreast_start.2, List.take_zero]
  | @idle time _ _ hidle ih =>
      rcases hunbroken.next hvalid time with
        ⟨_, _, _, htakes⟩ | ⟨-, log, -, hmemory, hnext⟩
      · exact absurd htakes (hidle _ _ _)
      · have hsame : entries log = entries (life.node time).log :=
          congrArg MemoryLog.entries hmemory
        rw [hnext, ih, ← hsame]
  | step _ htakes hacts ih =>
      have hgoesOn := hacts.goesOn (hvalid.proper _).sound
        (hvalid.abreast _)
      rw [htakes.node_succ, ih, ← hgoesOn.applied]
      rfl

theorem Valid.hands (hvalid : life.Valid) (hunbroken : life.Unbroken)
    (time : Nat) : ∃ handed, life.Hands time handed := by
  induction time with
  | zero => exact ⟨[], .start⟩
  | succ time ih =>
      obtain ⟨handed, hhands⟩ := ih
      rcases hunbroken.next hvalid time with
        ⟨_, _, _, htakes⟩ | ⟨hidle, -⟩
      · obtain ⟨more, hacts⟩ :=
          Node.step_actsTo htakes.2 (hvalid.proper time).sound
        exact ⟨handed ++ more, hhands.step htakes hacts⟩
      · exact ⟨handed, hhands.idle hidle⟩

/-- The state of the node is what the entries that were handed to the executor
make of it. -/
theorem Hands.commits (hvalid : life.Valid) (hunbroken : life.Unbroken)
    {time : Nat} {handed : List LogEntry} (hhands : life.Hands time handed) :
    life.start.executor.Commits handed (life.node time).executor := by
  induction hhands with
  | start => exact .none
  | @idle time _ _ hidle ih =>
      rcases hunbroken.next hvalid time with
        ⟨_, _, _, htakes⟩ | ⟨-, log, -, -, hnext⟩
      · exact absurd htakes (hidle _ _ _)
      · rw [hnext]
        exact ih
  | @step time _ handed _ _ _ _ htakes hacts ih =>
      have hproper := hvalid.proper time
      have hmoves := hproper.moves htakes.2
      have hgoesOn := hacts.goesOn hproper.sound (hvalid.abreast time)
      have happlied := (hmoves.settled hproper.settled).2.take_applied
        hproper.settled
      have hsame : handed = (life.node time).standing.appliedBetween _ :=
        List.append_cancel_left (hgoesOn.applied.symm.trans happlied)
      rw [htakes.node_succ]
      exact ih.trans (hsame ▸ hmoves.commits hproper.settled)

/-- Whatever reaches a node, and whichever of its writes fail: its term and its
indices never sink, it has applied what it has committed, what it has committed
is never replaced, and the entries handed to its executor are those of the log
from the first to the last applied one, in their order and each once. -/
theorem commit_pipeline (hvalid : life.Valid) (hunbroken : life.Unbroken)
    {first later : Nat} (hle : first ≤ later) :
    (life.node first).term ≤ (life.node later).term ∧
      (life.node first).commitIndex ≤ (life.node later).commitIndex ∧
      (life.node first).lastApplied ≤ (life.node later).lastApplied ∧
      (life.node later).lastApplied = (life.node later).commitIndex ∧
      (life.node later).commitIndex ≤
        LogStore.lastIndex (life.node later).log ∧
      (∀ index, 0 < index → index ≤ (life.node first).commitIndex →
        ∃ entry, LogStore.get? (life.node first).log index = some entry ∧
          LogStore.get? (life.node later).log index = some entry) ∧
      (∃ handed, life.Hands later handed) ∧
      ∀ handed, life.Hands later handed →
        handed.map some =
          (List.range' 1 (life.node later).lastApplied).map
            (LogStore.get? (life.node later).log) ∧
        life.start.executor.Commits handed (life.node later).executor := by
  obtain ⟨_, hgoesOn⟩ := hvalid.goesOn hunbroken hle
  have hfirst := hvalid.abreast first
  have hlater := hgoesOn.abreast
  have hfirstLog := (hvalid.proper first).sound
  have hlog := (hvalid.proper later).sound
  refine ⟨hgoesOn.term, hgoesOn.committed, ?_, hlater.applied, ?_, ?_,
    hvalid.hands hunbroken later, fun handed hhands =>
      ⟨?_, hhands.commits hvalid hunbroken⟩⟩
  · rw [hfirst.applied, hlater.applied]
    exact hgoesOn.committed
  · rw [lastIndex_eq_length hlog]
    exact hlater.committed
  · intro index hpos hindex
    obtain ⟨place, rfl⟩ := Nat.exists_eq_succ_of_ne_zero (Nat.ne_of_gt hpos)
    have hplace : place < (entries (life.node first).log).length :=
      Nat.lt_of_lt_of_le hindex hfirst.committed
    have hsame := congrArg (fun kept => kept[place]?) hgoesOn.kept
    simp only [List.getElem?_take, if_pos (show place <
      (life.node first).commitIndex from hindex)] at hsame
    refine ⟨(entries (life.node first).log)[place], ?_, ?_⟩
    · rw [Nat.succ_eq_add_one, get?_succ hfirstLog,
        List.getElem?_eq_getElem hplace]
    · rw [Nat.succ_eq_add_one, get?_succ hlog, hsame,
        List.getElem?_eq_getElem hplace]
  · have happlied := hlater.applied
    have hcommitted := hlater.committed
    rw [hhands.eq_take hvalid hunbroken]
    refine List.ext_getElem? (fun place => ?_)
    rw [List.getElem?_map, List.getElem?_map, List.getElem?_take]
    split
    · rename_i hplace
      rw [List.getElem?_range' hplace, Option.map_some, Nat.one_mul,
        Nat.add_comm 1, get?_succ hlog, List.getElem?_eq_getElem (by omega)]
      rfl
    · rename_i hplace
      rw [List.getElem?_eq_none (by rw [List.length_range']; omega)]
      rfl

end Life

namespace Witness

/-- A node that commits two entries and is then sent another first entry by
somebody who claims to lead. -/
def besieged : Life MemoryLog Tally where
  start := member .empty .start 1
  incidents := [
    .input (.append
      ⟨1, 2, 0, 0, [⟨1, 1, .noOp⟩, ⟨1, 2, .register 7 100 5⟩], 2, 1⟩),
    .input (.append ⟨2, 3, 0, 0, [⟨2, 1, .noOp⟩], 1, 1⟩)]

theorem besieged_valid : besieged.Valid where
  begins := ⟨1, [1, 2, 3], {}, .empty, .start, numbered_nil, rfl⟩
  possible := Life.possible_of_inputs (by simp [besieged])

theorem besieged_unbroken : besieged.Unbroken := by
  intro config log machine
  simp [besieged]

/-- The committed entries stay, and were handed to the executor once. -/
theorem commit_pipeline_besieged : besieged.Valid ∧ besieged.Unbroken ∧
    (besieged.node 1).commitIndex = 2 ∧ (besieged.node 2).term = 2 ∧
    (besieged.node 2).lastApplied = (besieged.node 2).commitIndex ∧
    (∃ entry, LogStore.get? (besieged.node 1).log 1 = some entry ∧
      LogStore.get? (besieged.node 2).log 1 = some entry) ∧
    ∀ handed, besieged.Hands 2 handed →
      handed.map some = [some ⟨1, 1, .noOp⟩, some ⟨1, 2, .register 7 100 5⟩] := by
  obtain ⟨-, -, -, happlied, -, hkept, -, hhanded⟩ := Life.commit_pipeline
    besieged_valid besieged_unbroken (show 1 ≤ 2 by decide)
  exact ⟨besieged_valid, besieged_unbroken, rfl, rfl, happlied,
    hkept 1 (by decide) (by decide), fun handed hhands => (hhanded handed hhands).1⟩

end Witness

end SessionRaft
