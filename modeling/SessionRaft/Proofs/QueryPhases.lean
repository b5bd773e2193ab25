/-
The phases of a step as far as queries are concerned.  A node prepares, applies
what is committed and then answers what is ready.  It drops queries only while
it prepares, and unless a peer answered it, preparing makes no waiting query
ready.
-/
import SessionRaft.Proofs.Exchanges
import SessionRaft.Proofs.QueryVerdicts
import SessionRaft.Proofs.Reads

namespace SessionRaft

open FaithfulLog

section SameEntries

variable {σ : Type} [StateMachine σ] {before middle after : Executor σ}

/-- The same entries were committed to two executors. -/
def Executor.SameEntries (before after : Executor σ) : Prop :=
  ∀ (start : Executor σ) (entries : List LogEntry),
    start.Commits entries before → start.Commits entries after

theorem Executor.SameEntries.refl (executor : Executor σ) :
    executor.SameEntries executor := fun _ _ hcommits => hcommits

theorem Executor.SameEntries.trans (hfirst : before.SameEntries middle)
    (hsecond : middle.SameEntries after) : before.SameEntries after :=
  fun start entries hcommits =>
    hsecond start entries (hfirst start entries hcommits)

end SameEntries

/-- What of a node its queries depend on. -/
structure Enquiry (σ : Type) where
  id : NodeId
  members : List NodeId
  role : Role
  term : Nat
  lastApplied : Nat
  executor : Executor σ
  /-- What of a leadership concerns the copying of the log. -/
  leadership : Option Leadership
  queries : List PendingQuery
  answers : List (Ticket × Answer)

namespace Node

/-! ### Waiting queries -/

section Waiting

variable {L σ : Type} {node before middle after : Node L σ}
  {query : PendingQuery}

/-- A query that need not be fresh waits for no broadcast, and the broadcast
that another waits for was begun by a leader. -/
structure Awaits (node : Node L σ) (query : PendingQuery) : Prop where
  stale : isFresh query = false → query.round = 0
  fresh : isFresh query = true → ∃ leadership,
    node.leadership = some leadership ∧ query.round ≤ leadership.round

/-- No query that waits is ready. -/
structure Calm (node : Node L σ) : Prop where
  awaits : ∀ query ∈ node.queries, node.Awaits query
  waits : ∀ query ∈ node.queries, ¬node.Ready query

/-- Where nobody leads no query is ready that has to be fresh. -/
theorem ready_iff_of_none (hnone : node.leadership = none) :
    node.Ready query ↔ query.readIndex ≤ node.lastApplied ∧ query.round = 0 := by
  simp only [Ready, confirmedRound, hnone, Nat.le_zero]

/-- The own round counts as answered once it is begun, so that it is up to the
peers whether a broadcast is. -/
theorem le_confirmedRound_iff {leadership : Leadership} {round : Nat}
    (hleadership : node.leadership = some leadership) (hpositive : 0 < round)
    (hle : round ≤ leadership.round) :
    round ≤ node.confirmedRound ↔ node.quorum ≤ 1 + node.peers.countP
      (fun peer => decide (round ≤ leadership.ackedRound.getD peer 0)) := by
  simp only [confirmedRound, hleadership]
  rw [← lt_countP_iff_mergeSort hpositive,
    List.countP_cons_of_pos (by simpa using hle), List.countP_map]
  simp only [quorum, Function.comp_def]
  omega

theorem Awaits.round (hawaits : node.Awaits query) :
    (node.modifyLeadership (fun leadership =>
      { leadership with round := leadership.round + 1 })).Awaits query := by
  refine ⟨hawaits.stale, fun hfresh => ?_⟩
  obtain ⟨leadership, hleadership, hle⟩ := hawaits.fresh hfresh
  exact ⟨{ leadership with round := leadership.round + 1 },
    by simp only [modifyLeadership, hleadership, Option.map_some],
    Nat.le_succ_of_le hle⟩

/-- Another broadcast makes no waiting query ready. -/
theorem ready_modifyLeadership (hawaits : node.Awaits query) :
    (node.modifyLeadership (fun leadership =>
      { leadership with round := leadership.round + 1 })).Ready query ↔
      node.Ready query := by
  cases hfresh : isFresh query with
  | false => simp only [Ready, hawaits.stale hfresh, Nat.zero_le]; rfl
  | true =>
      obtain ⟨leadership, hleadership, hle⟩ := hawaits.fresh hfresh
      rcases Nat.eq_zero_or_pos query.round with hzero | hpositive
      · simp only [Ready, hzero, Nat.zero_le]
        rfl
      · have hlater : (node.modifyLeadership (fun leadership =>
            { leadership with round := leadership.round + 1 })).leadership =
            some { leadership with round := leadership.round + 1 } := by
          simp only [modifyLeadership, hleadership, Option.map_some]
        simp only [Ready, le_confirmedRound_iff hleadership hpositive hle,
          le_confirmedRound_iff hlater hpositive (Nat.le_succ_of_le hle)]
        rfl

/-- Only a leader has queries that have to be fresh. -/
theorem Awaits.leads (hawaits : node.Awaits query)
    (hfresh : isFresh query = true) : node.leadership.isSome = true := by
  obtain ⟨leadership, hleadership, -⟩ := hawaits.fresh hfresh
  rw [hleadership]
  rfl

/-- A query that need not be fresh waits in the same way at every node. -/
theorem Awaits.anywhere (hawaits : before.Awaits query)
    (hstale : isFresh query = false) : after.Awaits query :=
  ⟨hawaits.stale, fun hfresh => by simp [hstale] at hfresh⟩

/-- A query waits for the same broadcast whoever else is served. -/
theorem Awaits.congr (hawaits : before.Awaits query)
    (hbare : after.leadership.map Leadership.bare =
      before.leadership.map Leadership.bare) : after.Awaits query := by
  refine ⟨hawaits.stale, fun hfresh => ?_⟩
  obtain ⟨leadership, hleadership, hle⟩ := hawaits.fresh hfresh
  rw [hleadership, Option.map_some, Option.map_eq_some_iff] at hbare
  obtain ⟨later, hlater, hsame⟩ := hbare
  have hround : later.bare.round = leadership.bare.round :=
    congrArg Leadership.round hsame
  exact ⟨later, hlater, Nat.le_trans hle (Nat.le_of_eq hround.symm)⟩

theorem confirmedRound_congr (hid : after.id = before.id)
    (hmembers : after.members = before.members)
    (hbare : after.leadership.map Leadership.bare =
      before.leadership.map Leadership.bare) :
    after.confirmedRound = before.confirmedRound := by
  have hwhole : ∀ node : Node L σ, node.confirmedRound =
      confirmedRound { node with
        leadership := node.leadership.map Leadership.bare } := by
    intro node
    unfold confirmedRound
    cases hleadership : node.leadership <;> rfl
  rw [hwhole after, hwhole before, hbare]
  simp only [confirmedRound, peers, quorum, hid, hmembers]

/-- Whether a query is ready depends on no more than this of a node. -/
theorem ready_congr (hid : after.id = before.id)
    (hmembers : after.members = before.members)
    (hlast : after.lastApplied = before.lastApplied)
    (hbare : after.leadership.map Leadership.bare =
      before.leadership.map Leadership.bare) (query : PendingQuery) :
    after.Ready query ↔ before.Ready query := by
  rw [Ready, Ready, hlast, confirmedRound_congr hid hmembers hbare]

theorem Calm.congr (hcalm : before.Calm) (hid : after.id = before.id)
    (hmembers : after.members = before.members)
    (hlast : after.lastApplied = before.lastApplied)
    (hqueries : after.queries ⊆ before.queries)
    (hbare : after.leadership.map Leadership.bare =
      before.leadership.map Leadership.bare) : after.Calm :=
  ⟨fun query hquery => (hcalm.awaits query (hqueries hquery)).congr hbare,
    fun query hquery hready => hcalm.waits query (hqueries hquery)
      ((ready_congr hid hmembers hlast hbare query).mp hready)⟩

end Waiting

/-! ### Phases of a step -/

section Phases

variable {L σ : Type} [StateMachine σ] {input : Input}
  {node before middle after : Node L σ} {query : PendingQuery}

/-- Nothing changes that concerns the queries. -/
structure Still (before after : Node L σ) : Prop where
  id : after.id = before.id
  members : after.members = before.members
  role : after.role = before.role
  term : after.term = before.term
  lastApplied : after.lastApplied = before.lastApplied
  queries : after.queries = before.queries
  leadership : after.leadership.map Leadership.bare =
    before.leadership.map Leadership.bare
  executor : before.executor.SameEntries after.executor
  informs : Informs before after

/-- The part of a node on which its queries depend. -/
def enquiry (node : Node L σ) : Enquiry σ where
  id := node.id
  members := node.members
  role := node.role
  term := node.term
  lastApplied := node.lastApplied
  executor := node.executor
  leadership := node.leadership.map Leadership.bare
  queries := node.queries
  answers := node.answers

theorem Still.of_same (hsame : after.enquiry = before.enquiry) :
    Still before after where
  id := congrArg Enquiry.id hsame
  members := congrArg Enquiry.members hsame
  role := congrArg Enquiry.role hsame
  term := congrArg Enquiry.term hsame
  lastApplied := congrArg Enquiry.lastApplied hsame
  queries := congrArg Enquiry.queries hsame
  leadership := congrArg Enquiry.leadership hsame
  executor := by
    rw [show after.executor = before.executor
      from congrArg Enquiry.executor hsame]
    exact .refl _
  informs := .of_same (congrArg Enquiry.answers hsame)

theorem Still.refl (node : Node L σ) : Still node node := .of_same rfl

/-- The node has entered a newer term or become a follower. -/
def Deposed (before after : Node L σ) : Prop :=
  before.term < after.term ∨ after.role = .follower

/-- What a node does before it applies and answers: it drops at most the queries
of a leadership that ends, or all of them because it stops. -/
structure Prepares (input : Input) (before after : Node L σ) : Prop where
  verdicts : ∃ verdict, Disposes verdict before after ∧
    ∀ query response, verdict query = some response →
      response = .error .noLeader ∧ (input = .shutdown ∨
        isFresh query = true ∧ Deposed before after)
  lastApplied : after.lastApplied = before.lastApplied
  executor : before.executor.SameEntries after.executor
  term_le : before.term ≤ after.term
  follows : before.role = .follower → Deposed before after
  leads : before.leadership.isSome = true → ∀ query ∈ after.queries,
    isFresh query = true →
      after.leadership.isSome = true ∧ after.term = before.term
  awaits : (∀ query ∈ before.queries, before.Awaits query) →
    ∀ query ∈ after.queries, after.Awaits query

theorem Prepares.queries (hprepares : Prepares input before after) :
    after.queries ⊆ before.queries := by
  obtain ⟨_, hdisposes, -⟩ := hprepares.verdicts
  exact fun query hquery => ((hdisposes.queries query).mp hquery).1

/-- Whoever was deposed does not come to lead in the same term. -/
theorem Deposed.prepares (hdeposed : Deposed before middle)
    (hfirst : before.term ≤ middle.term)
    (hprepares : Prepares input middle after) : Deposed before after := by
  have hle := hprepares.term_le
  rcases hdeposed with hlt | hrole
  · exact Or.inl (Nat.lt_of_lt_of_le hlt hle)
  · exact (hprepares.follows hrole).imp_left (Nat.lt_of_le_of_lt hfirst)

theorem Prepares.deposed (hprepares : Prepares input before middle)
    (hdeposed : Deposed middle after) : Deposed before after :=
  hdeposed.imp_left (Nat.lt_of_le_of_lt hprepares.term_le)

theorem Prepares.trans (hfirst : Prepares input before middle)
    (hsecond : Prepares input middle after) : Prepares input before after where
  verdicts := by
    obtain ⟨verdict, hdisposes, hdrops⟩ := hfirst.verdicts
    obtain ⟨further, hlater, hdropped⟩ := hsecond.verdicts
    refine ⟨_, hdisposes.trans hlater, fun query response hsome => ?_⟩
    rcases Option.or_eq_some_iff.mp hsome with hsome | ⟨-, hsome⟩
    · exact (hdrops query response hsome).imp_right (Or.imp_right
        (And.imp_right (·.prepares hfirst.term_le hsecond)))
    · exact (hdropped query response hsome).imp_right (Or.imp_right
        (And.imp_right hfirst.deposed))
  lastApplied := hsecond.lastApplied.trans hfirst.lastApplied
  executor := hfirst.executor.trans hsecond.executor
  term_le := Nat.le_trans hfirst.term_le hsecond.term_le
  follows := fun hrole =>
    (hfirst.follows hrole).prepares hfirst.term_le hsecond
  leads := fun hsome query hquery hfresh => by
    obtain ⟨hleads, hterm⟩ :=
      hfirst.leads hsome query (hsecond.queries hquery) hfresh
    obtain ⟨hlast, hsame⟩ := hsecond.leads hleads query hquery hfresh
    exact ⟨hlast, hsame.trans hterm⟩
  awaits := fun hawaits => hsecond.awaits (hfirst.awaits hawaits)

/-- A preparation that makes no waiting query ready. -/
structure Eases (input : Input) (before after : Node L σ) : Prop extends
    Prepares input before after where
  calm : before.Calm → after.Calm

theorem Eases.trans (hfirst : Eases input before middle)
    (hsecond : Eases input middle after) : Eases input before after :=
  ⟨hfirst.toPrepares.trans hsecond.toPrepares,
    fun hcalm => hsecond.calm (hfirst.calm hcalm)⟩

/-- What a preparation comes to where all queries wait on. -/
theorem prepares_of_same (hqueries : after.queries = before.queries)
    (hinforms : Informs before after)
    (hlast : after.lastApplied = before.lastApplied)
    (hexecutor : before.executor.SameEntries after.executor)
    (hterm : before.term ≤ after.term)
    (hfollows : before.role = .follower → Deposed before after)
    (hleads : before.leadership.isSome = true →
      after.leadership.isSome = true ∧ after.term = before.term)
    (hawaits : ∀ query, before.Awaits query → after.Awaits query) :
    Prepares input before after where
  verdicts := ⟨_, disposes_of_same hqueries hinforms,
    fun _ _ hsome => by simp at hsome⟩
  lastApplied := hlast
  executor := hexecutor
  term_le := hterm
  follows := hfollows
  leads := fun hsome _ _ _ => hleads hsome
  awaits := fun hbefore query hquery =>
    hawaits query (hbefore query (hqueries ▸ hquery))

theorem Still.eases (hstill : Still before after) :
    Eases input before after where
  toPrepares := by
    refine prepares_of_same hstill.queries hstill.informs hstill.lastApplied
      hstill.executor (Nat.le_of_eq hstill.term.symm)
      (fun hrole => Or.inr (hstill.role.trans hrole)) (fun hsome => ?_)
      (fun _ hawaits => hawaits.congr hstill.leadership)
    have hbare := congrArg Option.isSome hstill.leadership
    rw [Option.isSome_map, Option.isSome_map] at hbare
    exact ⟨hbare.trans hsome, hstill.term⟩
  calm := fun hcalm => hcalm.congr hstill.id hstill.members
    hstill.lastApplied (fun _ hquery => hstill.queries ▸ hquery)
    hstill.leadership

/-- Queries are answered if they are ready, and nothing else happens. -/
structure Serves (before after : Node L σ) : Prop where
  frame : after.frame = before.frame
  executor : after.executor = before.executor
  verdicts : ∃ verdict, Disposes verdict before after ∧
    ∀ query response, verdict query = some response →
      before.Ready query ∧ response = before.reading query

theorem Serves.ready (hserves : Serves before after) (query : PendingQuery) :
    after.Ready query ↔ before.Ready query := by
  have hframe := hserves.frame
  exact ready_congr (congrArg Frame.id hframe)
    (congrArg Frame.members hframe) (congrArg Frame.lastApplied hframe)
    (congrArg Frame.leadership hframe) query

theorem Serves.reading (hserves : Serves before after)
    (query : PendingQuery) : after.reading query = before.reading query := by
  rw [Node.reading, Node.reading, hserves.executor,
    show after.lastApplied = before.lastApplied
      from congrArg Frame.lastApplied hserves.frame]

theorem serves_of_same (hframe : after.frame = before.frame)
    (hexecutor : after.executor = before.executor)
    (hqueries : after.queries = before.queries)
    (hinforms : Informs before after) : Serves before after :=
  ⟨hframe, hexecutor, _, disposes_of_same hqueries hinforms,
    fun _ _ hsome => by simp at hsome⟩

theorem Serves.refl (node : Node L σ) : Serves node node :=
  serves_of_same rfl rfl rfl (.of_same rfl)

theorem Serves.trans (hfirst : Serves before middle)
    (hsecond : Serves middle after) : Serves before after := by
  obtain ⟨verdict, hdisposes, hready⟩ := hfirst.verdicts
  obtain ⟨further, hlater, hserved⟩ := hsecond.verdicts
  refine ⟨hsecond.frame.trans hfirst.frame,
    hsecond.executor.trans hfirst.executor, _, hdisposes.trans hlater,
    fun query response hsome => ?_⟩
  rcases Option.or_eq_some_iff.mp hsome with hsome | ⟨-, hsome⟩
  · exact hready query response hsome
  · rw [← hfirst.ready, ← hfirst.reading]
    exact hserved query response hsome

theorem serves_serveQueries (node : Node L σ) :
    Serves node node.serveQueries := by
  refine ⟨serveQueries_frame node, rfl, _, disposes_serveQueries node,
    fun query response hsome => ?_⟩
  rw [Option.ite_none_right_eq_some, Option.some.injEq] at hsome
  exact ⟨hsome.1, hsome.2.symm⟩

theorem serves_publishEvents (node : Node L σ) :
    Serves node node.publishEvents := by
  refine serves_of_same (publishEvents_frame node) ?_ ?_ (.of_same ?_)
  all_goals
    unfold publishEvents
    cases node.leadership <;> rfl

theorem serves_sendAppends [LogStore L] (node : Node L σ)
    (peers : List NodeId) : Serves node (node.sendAppends peers) :=
  serves_of_same rfl rfl rfl (.of_same rfl)

/-- No query is left waiting that is ready. -/
theorem waits_serveQueries (node : Node L σ) :
    ∀ query ∈ node.serveQueries.queries, ¬node.serveQueries.Ready query := by
  intro query hquery
  rw [(serves_serveQueries node).ready]
  have hnone := ((disposes_serveQueries node).queries query).mp hquery
  simpa using hnone.2

theorem Serves.queries (hserves : Serves before after) :
    after.queries ⊆ before.queries := by
  obtain ⟨_, hdisposes, -⟩ := hserves.verdicts
  exact fun query hquery => ((hdisposes.queries query).mp hquery).1

theorem Serves.calm (hserves : Serves before after) (hcalm : before.Calm) :
    after.Calm :=
  have hframe := hserves.frame
  hcalm.congr (congrArg Frame.id hframe) (congrArg Frame.members hframe)
    (congrArg Frame.lastApplied hframe) hserves.queries
    (congrArg Frame.leadership hframe)

variable [LogStore L]

/-- A node prepares, applies entries and answers what is ready then. -/
def Completes (input : Input) (before after : Node L σ) : Prop :=
  ∃ ready count, Prepares input before ready ∧
    Serves (ready.applyNext count) after

/-- What a node does about an input other than a query. -/
structure Handles (input : Input) (before after : Node L σ) : Prop where
  completes : Completes input before after
  calm : before.Calm → after.Calm

theorem Prepares.completes (hprepares : Prepares input before middle)
    (hcompletes : Completes input middle after) :
    Completes input before after := by
  obtain ⟨ready, count, hready, hserves⟩ := hcompletes
  exact ⟨ready, count, hprepares.trans hready, hserves⟩

theorem Completes.serves (hcompletes : Completes input before middle)
    (hserves : Serves middle after) : Completes input before after := by
  obtain ⟨ready, count, hready, hbefore⟩ := hcompletes
  exact ⟨ready, count, hready, hbefore.trans hserves⟩

theorem Eases.handles (heases : Eases input before middle)
    (hhandles : Handles input middle after) : Handles input before after :=
  ⟨heases.completes hhandles.completes,
    fun hcalm => hhandles.calm (heases.calm hcalm)⟩

theorem Handles.serves (hhandles : Handles input before middle)
    (hserves : Serves middle after) : Handles input before after :=
  ⟨hhandles.completes.serves hserves,
    fun hcalm => hserves.calm (hhandles.calm hcalm)⟩

/-- A node may leave it at the preparations. -/
theorem Eases.only (heases : Eases input before after) :
    Handles input before after :=
  ⟨⟨after, 0, heases.toPrepares, .refl after⟩, heases.calm⟩

/-- The query that is to wait because of an input. -/
def asked? (node : Node L σ) : Input → Option PendingQuery
  | .query ticket request =>
      match request.consistency, node.leadership with
      | .sequential, _ => some ⟨request.index, 0, request, ticket⟩
      | .linearizable, none => none
      | .linearizable, some leadership => some
          ⟨max (max node.commitIndex leadership.noopIndex) request.index,
            leadership.round + 1, request, ticket⟩
  | _ => none

/-- The node with the query that is to wait because of an input. -/
def posed (node : Node L σ) (input : Input) : Node L σ :=
  { node with queries := node.queries ++ (node.asked? input).toList }

/-- What a step does about the queries that wait, with the one that it is
asked. -/
structure Responds (input : Input) (node after : Node L σ) : Prop where
  completes : Completes input (node.posed input) after
  calm : node.Calm → after.Calm

theorem Handles.responds (hhandles : Handles input node after)
    (hnone : node.asked? input = none) : Responds input node after := by
  have hposed : node.posed input = node := by
    rw [posed, hnone, Option.toList_none, List.append_nil]
  exact ⟨hposed.symm ▸ hhandles.completes, hhandles.calm⟩

variable [FaithfulLog L]

theorem applyNext_queries (node : Node L σ) (count : Nat) :
    (node.applyNext count).queries ⊆ node.queries := by
  refine applyNext_induction (fun later => later.queries ⊆ node.queries) node
    count (fun _ hquery => hquery) ?_
  intro before entry hsubset _ query hquery
  exact hsubset ((lapsed_applyEntry
    { before with lastApplied := before.lastApplied + 1 } entry).queries hquery)

theorem Completes.awaits (hcompletes : Completes input before after)
    (hawaits : ∀ query ∈ before.queries, before.Awaits query) :
    ∀ query ∈ after.queries, after.Awaits query := by
  obtain ⟨ready, count, hprepares, hserves⟩ := hcompletes
  intro query hquery
  have hready := hprepares.awaits hawaits query
    (applyNext_queries ready count (hserves.queries hquery))
  have hbare : after.leadership.map Leadership.bare =
      ready.leadership.map Leadership.bare :=
    (congrArg Frame.leadership hserves.frame).trans
      (congrArg Frame.leadership (applyNext_frame ready count))
  exact hready.congr hbare

/-- No waiting query is ready once the queries were served. -/
theorem Completes.calm (hcompletes : Completes input before middle)
    (hserves : Serves middle.serveQueries after)
    (hawaits : ∀ query ∈ before.queries, before.Awaits query) : after.Calm :=
  hserves.calm ⟨(hcompletes.serves (serves_serveQueries middle)).awaits hawaits,
    waits_serveQueries middle⟩

theorem handles_applyCommitted (node : Node L σ) :
    Handles input node node.applyCommitted := by
  have hcompletes : Completes input node
      (node.applyNext (node.commitIndex - node.lastApplied)) :=
    ⟨node, _, (Still.refl node).eases.toPrepares, .refl _⟩
  have hpublished := serves_publishEvents
    (node.applyNext (node.commitIndex - node.lastApplied)).serveQueries
  exact ⟨(hcompletes.serves (serves_serveQueries _)).serves hpublished,
    fun hcalm => hcompletes.calm hpublished hcalm.awaits⟩

end Phases

/-! ### Preparations -/

section Preparations

variable {L σ : Type} [LogStore L] [FaithfulLog L] [StateMachine σ]
  {input : Input} {node before after : Node L σ}

omit [StateMachine σ] in
/-- The part of a node that following leaves alone, apart from its queries. -/
theorem becomeFollower_serving (node : Node L σ) (term : Nat) :
    (node.becomeFollower term).lastApplied = node.lastApplied ∧
      (node.becomeFollower term).executor = node.executor := by
  have hstanding := stepDown_standing
    { node.adoptTerm term with role := .follower, votes := [] }
  have hadopted : (node.adoptTerm term).lastApplied = node.lastApplied ∧
      (node.adoptTerm term).executor = node.executor := by
    unfold adoptTerm
    split <;> exact ⟨rfl, rfl⟩
  rw [becomeFollower_eq]
  exact ⟨(congrArg Standing.lastApplied hstanding).trans hadopted.1,
    (congrArg Standing.executor hstanding).trans hadopted.2⟩

omit [LogStore L] [FaithfulLog L] [StateMachine σ] in
/-- Whoever stops leading drops the queries that have to be fresh. -/
theorem disposes_stepDown (node : Node L σ) :
    Disposes (fun query =>
      if node.leadership.isSome && isFresh query then some (.error .noLeader)
      else none) node node.stepDown := by
  unfold stepDown
  cases hsome : node.leadership.isSome with
  | true =>
      simp only [Bool.true_and, if_true]
      exact disposes_dropAll node isFresh
  | false =>
      simp only [Bool.false_and, Bool.false_eq_true, if_false]
      exact disposes_of_same rfl (.of_same rfl)

omit [FaithfulLog L] [StateMachine σ] in
theorem disposes_becomeFollower (node : Node L σ) (term : Nat) :
    Disposes (fun query =>
      if node.leadership.isSome && isFresh query then some (.error .noLeader)
      else none) node (node.becomeFollower term) := by
  have hadopted : Disposes (fun _ => none) node
      { node.adoptTerm term with role := .follower, votes := [] } ∧
      (node.adoptTerm term).leadership = node.leadership := by
    unfold adoptTerm
    split <;> exact ⟨disposes_of_same rfl (.of_same rfl), rfl⟩
  obtain ⟨hdisposes, hsame⟩ := hadopted
  have hstepped := disposes_stepDown
    { node.adoptTerm term with role := .follower, votes := [] }
  rw [show ({ node.adoptTerm term with role := .follower, votes := [] } :
    Node L σ).leadership = node.leadership from hsame] at hstepped
  have hboth := hdisposes.trans hstepped
  simp only [Option.none_or] at hboth
  exact hboth

theorem eases_becomeFollower (node : Node L σ) (term : Nat) :
    Eases input node (node.becomeFollower term) := by
  have hdisposes := disposes_becomeFollower node term
  obtain ⟨hlast, hexecutor⟩ := becomeFollower_serving node term
  have hdeposed : Deposed node (node.becomeFollower term) :=
    Or.inr (becomeFollower_role node term)
  -- What is left waits for no leadership.
  have hleft : ∀ query ∈ (node.becomeFollower term).queries,
      query ∈ node.queries ∧
        (node.leadership.isSome = true → isFresh query = false) := by
    intro query hquery
    obtain ⟨hbefore, hnone⟩ := (hdisposes.queries query).mp hquery
    refine ⟨hbefore, fun hsome => ?_⟩
    simpa [hsome] using hnone
  have hawaits : ∀ query ∈ (node.becomeFollower term).queries,
      node.Awaits query → (node.becomeFollower term).Awaits query := by
    intro query hquery hbefore
    refine hbefore.anywhere (Bool.eq_false_iff.mpr (fun hfresh => ?_))
    rw [(hleft query hquery).2 (hbefore.leads hfresh)] at hfresh
    exact Bool.false_ne_true hfresh
  refine ⟨⟨⟨_, hdisposes, fun query response hsome => ?_⟩, hlast, ?_, ?_,
    fun _ => hdeposed, fun hsome query hquery hfresh => ?_,
    fun hbefore query hquery =>
      hawaits query hquery (hbefore query (hleft query hquery).1)⟩, ?_⟩
  · simp only [Option.ite_none_right_eq_some, Bool.and_eq_true,
      Option.some.injEq] at hsome
    exact ⟨hsome.2.symm, Or.inr ⟨hsome.1.2, hdeposed⟩⟩
  · rw [hexecutor]
    exact .refl _
  · rw [becomeFollower_term]
    exact Nat.le_max_left _ _
  · rw [(hleft query hquery).2 hsome] at hfresh
    exact absurd hfresh Bool.false_ne_true
  · intro hcalm
    refine ⟨fun query hquery =>
      hawaits query hquery (hcalm.awaits query (hleft query hquery).1), ?_⟩
    intro query hquery hready
    obtain ⟨hindex, hround⟩ :=
      (ready_iff_of_none (becomeFollower_leadership node term)).mp hready
    refine hcalm.waits query (hleft query hquery).1 ⟨hlast ▸ hindex, ?_⟩
    rw [hround]
    exact Nat.zero_le _

omit [LogStore L] [FaithfulLog L] in
theorem eases_shutdown (node : Node L σ) :
    Eases .shutdown node node.shutdown := by
  have hdisposes := disposes_dropAll node (fun _ => true)
  have hnil : node.shutdown.queries = [] := by
    refine List.eq_nil_iff_forall_not_mem.mpr (fun query hquery => ?_)
    have hnone := ((hdisposes.queries query).mp hquery).2
    simp at hnone
  have hsame : node.dropLeadership.role = node.role ∧
      node.dropLeadership.term = node.term ∧
      node.dropLeadership.lastApplied = node.lastApplied ∧
      node.dropLeadership.executor = node.executor := by
    unfold dropLeadership
    cases node.leadership <;> exact ⟨rfl, rfl, rfl, rfl⟩
  obtain ⟨hrole, hterm, hlast, hexecutor⟩ := hsame
  refine ⟨⟨⟨_, hdisposes, fun query response hsome => ?_⟩, hlast, ?_,
    Nat.le_of_eq hterm.symm, fun hfollower => Or.inr (hrole.trans hfollower),
    ?_, ?_⟩, fun _ => ⟨?_, ?_⟩⟩
  · rw [if_pos rfl] at hsome
    exact ⟨(Option.some.inj hsome).symm, Or.inl rfl⟩
  · have hkept : node.shutdown.executor = node.executor := hexecutor
    rw [hkept]
    exact .refl _
  all_goals simp [hnil]

omit [FaithfulLog L] in
/-- Asking for votes makes no difference to those who wait for nobody to
lead. -/
theorem eases_candidacy (hnone : node.leadership = none) (log : L) {term : Nat}
    (hlt : node.term < term) : Eases input node (node.candidacy log term) :=
  ⟨prepares_of_same rfl (.of_same rfl) rfl (.refl _) (Nat.le_of_lt hlt)
      (fun _ => Or.inl hlt) (fun hsome => by simp [hnone] at hsome)
      (fun _ hawaits => hawaits.congr rfl),
    fun hcalm => hcalm.congr rfl rfl rfl (fun _ hquery => hquery) rfl⟩

omit [FaithfulLog L] in
theorem eases_crowned (hrole : node.role = .candidate)
    (hnone : node.leadership = none) : Eases input node node.crowned := by
  have hstale : ∀ query, node.Awaits query → isFresh query = false :=
    fun query hawaits => Bool.eq_false_iff.mpr (fun hfresh => by
      simpa [hnone] using hawaits.leads hfresh)
  have hawaits : ∀ query, node.Awaits query → node.crowned.Awaits query :=
    fun query hbefore => hbefore.anywhere (hstale query hbefore)
  refine ⟨prepares_of_same rfl (.of_same rfl) rfl (.refl _) (Nat.le_refl _)
    (fun hfollower => by simp [hrole] at hfollower)
    (fun hsome => by simp [hnone] at hsome) hawaits, fun hcalm =>
    ⟨fun query hquery => hawaits query (hcalm.awaits query hquery), ?_⟩⟩
  intro query hquery hready
  have hbefore := hcalm.awaits query hquery
  refine hcalm.waits query hquery ((ready_iff_of_none hnone).mpr
    ⟨hready.1, hbefore.stale (hstale query hbefore)⟩)

omit [LogStore L] [FaithfulLog L] in
theorem eases_round (node : Node L σ) :
    Eases input node (node.modifyLeadership (fun leadership =>
      { leadership with round := leadership.round + 1 })) := by
  refine ⟨prepares_of_same rfl (.of_same rfl) rfl (.refl _) (Nat.le_refl _)
    Or.inr (fun hsome => ⟨by simpa [modifyLeadership] using hsome, rfl⟩)
    (fun _ => Awaits.round), fun hcalm =>
    ⟨fun query hquery => (hcalm.awaits query hquery).round, ?_⟩⟩
  intro query hquery hready
  exact hcalm.waits query hquery
    ((ready_modifyLeadership (hcalm.awaits query hquery)).mp hready)

omit [LogStore L] [FaithfulLog L] in
/-- What a leader notes of its peers may make queries ready. -/
theorem prepares_noting {leadership : Leadership} (noted : Leadership)
    (hleadership : node.leadership = some leadership)
    (hround : noted.round = leadership.round) :
    Prepares input node (node.noting noted) := by
  refine prepares_of_same rfl (.of_same rfl) rfl (.refl _) (Nat.le_refl _)
    Or.inr (fun _ => ⟨rfl, rfl⟩) (fun query hawaits => ⟨hawaits.stale, ?_⟩)
  intro hfresh
  obtain ⟨other, hother, hle⟩ := hawaits.fresh hfresh
  obtain rfl := Option.some.inj (hleadership.symm.trans hother)
  exact ⟨noted, rfl, hround ▸ hle⟩

end Preparations

end Node

end SessionRaft
