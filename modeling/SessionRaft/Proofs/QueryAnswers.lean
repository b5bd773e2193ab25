/-
The answers to queries over the life of a node.  A query is answered at the
index that its answer reports, in the state after the entries up to there; one
that has to be fresh is answered only by a node that has led ever since; and no
query waits on after a step that made it ready or closed its session.
-/
import Mathlib.Data.List.Permutation
import SessionRaft.ByteProgram
import SessionRaft.Proofs.Network
import SessionRaft.Proofs.QuerySteps
import SessionRaft.Proofs.Replies

namespace SessionRaft

open FaithfulLog

/-- A request reads a result at an index: its session is open after the entries
up to there, and the result is what the state machine answers then. -/
structure Executor.Reads {σ : Type} [StateMachine σ] (start : Executor σ)
    (entries : List LogEntry) (request : QueryRequest) (index : Nat)
    (result : Bytes) : Prop where
  contains : (start.replay (entries.take index)).sessions.contains
    request.session = true
  query : StateMachine.query (start.replay (entries.take index)).machine
    ⟨request.session, index, request.query⟩ = some result

namespace Node

variable {L σ : Type}

/-- The node leads in a term. -/
structure Leads (node : Node L σ) (term : Nat) : Prop where
  role : node.role = .leader
  leadership : node.leadership.isSome = true
  term : node.term = term

variable [StateMachine σ] {start : Executor σ} {input : Input}
  {node before after : Node L σ} {query : PendingQuery}

/-- Only an open session reads, at the index that is applied. -/
theorem reading_eq_ok_iff {output : QueryOutput} :
    node.reading query = .ok output ↔
      node.executor.sessions.contains query.request.session = true ∧
        output.index = node.lastApplied ∧
        StateMachine.query node.executor.machine
          ⟨query.request.session, node.lastApplied, query.request.query⟩ =
          some output.result := by
  unfold reading Executor.query
  split
  · rename_i hopen
    split
    · rename_i result hresult
      obtain ⟨index, other⟩ := output
      simp only [Response.ok.injEq, QueryOutput.mk.injEq, hopen, hresult,
        Option.some.injEq, true_and, eq_comm]
    · rename_i hresult
      simp [hresult]
  · rename_i hclosed
    simp [hclosed]

variable [LogStore L] [FaithfulLog L]

/-- The query that is asked with an input is answered like one that waits. -/
theorem Answered.of_posed {response : QueryResponse}
    (hanswered : Answered start input (node.posed input) after query response) :
    Answered start input node after query response := by
  cases hanswered with
  | dropped hdrops => exact .dropped hdrops
  | closed hlt hle hcloses => exact .closed hlt hle hcloses
  | served hready => exact .served hready

/-- A result is told only if the query is ready. -/
theorem Answered.ready {output : QueryOutput}
    (hanswered : Answered start input before after query (.ok output)) :
    after.Ready query ∧ after.reading query = .ok output := by
  generalize hresponse : Response.ok output = response at hanswered
  cases hanswered with
  | dropped _ | closed _ _ _ => cases hresponse
  | served hready => exact ⟨hready, rfl⟩

end Node

namespace Life

variable {L σ : Type} [LogStore L] [StateMachine σ] {life : Life L σ}
  {time received : Nat} {input : Input} {output : Output} {after : Node L σ}
  {query : PendingQuery}

/-- A query that waits at a time was received earlier, and if it has to be
fresh, the node has led in one term ever since. -/
structure Asked (life : Life L σ) (query : PendingQuery)
    (received time : Nat) : Prop where
  le : received ≤ time
  takes : ∃ output after,
    life.Takes received (.query query.ticket query.request) output after
  index : query.request.index ≤ query.readIndex
  fresh : Node.isFresh query = true →
    (life.node received).commitIndex ≤ query.readIndex ∧
    (∃ leadership, (life.node received).leadership = some leadership ∧
      leadership.noopIndex ≤ query.readIndex) ∧
    ∀ moment, received ≤ moment → moment ≤ time →
      (life.node moment).Leads (life.node received).term

theorem Asked.later (hasked : life.Asked query received time)
    (hleads : Node.isFresh query = true → ∀ term,
      (life.node time).Leads term → (life.node (time + 1)).Leads term) :
    life.Asked query received (time + 1) := by
  obtain ⟨hle, htakes, hindex, hfresh⟩ := hasked
  refine ⟨Nat.le_succ_of_le hle, htakes, hindex, fun hneeds => ?_⟩
  obtain ⟨hcommit, hnoop, hled⟩ := hfresh hneeds
  refine ⟨hcommit, hnoop, fun moment hsince huntil => ?_⟩
  rcases Nat.lt_or_eq_of_le huntil with hlt | rfl
  · exact hled moment hsince (Nat.le_of_lt_succ hlt)
  · exact hleads hneeds _ (hled time hle (Nat.le_refl time))

variable [FaithfulLog L]

/-- At no time does a query wait that is ready, and no answer waits to be
taken. -/
theorem Valid.calm (hvalid : life.Valid) (time : Nat) :
    (life.node time).Calm ∧ (life.node time).answers = [] := by
  obtain ⟨_, _, _, _, _, hlog, hbegins⟩ := hvalid.begins
  have hidle : ∀ {id : NodeId} {members : List NodeId} {config : Config}
      {log : L} {machine : σ} {fresh : Node L σ}, Sound log →
      Node.start id members config log machine = .ok fresh →
      fresh.Calm ∧ fresh.answers = [] := by
    intro id members config log machine fresh hlog hstart
    obtain ⟨-, -, -, hnil, hempty⟩ := Node.start_idle hlog hstart
    exact ⟨⟨by simp [hnil], by simp [hnil]⟩, hempty⟩
  refine (hvalid.always (fun node => node.Proper ∧ node.Calm ∧
    node.answers = []) (Nat.zero_le time)
    ⟨hvalid.proper 0, hidle hlog hbegins⟩ ?_).2
  rintro later incident next - - ⟨hproper, hcalm, hempty⟩ hundergoes
  refine ⟨hproper.undergoes hundergoes, ?_⟩
  cases hundergoes with
  | overflow _ | unfit => exact ⟨hcalm, hempty⟩
  | taken hstep =>
      have hafter := (Node.step_responds hproper.leads hstep).calm hcalm
      exact ⟨hafter.congr rfl rfl rfl (fun _ hquery => hquery) rfl, rfl⟩
  | refit _ _ =>
      exact ⟨hcalm.congr rfl rfl rfl (fun _ hquery => hquery) rfl, hempty⟩
  | restarted hlog _ hstart => exact hidle hlog hstart

/-- Every query that waits is judged in a step. -/
theorem Takes.judges (hvalid : life.Valid) {machine : σ}
    (hruns : life.Runs machine)
    (htakes : life.Takes time input output after) :
    ∃ verdict, Node.Judges (.start machine) input verdict
      ((life.node time).posed input) after := by
  have hproper := hvalid.proper time
  have hadvances := ((hproper.moves htakes.2).settled hproper.settled).2
  have hcommits := hvalid.commits hruns time
  rw [show (entries (life.node time).log).take (life.node time).lastApplied =
    (entries after.log).take (life.node time).lastApplied
    from (hadvances.take_eq hproper.settled.applied).symm] at hcommits
  exact (Node.step_responds hproper.leads htakes.2).completes.judges
    (hproper.step htakes.2).sound hcommits

/-- A query that waits once an input is taken was asked then or before. -/
theorem Takes.asked (hvalid : life.Valid)
    (htakes : life.Takes time input output after)
    (hbefore : ∀ query ∈ (life.node time).queries,
      ∃ received, life.Asked query received time)
    (hquery : query ∈ ((life.node time).posed input).queries) :
    ∃ received, life.Asked query received time := by
  rcases List.mem_append.mp hquery with hquery | hquery
  · exact hbefore query hquery
  · obtain ⟨rfl, hindex, hcases⟩ :=
      Node.asked?_cases (Option.mem_toList.mp hquery)
    refine ⟨time, Nat.le_refl time, ⟨output, after, htakes⟩, hindex, ?_⟩
    intro hfresh
    rcases hcases with ⟨hstale, -⟩ |
      ⟨-, leadership, hleadership, -, hcommit, hnoop⟩
    · simp [hfresh] at hstale
    · refine ⟨hcommit, ⟨leadership, hleadership, hnoop⟩, ?_⟩
      intro moment hsince huntil
      obtain rfl := Nat.le_antisymm huntil hsince
      have hsome := Option.isSome_of_mem hleadership
      exact ⟨(hvalid.proper moment).leads hsome, hsome, rfl⟩

/-- Every query that waits was asked. -/
theorem Valid.asked (hvalid : life.Valid) {machine : σ}
    (hruns : life.Runs machine) (time : Nat) :
    ∀ query ∈ (life.node time).queries,
      ∃ received, life.Asked query received time := by
  induction time with
  | zero =>
      obtain ⟨_, _, _, _, _, hlog, hbegins⟩ := hvalid.begins
      obtain ⟨-, -, -, hnil, -⟩ := Node.start_idle hlog hbegins
      intro query hquery
      rw [show (life.node 0).queries = [] from hnil] at hquery
      cases hquery
  | succ time ih =>
      -- Where the node is left as it was, it leads on.
      have hidle : (life.node (time + 1)).queries = (life.node time).queries →
          (∀ term, (life.node time).Leads term →
            (life.node (time + 1)).Leads term) →
          ∀ query ∈ (life.node (time + 1)).queries,
            ∃ received, life.Asked query received (time + 1) := by
        intro hqueries hleads query hquery
        obtain ⟨received, hasked⟩ := ih query (hqueries ▸ hquery)
        exact ⟨received, hasked.later (fun _ => hleads)⟩
      cases hincident : life.incidents[time]? with
      | none =>
          rw [node_succ_of_end hincident] at hidle ⊢
          exact hidle rfl (fun _ hleads => hleads)
      | some incident =>
          have hproper := hvalid.proper (time + 1)
          have hundergoes := (life.node time).undergoes
            (hvalid.possible time incident hincident)
          rw [← Life.node_succ hincident] at hundergoes
          generalize hnext : life.node (time + 1) = next at *
          cases hundergoes with
          | overflow _ | unfit => exact hidle rfl (fun _ hleads => hleads)
          | refit _ _ =>
              exact hidle rfl (fun _ hleads =>
                ⟨hleads.role, hleads.leadership, hleads.term⟩)
          | @taken _ _ after hstep =>
              have htakes : life.Takes time _ _ after := ⟨hincident, hstep⟩
              obtain ⟨verdict, hjudges⟩ := htakes.judges hvalid hruns
              intro query hquery
              obtain ⟨hbefore, hnone⟩ :=
                (hjudges.disposes.queries query).mp hquery
              obtain ⟨received, hasked⟩ := htakes.asked hvalid ih hbefore
              refine ⟨received, hasked.later (fun hfresh term hleads => ?_)⟩
              obtain ⟨hsome, hsame⟩ := hjudges.leads query hbefore hfresh
                hleads.leadership (by simp [hnone])
              rw [hnext]
              exact ⟨hproper.leads hsome, hsome, hsame.trans hleads.term⟩
          | restarted hlog _ hstart =>
              obtain ⟨-, -, -, hnil, -⟩ := Node.start_idle hlog hstart
              intro query hquery
              rw [hnil] at hquery
              cases hquery

/-- What is read after a step is what the log says. -/
theorem Takes.reads (hvalid : life.Valid) {machine : σ}
    (hruns : life.Runs machine)
    (htakes : life.Takes time input output after) {index : Nat}
    {result : Bytes} (hreading : after.reading query = .ok ⟨index, result⟩) :
    index = after.lastApplied ∧ (Executor.start machine).Reads
      (entries after.log) query.request index result := by
  obtain ⟨hopen, rfl, hanswer⟩ := Node.reading_eq_ok_iff.mp hreading
  have hcommits := hvalid.commits hruns (time + 1)
  rw [htakes.node_succ] at hcommits
  have hconcur : Executor.Concur after.executor ((Executor.start machine).replay
    ((entries after.log).take after.lastApplied)) := hcommits.concur
  refine ⟨rfl, ?_, ?_⟩
  · rw [← SessionTable.contains_eq hconcur.sessions]
    exact hopen
  · rw [← hconcur.machine]
    exact hanswer

omit [FaithfulLog L] in
/-- A step that applies an entry is no shutdown. -/
theorem Takes.drops (htakes : life.Takes time input output after)
    (happlies : (life.node time).lastApplied < after.lastApplied)
    (hdrops : Node.Drops input (life.node time) after query) :
    Node.isFresh query = true ∧ Node.Deposed (life.node time) after := by
  rcases hdrops with rfl | hdrops
  · obtain ⟨-, rfl⟩ := Prod.mk.inj (Except.ok.inj htakes.2)
    rw [(Node.eases_shutdown (life.node time)).lastApplied] at happlies
    exact absurd happlies (Nat.lt_irrefl _)
  · exact hdrops

/-- A query is answered with a result only after exactly the entries up to the
index that the answer reports were applied: its session is open there, the
result is what the state machine answers there, and the client has seen no more.
If the answer has to be fresh, that index is also past what was committed and
past the first entry of the leadership when the query was received, and the
node has led in the same term since.

A step leaves a query waiting or tells it why it is answered.  Where an entry
that it applies closes the session, the query is told so, unless it had to be
fresh and the node ceased to lead before.  No query that is ready waits on. -/
theorem queries_answered (hvalid : life.Valid) {machine : σ}
    (hruns : life.Runs machine)
    (htakes : life.Takes time input output after) :
    (∀ ticket index result,
      (ticket, .query (.ok ⟨index, result⟩)) ∈ after.answers →
      index = after.lastApplied ∧ index ≤ (entries after.log).length ∧
      ∃ received request, received ≤ time ∧
        (∃ output next,
          life.Takes received (.query ticket request) output next) ∧
        request.index ≤ index ∧
        (Executor.start machine).Reads (entries after.log) request index
          result ∧
        (request.consistency = .linearizable →
          (life.node received).commitIndex ≤ index ∧
          (∃ leadership, (life.node received).leadership = some leadership ∧
            leadership.noopIndex ≤ index) ∧
          (∀ moment, received ≤ moment → moment ≤ time →
            (life.node moment).Leads (life.node received).term) ∧
          after.Leads (life.node received).term)) ∧
    (∀ query ∈ ((life.node time).posed input).queries,
      (query ∈ after.queries ∨ ∃ response,
        (query.ticket, .query response) ∈ after.answers ∧
        Node.Answered (.start machine) input (life.node time) after query
          response) ∧
      ∀ index, (life.node time).lastApplied < index →
        index ≤ after.lastApplied → (Executor.start machine).Closes
          (entries after.log) query.request.session index →
        (query.ticket, .query (.error .unknownSession)) ∈ after.answers ∨
          (query.ticket, .query (.error .noLeader)) ∈ after.answers ∧
            Node.isFresh query = true ∧
            Node.Deposed (life.node time) after) ∧
    ∀ query ∈ after.queries, ¬after.Ready query := by
  have hproper := (hvalid.proper time).step htakes.2
  obtain ⟨hcalm, hempty⟩ := hvalid.calm time
  obtain ⟨verdict, hjudges⟩ := htakes.judges hvalid hruns
  obtain ⟨given, hgiven, htold, hserved⟩ := hjudges.disposes.answers
  rw [show ((life.node time).posed input).answers = [] from hempty,
    List.nil_append] at hgiven
  refine ⟨fun ticket index result hanswer => ?_, fun query hquery =>
    ⟨?_, fun index hlt hle hends => ?_⟩,
    ((Node.step_responds (hvalid.proper time).leads htakes.2).calm hcalm).waits⟩
  · obtain ⟨query, hquery, rfl, hsome⟩ :=
      hserved ticket ⟨index, result⟩ (hgiven ▸ hanswer)
    obtain ⟨hready, hreading⟩ := (hjudges.answered query _ hsome).ready
    obtain ⟨rfl, hreads⟩ := htakes.reads hvalid hruns hreading
    obtain ⟨received, hasked⟩ :=
      htakes.asked hvalid (hvalid.asked hruns time) hquery
    refine ⟨rfl, Nat.le_trans hproper.settled.applied
      hproper.settled.committed, received, query.request, hasked.le,
      hasked.takes, Nat.le_trans hasked.index hready.1, hreads, fun hfresh => ?_⟩
    have hneeds : Node.isFresh query = true := decide_eq_true hfresh
    obtain ⟨hcommit, ⟨leadership, hleadership, hnoop⟩, hled⟩ :=
      hasked.fresh hneeds
    have hleads := hled time hasked.le (Nat.le_refl time)
    obtain ⟨hafter, hsame⟩ := hjudges.leads query hquery hneeds
      hleads.leadership (by simp [hsome])
    exact ⟨Nat.le_trans hcommit hready.1,
      ⟨leadership, hleadership, Nat.le_trans hnoop hready.1⟩, hled,
      hproper.leads hafter, hafter, hsame.trans hleads.term⟩
  · cases hverdict : verdict query with
    | none =>
        exact Or.inl ((hjudges.disposes.queries query).mpr ⟨hquery, hverdict⟩)
    | some response =>
        exact Or.inr ⟨response, hgiven ▸ htold query hquery response hverdict,
          (hjudges.answered query response hverdict).of_posed⟩
  · rw [hgiven]
    rcases hjudges.closes query index hlt hle hends with
      hclosed | ⟨hdropped, hdrops⟩
    · exact Or.inl (htold query hquery _ hclosed)
    · exact Or.inr ⟨htold query hquery _ hdropped,
        htakes.drops (Nat.lt_of_lt_of_le hlt hle) hdrops⟩

end Life

namespace Witness

/-- A leader that is asked a query which has to be fresh, and whose peer then
answers the broadcast that the query waits for. -/
def queried : Life MemoryLog Tally where
  start := member .empty .start 1
  incidents := [
    .input .electionTimeout,
    .input (.voteResponse 2 (.ok ⟨1, true⟩)),
    .input (.register 1 ⟨7, 0⟩),
    .input (.appendResponse 2 (.ok ⟨1, true, 2, 2⟩)),
    .input (.query 2 ⟨2, 0, .linearizable, [9]⟩),
    .input (.appendResponse 2 (.ok ⟨1, true, 2, 3⟩))]

theorem queried_valid : queried.Valid where
  begins := ⟨1, [1, 2, 3], {}, .empty, .start, numbered_nil, rfl⟩
  possible := Life.possible_of_inputs (by simp [queried])

theorem queried_runs : queried.Runs .start :=
  ⟨rfl, fun _ _ _ hrestart => by simp [queried] at hrestart⟩

/-- The query is answered at index 2, once its broadcast is. -/
theorem queries_answered_queried : queried.Valid ∧ queried.Runs .start ∧
    ∃ output after result,
      queried.Takes 5 (.appendResponse 2 (.ok ⟨1, true, 2, 3⟩)) output after ∧
      (2, .query (.ok ⟨2, result⟩)) ∈ after.answers ∧
      after.lastApplied = 2 ∧ after.Leads 1 ∧
      (Executor.start Tally.start).Reads (entries after.log)
        ⟨2, 0, .linearizable, [9]⟩ 2 result := by
  have hanswers : (match (queried.node 5).step
      (.appendResponse 2 (.ok ⟨1, true, 2, 3⟩)) with
      | .ok (_, after) => after.answers
      | .error _ => []) = [(2, .query (.ok ⟨2, [9] ++ Tally.wordBytes 2 ++
        Tally.wordBytes 2 ++ Tally.wordBytes 0⟩))] := by cbv
  obtain ⟨⟨output, after⟩, hstep⟩ : ∃ taken, (queried.node 5).step
      (.appendResponse 2 (.ok ⟨1, true, 2, 3⟩)) = .ok taken := ⟨_, rfl⟩
  rw [hstep] at hanswers
  have hanswer : (2, Answer.query (.ok ⟨2, _⟩)) ∈ after.answers :=
    hanswers ▸ List.mem_singleton_self _
  obtain ⟨hserved, -⟩ :=
    Life.queries_answered queried_valid queried_runs ⟨rfl, hstep⟩
  obtain ⟨hindex, -, received, request, -, ⟨_, _, hreceived, -⟩, -, hreads,
    hfresh⟩ := hserved _ _ _ hanswer
  obtain ⟨rfl, rfl⟩ : received = 4 ∧
      request = ⟨2, 0, .linearizable, [9]⟩ := by
    rcases received with _ | _ | _ | _ | _ | _ | received
    all_goals simp [queried] at hreceived
    exact ⟨rfl, hreceived.symm⟩
  have hterm : (queried.node 4).term = 1 := rfl
  obtain ⟨-, -, -, hleads⟩ := hfresh rfl
  exact ⟨queried_valid, queried_runs, output, after, _, ⟨rfl, hstep⟩, hanswer,
    hindex.symm, hterm ▸ hleads, hreads⟩

end Witness

end SessionRaft
