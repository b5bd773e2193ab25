/-
What becomes of the queries that wait.  Applying an entry gives those whose
session it closes a verdict, and serving gives one to those that are ready; all
others wait on.
-/
import SessionRaft.Proofs.DeskFrames
import SessionRaft.Proofs.Replicas

namespace SessionRaft

open FaithfulLog

/-- An open session has a mark. -/
theorem SessionTable.isSome_marks (table : SessionTable) (session : SessionId) :
    (table.marks session).isSome = table.contains session :=
  Option.isSome_map

/-- The entry of an index closes a session that is open up to there. -/
def Executor.Closes {σ : Type} [StateMachine σ] (start : Executor σ)
    (entries : List LogEntry) (session : SessionId) (index : Nat) : Prop :=
  (start.replay (entries.take (index - 1))).sessions.contains session = true ∧
    (start.replay (entries.take index)).sessions.contains session = false

namespace Executor

variable {σ : Type} [StateMachine σ]

/-- Beside the session that it may open, an entry closes only the one that it
unregisters. -/
theorem contains_apply (executor : Executor σ) (entry : LogEntry)
    {session : SessionId} (hother : session ≠ entry.index) :
    (executor.apply entry).1.sessions.contains session = false ↔
      executor.sessions.contains session = false ∨
        ∃ timestamp, entry.operation = .unregister session timestamp := by
  rw [← SessionTable.isSome_marks, ← SessionTable.isSome_marks]
  unfold apply
  cases entry.operation with
  | noOp => simp
  | register client timeout timestamp =>
      simp only [SessionTable.marks_register]
      rw [if_neg (by exact hother)]
      simp
  | keepAlive other upTo reported timestamp => simp [marks_keepAlive]
  | unregister other timestamp =>
      simp only [unregister]
      by_cases hopen : executor.sessions.contains other = true
      · simp only [hopen, if_true, SessionTable.marks_remove]
        by_cases heq : session = other
        · simp [heq]
        · simp [heq, Ne.symm heq]
      · simp only [hopen, Bool.false_eq_true, if_false,
          Operation.unregister.injEq]
        refine ⟨Or.inl, fun hcases => hcases.elim id ?_⟩
        rintro ⟨_, rfl, -⟩
        rw [SessionTable.isSome_marks]
        exact Bool.eq_false_iff.mpr hopen
  | command other sequence timestamp payload =>
      simp only [marks_applyCommand]
      by_cases heq : session = other <;> simp [heq]

/-- What an entry that unregisters a session comes to. -/
theorem apply_unregister (executor : Executor σ) {entry : LogEntry}
    {session : SessionId} {timestamp : Nat}
    (hoperation : entry.operation = .unregister session timestamp) :
    (executor.apply entry).2 = .unregistered (.ok ()) ↔
      executor.sessions.contains session = true := by
  simp only [apply, hoperation, unregister]
  by_cases hopen : executor.sessions.contains session = true <;> simp [hopen]

omit [StateMachine σ] in
theorem contains_of_lapse {executor : Executor σ} {operation : Operation}
    {session : SessionId}
    (hopen : (executor.lapse operation).sessions.contains session = true) :
    executor.sessions.contains session = true := by
  obtain ⟨record, hrecord⟩ := Option.isSome_iff_exists.mp hopen
  obtain ⟨earlier, hearlier, -⟩ :=
    executor.keeps_lapse operation session record hrecord
  exact Option.isSome_of_mem hearlier

/-- A session is closed because it lapsed before the entry, or because the entry
unregisters it. -/
theorem closes_commit_iff {executor : Executor σ} {entry : LogEntry}
    (hnew : executor.sessions.contains entry.index = false)
    (session : SessionId) :
    executor.sessions.contains session = true ∧
        (executor.commit entry).1.sessions.contains session = false ↔
      (executor.sessions.contains session = true ∧
        (executor.lapse entry.operation).sessions.contains session = false) ∨
      ((executor.lapse entry.operation).apply entry).2 =
          .unregistered (.ok ()) ∧
        ∃ timestamp, entry.operation = .unregister session timestamp := by
  have hother : executor.sessions.contains session = true →
      session ≠ entry.index := by
    rintro hopen rfl
    simp [hnew] at hopen
  rw [commit]
  constructor
  · rintro ⟨hopen, hclosed⟩
    cases hlapsed : (executor.lapse
        entry.operation).sessions.contains session with
    | false => exact Or.inl ⟨hopen, rfl⟩
    | true =>
        rw [contains_apply _ _ (hother hopen), hlapsed] at hclosed
        obtain ⟨timestamp, hoperation⟩ := hclosed.resolve_left (by simp)
        exact Or.inr ⟨(apply_unregister _ hoperation).mpr hlapsed, timestamp,
          hoperation⟩
  · rintro (⟨hopen, hlapsed⟩ | ⟨happlied, timestamp, hoperation⟩)
    · exact ⟨hopen, (contains_apply _ _ (hother hopen)).mpr (Or.inl hlapsed)⟩
    · have hopen :=
        contains_of_lapse ((apply_unregister _ hoperation).mp happlied)
      exact ⟨hopen, (contains_apply _ _ (hother hopen)).mpr
        (Or.inr ⟨timestamp, hoperation⟩)⟩

end Executor

namespace Node

/-! ### Verdicts -/

section Verdicts

variable {L σ : Type} {verdict further : PendingQuery → Option QueryResponse}
  {node before middle after : Node L σ}

/-- Every query that waits is told its verdict, or waits on if there is none,
and no other query is answered with a result. -/
structure Disposes (verdict : PendingQuery → Option QueryResponse)
    (before after : Node L σ) : Prop where
  queries : ∀ query, query ∈ after.queries ↔
    query ∈ before.queries ∧ verdict query = none
  answers : ∃ given, after.answers = before.answers ++ given ∧
    (∀ query ∈ before.queries, ∀ response, verdict query = some response →
      (query.ticket, .query response) ∈ given) ∧
    ∀ ticket output, (ticket, .query (.ok output)) ∈ given →
      ∃ query ∈ before.queries, query.ticket = ticket ∧
        verdict query = some (.ok output)

/-- More answers are given, and none of them is the result of a query. -/
def Informs (before after : Node L σ) : Prop :=
  ∃ given, after.answers = before.answers ++ given ∧
    ∀ answer ∈ given, ∀ output, answer.2 ≠ .query (.ok output)

theorem Informs.of_same (hanswers : after.answers = before.answers) :
    Informs before after :=
  ⟨[], by rw [hanswers, List.append_nil], by simp⟩

theorem Informs.trans (hfirst : Informs before middle)
    (hsecond : Informs middle after) : Informs before after := by
  obtain ⟨given, hgiven, hfair⟩ := hfirst
  obtain ⟨more, hmore, hlater⟩ := hsecond
  refine ⟨given ++ more, by rw [hmore, hgiven, List.append_assoc], ?_⟩
  intro answer hanswer
  rcases List.mem_append.mp hanswer with hanswer | hanswer
  · exact hfair answer hanswer
  · exact hlater answer hanswer

theorem informs_answerAll (node : Node L σ) (tickets : List Ticket)
    {answer : Answer} (hanswer : ∀ output, answer ≠ .query (.ok output)) :
    Informs node (node.answerAll tickets answer) := by
  refine ⟨_, rfl, fun given hgiven => ?_⟩
  obtain ⟨ticket, -, rfl⟩ := List.mem_map.mp hgiven
  exact hanswer

theorem informs_forgetCommands (node : Node L σ) (session : SessionId)
    (kind : ErrorKind) : Informs node (node.forgetCommands session kind) := by
  unfold forgetCommands
  split
  · exact .of_same rfl
  · exact informs_answerAll { node with leadership := some _ } _ (by simp)

/-- Where no query is given up, none is told a verdict. -/
theorem disposes_of_same (hqueries : after.queries = before.queries)
    (hinforms : Informs before after) :
    Disposes (fun _ => none) before after := by
  obtain ⟨given, hgiven, hfair⟩ := hinforms
  refine ⟨fun query => by rw [hqueries, eq_self, and_true], given, hgiven,
    fun _ _ _ hsome => by simp at hsome, fun ticket output hmem => ?_⟩
  exact absurd rfl (hfair _ hmem output)

/-- A query is told the first verdict that there is on it. -/
theorem Disposes.trans (hfirst : Disposes verdict before middle)
    (hsecond : Disposes further middle after) :
    Disposes (fun query => (verdict query).or (further query)) before after := by
  obtain ⟨hkept, given, hgiven, htold, hserved⟩ := hfirst
  obtain ⟨hlater, more, hmore, hsaid, hanswered⟩ := hsecond
  refine ⟨fun query => ?_, given ++ more,
    by rw [hmore, hgiven, List.append_assoc], ?_, ?_⟩
  · rw [hlater, hkept, Option.or_eq_none_iff, and_assoc]
  · intro query hquery response hresponse
    rw [List.mem_append]
    rcases Option.or_eq_some_iff.mp hresponse with hsome | ⟨hnone, hsome⟩
    · exact Or.inl (htold query hquery response hsome)
    · exact Or.inr (hsaid query ((hkept query).mpr ⟨hquery, hnone⟩) response
        hsome)
  · intro ticket output hmem
    rcases List.mem_append.mp hmem with hmem | hmem
    · obtain ⟨query, hquery, hticket, hsome⟩ := hserved ticket output hmem
      exact ⟨query, hquery, hticket, Option.or_eq_some_iff.mpr (Or.inl hsome)⟩
    · obtain ⟨query, hquery, hticket, hsome⟩ := hanswered ticket output hmem
      obtain ⟨hquery, hnone⟩ := (hkept query).mp hquery
      exact ⟨query, hquery, hticket,
        Option.or_eq_some_iff.mpr (Or.inr ⟨hnone, hsome⟩)⟩

/-- Queries that fail are told the error. -/
theorem disposes_failQueries (node : Node L σ) (fails : PendingQuery → Bool)
    (kind : ErrorKind) :
    Disposes (fun query => if fails query then some (.error kind) else none)
      node (node.failQueries fails kind) := by
  simp only [failQueries, List.partition_eq_filter_filter]
  refine ⟨fun query => by simp [answerAll], _, rfl, ?_, ?_⟩
  · intro query hquery response hresponse
    simp only [Option.ite_none_right_eq_some, Option.some.injEq] at hresponse
    obtain ⟨hfails, rfl⟩ := hresponse
    simp only [List.map_map, List.mem_map, List.mem_filter]
    exact ⟨query, ⟨hquery, hfails⟩, rfl⟩
  · simp

theorem informs_failWaiters (node : Node L σ) (kind : ErrorKind) :
    Informs node (node.failWaiters kind) := by
  refine ⟨_, rfl, fun given hgiven => ?_⟩
  obtain ⟨waiter, -, rfl⟩ := List.mem_map.mp hgiven
  cases waiter <;> simp [Waiter.refusal]

/-- Whoever waits for a leadership that ends is refused, and so are the queries
that fail with it. -/
theorem disposes_dropAll (node : Node L σ) (fails : PendingQuery → Bool) :
    Disposes (fun query => if fails query then some (.error .noLeader) else none)
      node ((node.dropLeadership.failWaiters .noLeader).failQueries fails
        .noLeader) := by
  have hdropped : Disposes (fun _ => none) node
      (node.dropLeadership.failWaiters .noLeader) := by
    refine disposes_of_same ?_ (Informs.trans ?_ (informs_failWaiters _ _))
    · unfold dropLeadership
      cases node.leadership <;> rfl
    · unfold dropLeadership
      cases node.leadership with
      | none => exact .of_same rfl
      | some leadership =>
          exact informs_answerAll { node with leadership := none } _ (by simp)
  exact hdropped.trans (disposes_failQueries _ fails .noLeader)

end Verdicts

/-! ### Sessions that are closed -/

section Closing

variable {L σ : Type} {sessions others : List SessionId}
  {node before middle after : Node L σ}

/-- The verdict on the queries of closed sessions. -/
def closing (sessions : List SessionId) (query : PendingQuery) :
    Option QueryResponse :=
  if query.request.session ∈ sessions then some (.error .unknownSession)
  else none

theorem closing_append (query : PendingQuery) :
    closing (sessions ++ others) query =
      (closing sessions query).or (closing others query) := by
  simp only [closing, List.mem_append]
  by_cases hfirst : query.request.session ∈ sessions <;> simp [hfirst]

/-- Of the queries that wait, those of some sessions are told that their
session is not open. -/
def Shuts (sessions : List SessionId) (before after : Node L σ) : Prop :=
  Disposes (closing sessions) before after

theorem Shuts.trans (hfirst : Shuts sessions before middle)
    (hsecond : Shuts others middle after) :
    Shuts (sessions ++ others) before after := by
  have hboth := Disposes.trans hfirst hsecond
  rwa [show (fun query => (closing sessions query).or (closing others query)) =
    closing (sessions ++ others)
    from funext (fun query => (closing_append query).symm)] at hboth

theorem shuts_of_same (hqueries : after.queries = before.queries)
    (hinforms : Informs before after) : Shuts [] before after := by
  have hsame := disposes_of_same hqueries hinforms
  rwa [show (fun _ => none) = closing [] from funext (fun query => by
    simp [closing])] at hsame

theorem shuts_releaseSession (node : Node L σ) (session : SessionId) :
    Shuts [session] node (node.releaseSession session) := by
  have hforgotten : Shuts [] node
      ((node.forgetCommands session .unknownSession).modifyLeadership
        (fun leadership => { leadership with
          publisher := leadership.publisher.forget session })) := by
    refine shuts_of_same ?_ ?_
    · unfold forgetCommands
      cases node.leadership <;> rfl
    · exact (informs_forgetCommands node session .unknownSession).trans
        (.of_same rfl)
  have hfailed := disposes_failQueries
    ((node.forgetCommands session .unknownSession).modifyLeadership
      (fun leadership => { leadership with
        publisher := leadership.publisher.forget session }))
    (fun query => query.request.session = session) .unknownSession
  simp only [decide_eq_true_eq] at hfailed
  refine hforgotten.trans ?_
  unfold Shuts
  rwa [show closing [session] = fun query => if query.request.session = session
      then some (.error .unknownSession) else none
    from funext (fun query => by simp [closing])]

theorem shuts_releaseSessions (node : Node L σ) (sessions : List SessionId) :
    Shuts sessions node (node.releaseSessions sessions) := by
  induction sessions generalizing node with
  | nil => exact shuts_of_same rfl (.of_same rfl)
  | cons session sessions ih =>
      exact (shuts_releaseSession node session).trans
        (ih (node.releaseSession session))

theorem shuts_expireBefore (node : Node L σ) (operation : Operation) :
    Shuts (node.expiredBefore operation) node (node.expireBefore operation) := by
  unfold expireBefore expiredBefore
  cases operation.timestamp? with
  | none => exact shuts_of_same rfl (.of_same rfl)
  | some timestamp =>
      have hexpired : Shuts [] node
          { node with executor := node.executor.expire timestamp } :=
        shuts_of_same rfl (.of_same rfl)
      exact hexpired.trans (shuts_releaseSessions
        { node with executor := node.executor.expire timestamp }
        (node.executor.sessions.expired timestamp))

/-- Settling an entry that unregisters an open session tells its queries. -/
theorem shuts_settle (node : Node L σ) (operation : Operation)
    (applied : Applied) :
    ∃ sessions, Shuts sessions node (node.settle operation applied) ∧
      ∀ session, session ∈ sessions ↔ applied = .unregistered (.ok ()) ∧
        ∃ timestamp, operation = .unregister session timestamp := by
  unfold settle
  split
  · exact ⟨[], shuts_of_same rfl (.of_same rfl), by simp⟩
  · rename_i session timestamp
    exact ⟨[session], shuts_releaseSession node session, by simp [eq_comm]⟩
  · rename_i hnot
    refine ⟨[], shuts_of_same rfl (.of_same rfl), fun session => ?_⟩
    simp only [List.not_mem_nil, false_iff, not_and, not_exists]
    rintro rfl timestamp rfl
    exact hnot session timestamp rfl rfl

theorem shuts_complete (node : Node L σ) (index : Nat) (applied : Applied) :
    Shuts [] node (node.complete index applied) := by
  refine shuts_of_same rfl ⟨_, rfl, fun given hgiven => ?_⟩
  obtain ⟨waiter, -, rfl⟩ := List.mem_map.mp hgiven
  unfold completion
  cases waiter <;> cases applied <;> simp [Waiter.refusal]

variable [LogStore L] [FaithfulLog L] [StateMachine σ]

omit [StateMachine σ] in
/-- An operation's timestamp closes sessions that were open. -/
theorem mem_expiredBefore (node : Node L σ) (operation : Operation)
    (session : SessionId) :
    session ∈ node.expiredBefore operation ↔
      node.executor.sessions.contains session = true ∧
        (node.executor.lapse operation).sessions.contains session = false := by
  have hopen := node.isSome_of_mem_expiredBefore operation session
  rw [← SessionTable.isSome_marks, ← SessionTable.isSome_marks]
  simp only [desk, expiredBefore, Executor.lapse] at hopen ⊢
  revert hopen
  cases operation.timestamp? with
  | none => cases node.executor.sessions.marks session <;> simp
  | some timestamp =>
      intro hopen
      simp only [Executor.expire, SessionTable.marks_expire]
      by_cases hmem : session ∈ node.executor.sessions.expired timestamp
      · simp [hmem, hopen hmem]
      · cases node.executor.sessions.marks session <;> simp [hmem]

/-- Applying an entry tells the queries of the sessions that the entry
closes. -/
theorem shuts_applyEntry (node : Node L σ) {entry : LogEntry}
    (hnew : node.executor.sessions.contains entry.index = false) :
    ∃ sessions, Shuts sessions node (node.applyEntry entry) ∧
      ∀ session, session ∈ sessions ↔
        node.executor.sessions.contains session = true ∧
          (node.executor.commit entry).1.sessions.contains session = false := by
  have hexecutor : (node.expireBefore entry.operation).executor =
      node.executor.lapse entry.operation :=
    congrArg Standing.executor (lapsed_expireBefore node entry.operation).standing
  have hran : Shuts [] (node.expireBefore entry.operation)
      { node.expireBefore entry.operation with
        executor := ((node.executor.lapse entry.operation).apply entry).1 } :=
    shuts_of_same rfl (.of_same rfl)
  obtain ⟨settled, hsettled, hunregistered⟩ := shuts_settle
    { node.expireBefore entry.operation with
      executor := ((node.executor.lapse entry.operation).apply entry).1 }
    entry.operation ((node.executor.lapse entry.operation).apply entry).2
  refine ⟨node.expiredBefore entry.operation ++ ([] ++ (settled ++ [])), ?_,
    fun session => ?_⟩
  · rw [applyEntry_eq, hexecutor]
    exact (shuts_expireBefore node entry.operation).trans
      (hran.trans (hsettled.trans (shuts_complete _ _ _)))
  · rw [List.nil_append, List.append_nil, List.mem_append,
      mem_expiredBefore, hunregistered]
    exact (Executor.closes_commit_iff hnew session).symm

/-- Entries were applied one after the other, and the queries of the sessions
that they closed were told. -/
structure Consumes (start : Executor σ) (before after : Node L σ) : Prop where
  log : after.log = before.log
  le : before.lastApplied ≤ after.lastApplied
  commits : start.Commits ((entries before.log).take after.lastApplied)
    after.executor
  shuts : ∃ sessions, Shuts sessions before after ∧
    ∀ session, session ∈ sessions ↔ ∃ index, before.lastApplied < index ∧
      index ≤ after.lastApplied ∧
      start.Closes (entries before.log) session index

theorem Consumes.refl {start : Executor σ} (hcommits : start.Commits
    ((entries node.log).take node.lastApplied) node.executor) :
    Consumes start node node := by
  refine ⟨rfl, Nat.le_refl _, hcommits, [], shuts_of_same rfl (.of_same rfl),
    fun session => ?_⟩
  simp only [List.not_mem_nil, false_iff, not_exists]
  rintro index ⟨hlt, hle, -⟩
  omega

/-- The next entry closes a session in the state of the node if it does so where
the log is replayed. -/
theorem Consumes.closes {start : Executor σ} {entry : LogEntry}
    (hconsumes : Consumes start node before)
    (hentry : (entries node.log)[before.lastApplied]? = some entry)
    (session : SessionId) :
    before.executor.sessions.contains session = true ∧
        (before.executor.commit entry).1.sessions.contains session = false ↔
      start.Closes (entries node.log) session (before.lastApplied + 1) := by
  have hconcur := hconsumes.commits.concur
  have htake : (entries node.log).take (before.lastApplied + 1) =
      (entries node.log).take before.lastApplied ++ [entry] := by
    rw [List.take_add_one, hentry, Option.toList_some]
  rw [Executor.Closes, Nat.add_sub_cancel, htake, Executor.replay_append,
    ← SessionTable.contains_eq hconcur.sessions session]
  refine and_congr_right (fun _ => ?_)
  rw [SessionTable.contains_eq (hconcur.commit entry).1.sessions session]
  rfl

/-- No entry has a place at which a session is open already. -/
theorem Consumes.unopened {machine : σ} {entry : LogEntry}
    (hconsumes : Consumes (.start machine) node before)
    (hlog : Sound node.log)
    (hentry : (entries node.log)[before.lastApplied]? = some entry) :
    before.executor.sessions.contains entry.index = false := by
  have hindex : entry.index = before.lastApplied + 1 :=
    numbered hlog before.lastApplied entry hentry
  rw [← Bool.not_eq_true]
  intro hopen
  obtain ⟨record, hrecord⟩ := Option.isSome_iff_exists.mp hopen
  have hbound : entry.index ≤
      ((entries node.log).take before.lastApplied).length :=
    hconsumes.commits.open_le (numbered_take (numbered hlog) _) _ record hrecord
  rw [List.length_take] at hbound
  omega

theorem Consumes.applyEntry {machine : σ} {entry : LogEntry}
    (hconsumes : Consumes (.start machine) node before)
    (hlog : Sound node.log)
    (hentry : (entries node.log)[before.lastApplied]? = some entry) :
    Consumes (.start machine) node (Node.applyEntry
      { before with lastApplied := before.lastApplied + 1 } entry) := by
  have hnew := hconsumes.unopened hlog hentry
  have hcloses := hconsumes.closes hentry
  obtain ⟨hkept, hle, hcommits, sessions, hshuts, hclosed⟩ := hconsumes
  obtain ⟨more, hmore, hshut⟩ := shuts_applyEntry
    { before with lastApplied := before.lastApplied + 1 } hnew
  have hlatest : ∀ session, session ∈ more ↔ (Executor.start machine).Closes
      (entries node.log) session (before.lastApplied + 1) :=
    fun session => (hshut session).trans (hcloses session)
  have hlapsed := lapsed_applyEntry
    { before with lastApplied := before.lastApplied + 1 } entry
  have hexecutor : (Node.applyEntry { before with
      lastApplied := before.lastApplied + 1 } entry).executor =
      (before.executor.commit entry).1 :=
    congrArg Standing.executor hlapsed.standing
  have hlast : (Node.applyEntry { before with
      lastApplied := before.lastApplied + 1 } entry).lastApplied =
      before.lastApplied + 1 := applyEntry_lastApplied _ entry
  have hstep : Shuts [] before
      { before with lastApplied := before.lastApplied + 1 } :=
    shuts_of_same rfl (.of_same rfl)
  refine ⟨hlapsed.log.trans hkept, by omega, ?_, sessions ++ more,
    hshuts.trans (hstep.trans hmore), fun session => ?_⟩
  · rw [hlast, List.take_add_one, hentry, Option.toList_some, hexecutor]
    exact hcommits.commit entry
  · rw [List.mem_append, hclosed, hlatest, hlast]
    constructor
    · rintro (⟨index, hlt, hbound, hcloses⟩ | hcloses)
      · exact ⟨index, hlt, by omega, hcloses⟩
      · exact ⟨_, by omega, Nat.le_refl _, hcloses⟩
    · rintro ⟨index, hlt, hbound, hcloses⟩
      rcases Nat.lt_or_eq_of_le hbound with hearlier | rfl
      · exact Or.inl ⟨index, hlt, by omega, hcloses⟩
      · exact Or.inr hcloses

/-- Applying entries tells the queries of the sessions that these entries
close. -/
theorem consumes_applyNext (hlog : Sound node.log) {machine : σ}
    (hcommits : (Executor.start machine).Commits
      ((entries node.log).take node.lastApplied) node.executor) (count : Nat) :
    Consumes (.start machine) node (node.applyNext count) := by
  refine applyNext_induction (Consumes (.start machine) node) node count
    (.refl hcommits) (fun before entry hconsumes hentry => ?_)
  rw [hconsumes.log, get?_succ hlog] at hentry
  exact hconsumes.applyEntry hlog hentry

end Closing

/-! ### Queries that are served -/

section Serving

variable {L σ : Type}

/-- Whether a query can be answered: its index is applied and a quorum has
answered its broadcast. -/
def Ready (node : Node L σ) (query : PendingQuery) : Prop :=
  query.readIndex ≤ node.lastApplied ∧ query.round ≤ node.confirmedRound

instance (node : Node L σ) (query : PendingQuery) :
    Decidable (node.Ready query) :=
  inferInstanceAs (Decidable (_ ∧ _))

variable [StateMachine σ]

/-- The answer to a query in the present state. -/
def reading (node : Node L σ) (query : PendingQuery) : QueryResponse :=
  node.executor.query
    ⟨query.request.session, node.lastApplied, query.request.query⟩

/-- Every query that is ready is answered, and the others wait on. -/
theorem disposes_serveQueries (node : Node L σ) :
    Disposes (fun query =>
      if node.Ready query then some (node.reading query) else none)
      node node.serveQueries := by
  simp only [serveQueries, List.partition_eq_filter_filter]
  refine ⟨fun query => ?_, _, rfl, ?_, ?_⟩
  · rw [List.mem_filter, ite_eq_right_iff]
    simp only [Function.comp_apply, Bool.not_eq_true',
      decide_eq_false_iff_not, reduceCtorEq, imp_false]
    exact Iff.rfl
  · intro query hquery response hresponse
    rw [Option.ite_none_right_eq_some, Option.some.injEq] at hresponse
    obtain ⟨hready, rfl⟩ := hresponse
    refine List.mem_map.mpr ⟨query, List.mem_filter.mpr ⟨hquery, ?_⟩, rfl⟩
    exact decide_eq_true hready
  · intro ticket output hmem
    obtain ⟨query, hquery, heq⟩ := List.mem_map.mp hmem
    obtain ⟨hquery, hready⟩ := List.mem_filter.mp hquery
    obtain ⟨hticket, hanswer⟩ := Prod.mk.inj heq
    refine ⟨query, hquery, hticket, ?_⟩
    rw [if_pos (show node.Ready query from of_decide_eq_true hready)]
    exact congrArg some (Answer.query.inj hanswer)

end Serving

end Node

end SessionRaft
