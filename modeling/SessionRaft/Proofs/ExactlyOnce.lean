/-
The state machine runs every command at most once, and whoever asks again is
told what came of it, whatever entries are committed in between.
-/
import SessionRaft.ByteProgram
import SessionRaft.Log.Memory
import SessionRaft.Proofs.Fates
import SessionRaft.Proofs.Sessions

namespace SessionRaft

/-- A state machine that also notes the commands that it is given to run. -/
structure Recorder (σ : Type) where
  machine : σ
  runs : List Commit

def Recorder.start {σ : Type} (machine : σ) : Recorder σ := ⟨machine, []⟩

instance {σ : Type} [StateMachine σ] : StateMachine (Recorder σ) where
  apply recorder commit :=
    let effect := StateMachine.apply recorder.machine commit
    { state := ⟨effect.state, recorder.runs ++ [commit]⟩
      events := effect.events
      output := effect.output }
  query recorder query := StateMachine.query recorder.machine query

/-- Every entry stands past those before it. -/
def Increasing (entries : List LogEntry) : Prop :=
  entries.Pairwise (fun first second => first.index < second.index)

instance (entries : List LogEntry) : Decidable (Increasing entries) :=
  inferInstanceAs (Decidable (entries.Pairwise _))

namespace SessionTable

/-- A command was run, and its outcome is kept unless it was released. -/
def Holds (table : SessionTable) (session : SessionId) (sequence : Nat)
    (released : Bool) (result : CommandResponse) : Prop :=
  ∀ record, table.get? session = some record →
    sequence ≤ record.commandSequence ∧
      record.results.get? sequence = if released then none else some result

/-- The answer to a command that was run before. -/
def repeated (table : SessionTable) (session : SessionId) (released : Bool)
    (result : CommandResponse) : CommandResponse :=
  if table.contains session then
    if released then .error .commandError else result
  else .error .unknownSession

theorem contains_eq_false_iff {table : SessionTable} {id : SessionId} :
    table.contains id = false ↔ ∀ record, table.get? id ≠ some record := by
  have hcontains : table.contains id = (table.get? id).isSome := rfl
  rw [hcontains]
  cases table.get? id <;> simp

theorem Holds.keeps {before after : SessionTable} {session : SessionId}
    {sequence : Nat} {released : Bool} {result : CommandResponse}
    (hholds : before.Holds session sequence released result)
    (hkeeps : before.Keeps after) :
    after.Holds session sequence released result := by
  intro record hget
  obtain ⟨earlier, hearlier, hkept⟩ := hkeeps session record hget
  rw [hkept.sequence, hkept.results]
  exact hholds earlier hearlier

theorem Holds.cases {table : SessionTable} {session : SessionId}
    {sequence : Nat} {released : Bool} {result : CommandResponse}
    (hholds : table.Holds session sequence released result) :
    (table.get? session = none ∧
      table.repeated session released result = .error .unknownSession) ∨
    ∃ record, table.get? session = some record ∧
      sequence ≤ record.commandSequence ∧
      record.cachedResult sequence = table.repeated session released result := by
  have hcontains : table.contains session = (table.get? session).isSome := rfl
  cases hget : table.get? session with
  | none =>
      refine Or.inl ⟨rfl, ?_⟩
      rw [repeated, hcontains, hget]
      rfl
  | some record =>
      obtain ⟨hle, hresult⟩ := hholds record hget
      refine Or.inr ⟨record, rfl, hle, ?_⟩
      rw [repeated, hcontains, hget, Session.cachedResult, Table.getD, hresult]
      cases released <;> rfl

end SessionTable

namespace Executor

variable {σ : Type} [StateMachine σ]

/-- The executor without its notes. -/
def bare (executor : Executor (Recorder σ)) : Executor σ :=
  ⟨executor.machine.machine, executor.sessions⟩

/-- Committing an entry makes the state machine run a command, once and with
this outcome. -/
def Runs (executor : Executor (Recorder σ)) (entry : LogEntry)
    (session : SessionId) (sequence : Nat) (result : CommandResponse) : Prop :=
  (executor.commit entry).2 = .command session sequence result ∧
    ∃ commit, commit.session = session ∧ commit.sequence = sequence ∧
      (executor.commit entry).1.machine.runs =
        executor.machine.runs ++ [commit]

omit [StateMachine σ] in
theorem bare_lapse (executor : Executor (Recorder σ)) (operation : Operation) :
    (executor.lapse operation).bare = executor.bare.lapse operation := by
  unfold lapse
  split <;> rfl

/-- Taking notes changes nothing. -/
theorem bare_commit (executor : Executor (Recorder σ)) (entry : LogEntry) :
    (executor.commit entry).1.bare = (executor.bare.commit entry).1 ∧
      (executor.commit entry).2 = (executor.bare.commit entry).2 := by
  unfold commit
  rw [← bare_lapse]
  generalize executor.lapse entry.operation = lapsed
  unfold apply
  cases entry.operation with
  | noOp => exact ⟨rfl, rfl⟩
  | register client timeout timestamp => exact ⟨rfl, rfl⟩
  | keepAlive session upTo reported timestamp =>
      by_cases hopen : lapsed.sessions.contains session = true <;>
        simp only [keepAlive, bare, hopen] <;> exact ⟨rfl, rfl⟩
  | unregister session timestamp =>
      by_cases hopen : lapsed.sessions.contains session = true <;>
        simp only [unregister, bare, hopen] <;> exact ⟨rfl, rfl⟩
  | command session sequence timestamp payload =>
      cases hget : lapsed.sessions.get? session with
      | none =>
          simp only [applyCommand, bare, hget, and_self]
      | some record =>
          by_cases hle : sequence ≤ record.commandSequence <;>
            simp only [applyCommand, bare, hget, hle] <;> exact ⟨rfl, rfl⟩

/-- An executor that takes notes does what the one without does. -/
theorem Commits.bare {before after : Executor (Recorder σ)}
    {entries : List LogEntry} (hcommits : before.Commits entries after) :
    before.bare.Commits entries after.bare := by
  induction hcommits with
  | none => exact .none
  | @commit entries executor entry _ ih =>
      rw [(executor.bare_commit entry).1]
      exact ih.commit entry
  | acknowledge session sequence _ ih => exact ih.acknowledge session sequence

/-- Whatever an executor commits can be noted. -/
theorem Commits.exists_recorder {before : Executor (Recorder σ)}
    {executor : Executor σ} {entries : List LogEntry}
    (hcommits : before.bare.Commits entries executor) :
    ∃ after : Executor (Recorder σ), before.Commits entries after ∧
      after.bare = executor := by
  induction hcommits with
  | none => exact ⟨before, .none, rfl⟩
  | commit entry _ ih =>
      obtain ⟨middle, hmiddle, rfl⟩ := ih
      exact ⟨_, hmiddle.commit entry, (middle.bare_commit entry).1⟩
  | acknowledge session sequence _ ih =>
      obtain ⟨middle, hmiddle, rfl⟩ := ih
      exact ⟨_, hmiddle.acknowledge session sequence, rfl⟩

omit [StateMachine σ] in
theorem keeps_acknowledge (executor : Executor σ) (session : SessionId)
    (sequence : Int) :
    executor.sessions.Keeps (executor.acknowledge session sequence).sessions :=
  executor.sessions.keeps_update session
    (fun record => record.keeps_acknowledge sequence)

/-- Every open session was opened by an entry, and the commands that were run
are those of sessions that were opened, in increasing order. -/
structure Ordered (entries : List LogEntry)
    (executor : Executor (Recorder σ)) : Prop where
  opened : ∀ id record, executor.sessions.get? id = some record →
    ∃ entry ∈ entries, entry.index = id
  ran : ∀ commit ∈ executor.machine.runs,
    ∃ entry ∈ entries, entry.index = commit.session
  reached : ∀ commit ∈ executor.machine.runs, ∀ record,
    executor.sessions.get? commit.session = some record →
      commit.sequence ≤ record.commandSequence
  increasing : executor.machine.runs.Pairwise (fun first second =>
    first.session = second.session → first.sequence < second.sequence)

theorem Ordered.commit {entries : List LogEntry} {entry : LogEntry}
    {executor : Executor (Recorder σ)} (hordered : Ordered entries executor)
    (hindex : ∀ earlier ∈ entries, earlier.index < entry.index) :
    Ordered (entries ++ [entry]) (executor.commit entry).1 := by
  have hopened : ∀ id record,
      (executor.commit entry).1.sessions.get? id = some record →
        ∃ earlier ∈ entries ++ [entry], earlier.index = id := by
    intro id record hget
    by_cases heq : id = entry.index
    · exact ⟨entry, List.mem_append_right _ (List.mem_singleton_self entry),
        heq.symm⟩
    · obtain ⟨earlier, hearlier, -⟩ := executor.commit_session entry heq hget
      obtain ⟨opener, hopener, hid⟩ := hordered.opened id earlier hearlier
      exact ⟨opener, List.mem_append_left _ hopener, hid⟩
  have hreached : ∀ commit ∈ executor.machine.runs, ∀ record,
      (executor.commit entry).1.sessions.get? commit.session = some record →
        commit.sequence ≤ record.commandSequence := by
    intro commit hcommit record hget
    obtain ⟨opener, hopener, hid⟩ := hordered.ran commit hcommit
    obtain ⟨earlier, hearlier, hle, -⟩ := executor.commit_session entry
      (Nat.ne_of_lt (hid ▸ hindex opener hopener)) hget
    exact Nat.le_trans (hordered.reached commit hcommit earlier hearlier) hle
  have hran : ∀ commit ∈ executor.machine.runs,
      ∃ earlier ∈ entries ++ [entry], earlier.index = commit.session := by
    intro commit hcommit
    obtain ⟨opener, hopener, hid⟩ := hordered.ran commit hcommit
    exact ⟨opener, List.mem_append_left _ hopener, hid⟩
  rcases executor.commit_cases entry with
    ⟨session, sequence, timestamp, payload, lapsed, -, hlapsed, hlt,
      hcommit⟩ | ⟨hmachine, -⟩
  · -- A command is run: it is past everything its session has run.
    obtain ⟨earlier, hearlier, hkept⟩ :=
      executor.keeps_lapse entry.operation session lapsed hlapsed
    have hruns : (executor.commit entry).1.machine.runs =
        executor.machine.runs ++
          [⟨entry.index, session, sequence, timestamp, payload⟩] := by
      rw [hcommit, run_machine, lapse_machine]
      rfl
    refine ⟨hopened, fun commit hnew => ?_, fun commit hnew record hget => ?_,
      ?_⟩
    · rw [hruns] at hnew
      rcases List.mem_append.mp hnew with hold | hlast
      · exact hran commit hold
      · obtain rfl := List.mem_singleton.mp hlast
        obtain ⟨opener, hopener, hid⟩ :=
          hordered.opened session earlier hearlier
        exact ⟨opener, List.mem_append_left _ hopener, hid⟩
    · rw [hruns] at hnew
      rcases List.mem_append.mp hnew with hold | hlast
      · exact hreached commit hold record hget
      · obtain rfl := List.mem_singleton.mp hlast
        rw [hcommit] at hget
        obtain ⟨_, -, hrecord⟩ := run_session _ _ hget
        rw [if_pos rfl] at hrecord
        rw [hrecord.1]
        exact Nat.le_max_right _ _
    · rw [hruns, List.pairwise_append]
      refine ⟨hordered.increasing, List.pairwise_singleton _ _, ?_⟩
      rintro commit hold _ hlast hsame
      obtain rfl := List.mem_singleton.mp hlast
      have hle := hordered.reached commit hold earlier (hsame ▸ hearlier)
      rw [hkept.sequence] at hlt
      exact Nat.lt_of_le_of_lt hle hlt
  · refine ⟨hopened, ?_, ?_, ?_⟩ <;> rw [hmachine]
    · exact hran
    · exact hreached
    · exact hordered.increasing

theorem Commits.ordered {machine : σ} {executor : Executor (Recorder σ)}
    {entries : List LogEntry} (hincreasing : Increasing entries)
    (hcommits : (Executor.start (Recorder.start machine)).Commits entries
      executor) : Ordered entries executor := by
  induction hcommits with
  | none =>
      exact ⟨by simp [start, SessionTable.empty, SessionTable.get?],
        by simp [start, Recorder.start], by simp [start, Recorder.start],
        List.Pairwise.nil⟩
  | @commit entries executor entry _ ih =>
      obtain ⟨hbefore, -, hindex⟩ := List.pairwise_append.mp hincreasing
      exact (ih hbefore).commit (fun earlier hearlier =>
        hindex earlier hearlier entry (List.mem_singleton_self entry))
  | @acknowledge entries executor session sequence _ ih =>
      have hordered := ih hincreasing
      have hkeeps := executor.keeps_acknowledge session sequence
      refine ⟨fun id record hget => ?_, hordered.ran,
        fun commit hcommit record hget => ?_, hordered.increasing⟩
      · obtain ⟨earlier, hearlier, -⟩ := hkeeps id record hget
        exact hordered.opened id earlier hearlier
      · obtain ⟨earlier, hearlier, hkept⟩ := hkeeps _ record hget
        rw [hkept.sequence]
        exact hordered.reached commit hcommit earlier hearlier

section Repeated

variable {session : SessionId} {sequence : Nat} {released : Bool}
  {result : CommandResponse}

/-- An outcome is kept until it is released. -/
theorem holds_commit {executor : Executor σ} {entry : LogEntry}
    (hholds : executor.sessions.Holds session sequence released result)
    (hne : session ≠ entry.index) :
    (executor.commit entry).1.sessions.Holds session sequence
      (released || entry.releases session sequence) result := by
  intro record hget
  obtain ⟨earlier, hearlier, hle, hresults⟩ :=
    executor.commit_session entry hne hget
  obtain ⟨hreached, hresult⟩ := hholds earlier hearlier
  refine ⟨Nat.le_trans hreached hle, ?_⟩
  rw [hresults sequence hreached, hresult]
  cases released <;> cases entry.releases session sequence <;> rfl

theorem Commits.holds {before after : Executor σ} {entries : List LogEntry}
    (hcommits : before.Commits entries after)
    (hholds : before.sessions.Holds session sequence released result)
    (hne : ∀ entry ∈ entries, session ≠ entry.index) :
    after.sessions.Holds session sequence
      (released || entries.any (·.releases session sequence)) result := by
  induction hcommits with
  | none =>
      rw [List.any_nil, Bool.or_false]
      exact hholds
  | @commit entries executor entry _ ih =>
      rw [List.any_append, List.any_cons, List.any_nil, Bool.or_false,
        ← Bool.or_assoc]
      exact holds_commit (ih (fun earlier hearlier =>
        hne earlier (List.mem_append_left _ hearlier)))
        (hne entry (List.mem_append_right _ (List.mem_singleton_self entry)))
  | @acknowledge entries executor other reported _ ih =>
      exact (ih hne).keeps (executor.keeps_acknowledge other reported)

/-- A session that was closed is not opened again. -/
theorem Commits.closed {before after : Executor σ} {entries : List LogEntry}
    (hcommits : before.Commits entries after)
    (hclosed : before.sessions.contains session = false)
    (hne : ∀ entry ∈ entries, session ≠ entry.index) :
    after.sessions.contains session = false := by
  induction hcommits with
  | none => exact hclosed
  | @commit entries executor entry _ ih =>
      rw [SessionTable.contains_eq_false_iff] at ih ⊢
      intro record hget
      obtain ⟨earlier, hearlier, -⟩ := executor.commit_session entry
        (hne entry (List.mem_append_right _ (List.mem_singleton_self entry)))
        hget
      exact ih (fun further hfurther =>
        hne further (List.mem_append_left _ hfurther)) earlier hearlier
  | @acknowledge entries executor other reported _ ih =>
      rw [SessionTable.contains_eq_false_iff] at ih ⊢
      intro record hget
      obtain ⟨earlier, hearlier, -⟩ :=
        executor.keeps_acknowledge other reported session record hget
      exact ih hne earlier hearlier

/-- What the first run of a command leaves behind. -/
theorem Runs.holds {executor : Executor (Recorder σ)} {entry : LogEntry}
    (hruns : executor.Runs entry session sequence result) :
    (∃ record, executor.sessions.get? session = some record) ∧
      (executor.commit entry).1.sessions.Holds session sequence false
        result := by
  obtain ⟨houtcome, commit, -, -, hnoted⟩ := hruns
  rcases executor.commit_cases entry with
    ⟨id, place, timestamp, payload, lapsed, -, hlapsed, -, hcommit⟩ |
    ⟨hmachine, -⟩
  · rw [hcommit] at houtcome
    obtain ⟨rfl, rfl, hresult⟩ := Applied.command.inj houtcome
    obtain ⟨earlier, hearlier, -⟩ :=
      executor.keeps_lapse entry.operation id lapsed hlapsed
    refine ⟨⟨earlier, hearlier⟩, fun record hget => ?_⟩
    rw [hcommit] at hget
    obtain ⟨_, -, hrecord⟩ := run_session _ _ hget
    rw [if_pos rfl] at hrecord
    obtain ⟨hreached, hresults⟩ := hrecord
    refine ⟨hreached ▸ Nat.le_max_right _ _, ?_⟩
    rw [hresults, Table.get?_insert, if_pos rfl, hresult]
    rfl
  · rw [hmachine] at hnoted
    have hlength := congrArg List.length hnoted
    rw [List.length_append, List.length_singleton] at hlength
    omega

/-- An entry that repeats a command is answered with what is kept. -/
theorem commit_repeated {executor : Executor σ}
    (hholds : executor.sessions.Holds session sequence released result)
    {entry : LogEntry} {timestamp : Nat} {payload : Bytes}
    (hoperation : entry.operation =
      .command session sequence timestamp payload) :
    (executor.commit entry).2 = .command session sequence
      ((executor.lapse entry.operation).sessions.repeated session released
        result) := by
  have hlapsed := hholds.keeps (executor.keeps_lapse entry.operation)
  unfold commit apply
  generalize executor.lapse entry.operation = lapsed at hlapsed ⊢
  rw [hoperation]
  simp only [applyCommand, Applied.command.injEq, true_and]
  rcases hlapsed.cases with ⟨hclosed, hanswer⟩ |
    ⟨record, hopen, hle, hanswer⟩
  · rw [hclosed, hanswer]
  · simp only [hopen, hle, ↓reduceIte, hanswer]

end Repeated

end Executor

/-- A leader answers a repeated command with what is kept. -/
theorem Node.submitCommand_repeated {L σ : Type} [LogStore L] [StateMachine σ]
    {node : Node L σ} (hrole : node.role = .leader) {session : SessionId}
    {sequence : Nat} {released : Bool} {result : CommandResponse}
    (hholds :
      node.executor.sessions.Holds session sequence released result)
    (ticket : Ticket) (payload : Bytes) :
    node.submitCommand ticket ⟨session, sequence, payload⟩ =
      .ok (node.answer ticket (.command
        (node.executor.sessions.repeated session released result))) := by
  unfold Node.submitCommand
  simp only [hrole, ne_eq, not_true_eq_false, ↓reduceIte]
  rcases hholds.cases with ⟨hclosed, hanswer⟩ | ⟨record, hopen, hle, hanswer⟩
  · rw [hclosed, hanswer]
    rfl
  · simp only [hopen, hle, ↓reduceIte, hanswer]
    rfl

theorem Numbered.increasing {entries : List LogEntry}
    (hnumbered : Numbered entries) (count : Nat) :
    Increasing (entries.take count) := by
  apply List.Pairwise.sublist (List.take_sublist count entries)
  refine List.pairwise_iff_getElem.mpr (fun place later hplace hlater hlt => ?_)
  rw [hnumbered place _ (List.getElem?_eq_getElem hplace),
    hnumbered later _ (List.getElem?_eq_getElem hlater)]
  exact Nat.succ_lt_succ hlt

/-- In every run the state of a member comes from entries in increasing order,
and the commands that were run for it can be noted. -/
theorem Run.Valid.noted {L σ : Type} [LogStore L] [FaithfulLog L]
    [StateMachine σ] {run : Run L σ} (hvalid : run.Valid) {id : NodeId}
    (hid : id ∈ run.members) (time : Nat) :
    ∃ (applied : List LogEntry) (machine : σ) (noted : Executor (Recorder σ)),
      Increasing applied ∧
      (Executor.start (Recorder.start machine)).Commits applied noted ∧
      noted.bare = (run.node time id).executor := by
  obtain ⟨-, machine, hcommits⟩ := hvalid.replayed hid time
  have hnumbered := FaithfulLog.numbered (hvalid.sane time id hid).1
  have hbare : (Executor.start (Recorder.start machine)).bare.Commits
      ((run.standing time id).entries.take (run.standing time id).lastApplied)
      (run.node time id).executor := hcommits
  obtain ⟨noted, hnoted, heq⟩ := hbare.exists_recorder
  exact ⟨_, machine, noted, hnumbered.increasing _, hnoted, heq⟩

namespace Executor

/-- Exactly-once commands.  The commands that a state machine is given to run
can be noted, and the notes change nothing.  It runs the commands of a session
in increasing order, and so each of them at most once.  Once a command has run,
an entry that repeats it and a client that submits it again are told the
outcome of that run until the outcome is released, and then that it is gone, as
long as the session is open; and a session that was closed stays so. -/
theorem exactly_once {L σ : Type} [LogStore L] [StateMachine σ] (machine : σ) :
    (∀ (entries : List LogEntry) (executor : Executor σ),
      (start machine).Commits entries executor ↔
        ∃ noted : Executor (Recorder σ), noted.bare = executor ∧
          (start (Recorder.start machine)).Commits entries noted) ∧
    (∀ (entries : List LogEntry) (noted : Executor (Recorder σ)),
      Increasing entries →
      (start (Recorder.start machine)).Commits entries noted →
      noted.machine.runs.Pairwise (fun first second =>
        first.session = second.session → first.sequence < second.sequence)) ∧
    ∀ (first middle : List LogEntry) (entry : LogEntry)
      (before after : Executor (Recorder σ)) (session : SessionId)
      (sequence : Nat) (result : CommandResponse),
      Increasing (first ++ entry :: middle) →
      (start (Recorder.start machine)).Commits first before →
      before.Runs entry session sequence result →
      (before.commit entry).1.Commits middle after →
      (∀ (again : LogEntry) (timestamp : Nat) (payload : Bytes),
        again.operation = .command session sequence timestamp payload →
        (after.bare.commit again).2 = .command session sequence
          ((after.bare.lapse again.operation).sessions.repeated session
            (middle.any (·.releases session sequence)) result)) ∧
      (∀ (node : Node L σ) (ticket : Ticket) (payload : Bytes),
        node.role = .leader → node.executor = after.bare →
        node.submitCommand ticket ⟨session, sequence, payload⟩ =
          .ok (node.answer ticket (.command (after.bare.sessions.repeated
            session (middle.any (·.releases session sequence)) result)))) ∧
      ∀ (rest : List LogEntry) (last : Executor (Recorder σ)),
        Increasing (first ++ entry :: middle ++ rest) →
        after.Commits rest last →
        after.sessions.contains session = false →
        last.sessions.contains session = false := by
  refine ⟨fun entries executor => ⟨fun hcommits => ?_, ?_⟩,
    fun entries noted hincreasing hcommits =>
      (hcommits.ordered hincreasing).increasing, ?_⟩
  · have hbare : (start (Recorder.start machine)).bare.Commits entries
        executor := hcommits
    obtain ⟨noted, hnoted, heq⟩ := hbare.exists_recorder
    exact ⟨noted, heq, hnoted⟩
  · rintro ⟨noted, rfl, hnoted⟩
    exact hnoted.bare
  · intro first middle entry before after session sequence result hincreasing
      hfirst hruns hmiddle
    obtain ⟨hbefore, -, hbetween⟩ := List.pairwise_append.mp hincreasing
    obtain ⟨⟨record, hopen⟩, hrun⟩ := hruns.holds
    obtain ⟨opener, hopener, rfl⟩ :=
      (hfirst.ordered hbefore).opened session record hopen
    -- The session has the index of an earlier entry, so no later one opens it.
    have hholds := hmiddle.holds hrun (fun further hfurther => Nat.ne_of_lt
      (hbetween opener hopener further (List.mem_cons_of_mem _ hfurther)))
    rw [Bool.false_or] at hholds
    have hbare : after.bare.sessions.Holds opener.index sequence
        (middle.any (·.releases opener.index sequence)) result := hholds
    refine ⟨fun again timestamp payload hoperation =>
        commit_repeated hbare hoperation,
      fun node ticket payload hrole hexecutor => ?_,
      fun rest last hmore hrest hclosed => ?_⟩
    · rw [← hexecutor]
      exact Node.submitCommand_repeated hrole (hexecutor ▸ hbare) ticket payload
    · obtain ⟨-, -, hfurther⟩ := List.pairwise_append.mp hmore
      exact hrest.closed hclosed (fun further hmember => Nat.ne_of_lt
        (hfurther opener (List.mem_append_left _ hopener) further hmember))

end Executor

namespace Witness

def registration : LogEntry := ⟨1, 1, .register 7 60000 0⟩

/-- An entry with the first command of the session 1, which adds 7. -/
def addition (index : Nat) : LogEntry := ⟨1, index, .command 1 1 0 [1, 7]⟩

/-- An entry that releases the outcome of that command. -/
def release (index : Nat) : LogEntry := ⟨1, index, .keepAlive 1 1 0 0⟩

def closing (index : Nat) : LogEntry := ⟨1, index, .unregister 1 0⟩

def outcome : CommandResponse := .ok ⟨2, [0, 0, 0, 0, 0, 0, 0, 7]⟩

/-- The executor that has opened the session 1. -/
def opened : Executor (Recorder Tally) :=
  ((Executor.start (Recorder.start Tally.start)).commit registration).1

def committed (executor : Executor (Recorder Tally))
    (entries : List LogEntry) : Executor (Recorder Tally) :=
  entries.foldl (fun executor entry => (executor.commit entry).1) executor

def leading (executor : Executor Tally) : Node MemoryLog Tally :=
  { member .empty Tally.start 1 with role := .leader, executor := executor }

/-- The command is run once.  An entry and a client that repeat it are told its
outcome, then that the outcome is gone, and then that the session is. -/
theorem exactly_once_repeated :
    opened.Runs (addition 2) 1 1 outcome ∧
      ((committed opened [addition 2, addition 3]).bare.commit
        (addition 4)).2 = .command 1 1 outcome ∧
      (leading (committed opened [addition 2, addition 3]).bare).submitCommand 9
          ⟨1, 1, [1, 7]⟩ =
        .ok ((leading (committed opened [addition 2, addition 3]).bare).answer 9
          (.command outcome)) ∧
      ((committed opened [addition 2, release 3]).bare.commit
        (addition 4)).2 = .command 1 1 (.error .commandError) ∧
      ((committed opened [addition 2, closing 3]).bare.commit
        (addition 4)).2 = .command 1 1 (.error .unknownSession) ∧
      (committed opened [addition 2, closing 3, addition 4]).sessions.contains
        1 = false := by
  have honce := (Executor.exactly_once (L := MemoryLog) Tally.start).2.2
  have hopened : (Executor.start (Recorder.start Tally.start)).Commits
      [registration] opened := Executor.Commits.none.commit registration
  have hruns : opened.Runs (addition 2) 1 1 outcome :=
    ⟨by decide, _, rfl, rfl, rfl⟩
  have hnext : ∀ (before : Executor (Recorder Tally)) (entry : LogEntry),
      before.Commits [entry] (before.commit entry).1 :=
    fun before entry => Executor.Commits.none.commit entry
  obtain ⟨hagain, hsubmit, -⟩ := honce [registration] [addition 3]
    (addition 2) opened (committed opened [addition 2, addition 3]) 1 1 outcome
    (by decide) hopened hruns (hnext _ _)
  obtain ⟨hreleased, -, -⟩ := honce [registration] [release 3]
    (addition 2) opened (committed opened [addition 2, release 3]) 1 1 outcome
    (by decide) hopened hruns (hnext _ _)
  obtain ⟨hclosed, -, hstays⟩ := honce [registration] [closing 3]
    (addition 2) opened (committed opened [addition 2, closing 3]) 1 1 outcome
    (by decide) hopened hruns (hnext _ _)
  exact ⟨hruns, hagain (addition 4) 0 [1, 7] rfl,
    hsubmit (leading _) 9 [1, 7] rfl rfl, hreleased (addition 4) 0 [1, 7] rfl,
    hclosed (addition 4) 0 [1, 7] rfl,
    hstays [addition 4] _ (by decide) (hnext _ _) rfl⟩

end Witness

end SessionRaft
