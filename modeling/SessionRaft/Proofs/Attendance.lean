/-
What the requests of clients wait for.  Whoever waits for an entry waits for
one that stands in the log, was not applied, and is what was asked for; and a
node that does not lead has nobody waiting but those whom any node can answer.
-/
import SessionRaft.Proofs.HeldCommands

namespace SessionRaft

/-- The answer to a request that waited for another entry than it found. -/
def Answer.Mismatched (answer : Answer) : Prop :=
  answer = answer.kind.refusal .protocolError

theorem RequestKind.fair_refusal (kind : RequestKind) {error : ErrorKind}
    (herror : error ≠ .protocolError) : ¬(kind.refusal error).Mismatched := by
  cases kind <;> simp [Answer.Mismatched, Answer.kind, refusal, herror]

namespace Node

open FaithfulLog

variable {L σ : Type} [LogStore L] [FaithfulLog L] [StateMachine σ]
  {input : Input} {node before middle after : Node L σ} {handed : List LogEntry}
  {demands : List Demand}

/-- Only a leader keeps what leading takes, and it keeps that unless it is told
to stop. -/
structure Presides (input : Input) (node : Node L σ) : Prop where
  leads : node.leadership.isSome = true → node.role = .leader
  keeps : input ≠ .shutdown → node.role = .leader →
    node.leadership.isSome = true

omit [LogStore L] [FaithfulLog L] [StateMachine σ] in
theorem Presides.of_eq (hpresides : before.Presides input)
    (hrole : after.role = before.role)
    (hleads : after.leadership.isSome = before.leadership.isSome) :
    after.Presides input := by
  constructor
  · rw [hleads, hrole]
    exact hpresides.leads
  · rw [hleads, hrole]
    exact hpresides.keeps

omit [LogStore L] [FaithfulLog L] [StateMachine σ] in
theorem Presides.of_none (hleadership : node.leadership = none)
    (hrole : node.role ≠ .leader ∨ input = .shutdown) :
    node.Presides input := by
  constructor
  · intro hsome
    simp [hleadership] at hsome
  · intro hinput hleads
    exact (hrole.elim (fun hrole => hrole hleads) hinput).elim

/-- What is about neither the log nor the waiters stays as it is. -/
structure Stays (before after : Node L σ) : Prop where
  role : after.role = before.role
  lastApplied : after.lastApplied = before.lastApplied
  leads : after.leadership.isSome = before.leadership.isSome

omit [StateMachine σ] in
theorem Quiet.stays (hquiet : Quiet before after) : Stays before after := by
  refine ⟨congrArg Standing.role hquiet.standing,
    congrArg Standing.lastApplied hquiet.standing, ?_⟩
  have hbare := congrArg Option.isSome
    (congrArg Standing.leadership hquiet.standing)
  simp only [Node.standing, Option.isSome_map] at hbare
  exact hbare

omit [StateMachine σ] in
theorem Appends.stays {commands : List PendingCommand}
    (happends : Appends node commands after) : Stays node after := by
  induction happends with
  | done => exact ⟨rfl, rfl, rfl⟩
  | issue _ _ ih =>
      exact ⟨ih.role, ih.lastApplied, ih.leads.trans Option.isSome_map⟩
  | @lose node command commands _ log _ =>
      have hstays := (quiet_lost { node with log := log } command commands).stays
      exact ⟨hstays.role, hstays.lastApplied, hstays.leads⟩

omit [StateMachine σ] in
theorem stays_admitted (node : Node L σ) (record : Session)
    (submission : Submission) :
    Stays node (node.admitted record submission) := by
  cases submission with
  | ready commands => exact (appends_appendReady node commands).stays
  | _ => exact ⟨rfl, rfl, rfl⟩

theorem applyNext_role (node : Node L σ) (count : Nat) :
    (node.applyNext count).role = node.role ∧
      (node.applyNext count).queries ⊆ node.queries := by
  refine applyNext_induction
    (fun after => after.role = node.role ∧ after.queries ⊆ node.queries) node
    count ⟨rfl, List.Subset.refl _⟩ (fun before entry hbefore _ => ?_)
  have hlapsed := lapsed_applyEntry
    { before with lastApplied := before.lastApplied + 1 } entry
  exact ⟨(congrArg Standing.role hlapsed.standing).trans hbefore.1,
    List.Subset.trans hlapsed.queries hbefore.2⟩

theorem Act.presides (hpresides : node.Presides input)
    (hact : Act input node handed demands after) :
    after.Presides input := by
  cases hact with
  | follow term _ =>
      refine .of_none (becomeFollower_leadership node term) (Or.inl ?_)
      simp [becomeFollower_role]
  | desist hleadership => exact .of_none hleadership (Or.inl (by simp))
  | stand _ hleadership _ _ _ =>
      exact .of_none hleadership (Or.inl (by simp [candidacy, send]))
  | count member _ =>
      unfold countVote
      split <;> exact hpresides.of_eq rfl rfl
  | lead _ _ => exact ⟨fun _ => rfl, fun _ _ => rfl⟩
  | inaugurate _ _ => exact hpresides.of_eq rfl Option.isSome_map
  | @advance target _ _ =>
      have hrole := (applyNext_role { node with commitIndex := target }
        (target - node.lastApplied)).1
      exact hpresides.of_eq hrole (applyNext_leads _ _)
  | publish =>
      have hstays := (quiet_publishEvents node).stays
      exact hpresides.of_eq hstays.role hstays.leads
  | round => exact hpresides.of_eq rfl Option.isSome_map
  | heed _ _ hrole _ _ => exact ⟨fun _ => hrole, fun _ _ => rfl⟩
  | @submit _ _ record leadership sequencer submission _ hrole _ _ _ _ =>
      have hstays := stays_admitted (node.sequenced leadership sequencer)
        record submission
      exact ⟨fun _ => hstays.role.trans hrole, fun _ _ => hstays.leads⟩
  | acknowledge _ _ =>
      unfold acknowledgeEvents
      split
      · exact hpresides
      · split
        · exact hpresides.of_eq rfl rfl
        · exact hpresides.of_eq rfl Option.isSome_map
  | retire hinput =>
      exact .of_none (shutdown_dismisses node).1 (Or.inr hinput)
  | _ => exact hpresides.of_eq rfl rfl

/-- Nobody waits for a node that keeps nothing for leading, but for queries that
any node can answer. -/
def Dismisses (node : Node L σ) : Prop :=
  node.leadership = none → node.waiters = .empty ∧
    ∀ query ∈ node.queries, isFresh query = false

omit [LogStore L] [FaithfulLog L] [StateMachine σ] in
theorem Dismisses.of_eq (hdismisses : before.Dismisses)
    (hleads : after.leadership.isSome = before.leadership.isSome)
    (hwaiters : after.waiters = before.waiters)
    (hqueries : after.queries ⊆ before.queries) : after.Dismisses := by
  intro hnone
  have hbefore : before.leadership = none := by
    rw [← Option.not_isSome_iff_eq_none, ← hleads, hnone]
    exact Bool.false_ne_true
  obtain ⟨hempty, hstale⟩ := hdismisses hbefore
  exact ⟨hwaiters.trans hempty, fun query hquery =>
    hstale query (hqueries hquery)⟩

omit [LogStore L] [FaithfulLog L] [StateMachine σ] in
theorem Dismisses.of_leads (hleads : node.leadership.isSome = true) :
    node.Dismisses := by
  intro hnone
  simp [hnone] at hleads

/-- Requests were refused, but none that waits for an entry. -/
structure Releases (before after : Node L σ) : Prop where
  waiters : after.waiters = before.waiters
  answers : ∀ given ∈ after.answers,
    given ∈ before.answers ∨ ¬given.2.Mismatched

section Releases

omit [LogStore L] [FaithfulLog L] [StateMachine σ]

theorem Releases.refl (node : Node L σ) : Releases node node :=
  ⟨rfl, fun _ hgiven => Or.inl hgiven⟩

theorem Releases.trans (hfirst : Releases before middle)
    (hsecond : Releases middle after) : Releases before after := by
  constructor
  · exact hsecond.waiters.trans hfirst.waiters
  · intro given hgiven
    rcases hsecond.answers given hgiven with hgiven | hfair
    · exact hfirst.answers given hgiven
    · exact Or.inr hfair

theorem releases_answerAll (node : Node L σ) (tickets : List Ticket)
    {answer : Answer} (hfair : ¬answer.Mismatched) :
    Releases node (node.answerAll tickets answer) := by
  constructor
  · rfl
  · intro given hgiven
    rcases List.mem_append.mp hgiven with hgiven | hgiven
    · exact Or.inl hgiven
    · obtain ⟨ticket, -, rfl⟩ := List.mem_map.mp hgiven
      exact Or.inr hfair

theorem releases_failCommands (node : Node L σ)
    (commands : List PendingCommand) {kind : ErrorKind}
    (hkind : kind ≠ .protocolError) :
    Releases node (node.failCommands commands kind) :=
  releases_answerAll node _ (RequestKind.command.fair_refusal hkind)

theorem releases_failQueries (node : Node L σ) (fails : PendingQuery → Bool)
    {kind : ErrorKind} (hkind : kind ≠ .protocolError) :
    Releases node (node.failQueries fails kind) := by
  have hrefused := releases_answerAll
    { node with queries := (node.queries.partition fails).2 }
    ((node.queries.partition fails).1.map PendingQuery.ticket)
    (RequestKind.query.fair_refusal hkind)
  exact ⟨hrefused.waiters, hrefused.answers⟩

theorem releases_forgetCommands (node : Node L σ) (session : SessionId)
    {kind : ErrorKind} (hkind : kind ≠ .protocolError) :
    Releases node (node.forgetCommands session kind) := by
  unfold forgetCommands
  split
  · exact .refl node
  · rename_i leadership _
    have hrefused := releases_failCommands { node with
      leadership := some { leadership with
        sequencer := (leadership.sequencer.forget session).1 } }
      (leadership.sequencer.forget session).2 hkind
    exact ⟨hrefused.waiters, hrefused.answers⟩

theorem releases_lost (node : Node L σ) (command : PendingCommand)
    (commands : List PendingCommand) :
    Releases node (node.lost command commands) := by
  have hinternal : ErrorKind.internalError ≠ .protocolError := by decide
  exact (releases_failCommands node (command :: commands) hinternal).trans
    (releases_forgetCommands _ command.request.session hinternal)

theorem releases_releaseSession (node : Node L σ) (session : SessionId) :
    Releases node (node.releaseSession session) := by
  have hforgotten : Releases node
      (node.forgetCommands session .unknownSession) :=
    releases_forgetCommands node session (by decide)
  have hpublisher : Releases node
      ((node.forgetCommands session .unknownSession).modifyLeadership
        (fun leadership => { leadership with
          publisher := leadership.publisher.forget session })) :=
    ⟨hforgotten.waiters, hforgotten.answers⟩
  have hunknown : ErrorKind.unknownSession ≠ .protocolError := by decide
  exact hpublisher.trans (releases_failQueries _ _ hunknown)

theorem releases_releaseSessions (node : Node L σ)
    (sessions : List SessionId) :
    Releases node (node.releaseSessions sessions) := by
  induction sessions generalizing node with
  | nil => exact .refl node
  | cons session sessions ih =>
      exact (releases_releaseSession node session).trans (ih _)

theorem releases_expireBefore (node : Node L σ) (operation : Operation) :
    Releases node (node.expireBefore operation) := by
  unfold expireBefore
  split
  · rename_i timestamp _
    have hreleased := releases_releaseSessions
      { node with executor := node.executor.expire timestamp }
      (node.executor.sessions.expired timestamp)
    exact ⟨hreleased.waiters, hreleased.answers⟩
  · exact .refl node

theorem releases_settle (node : Node L σ) (operation : Operation)
    (applied : Applied) : Releases node (node.settle operation applied) := by
  unfold settle
  split
  · exact ⟨rfl, fun _ hgiven => Or.inl hgiven⟩
  · exact releases_releaseSession node _
  · exact .refl node

end Releases

omit [LogStore L] [FaithfulLog L] in
/-- Applying an entry dismisses whoever waits for its index. -/
theorem applyEntry_waiters (node : Node L σ) (entry : LogEntry) :
    (node.applyEntry entry).waiters = node.waiters.erase entry.index := by
  have hexpired := (releases_expireBefore node entry.operation).waiters
  rw [applyEntry_eq, complete]
  simp only
  rw [(releases_settle _ _ _).waiters]
  exact congrArg (·.erase entry.index) hexpired

omit [FaithfulLog L] [StateMachine σ] in
/-- A follower has dismissed whoever waited for its leadership. -/
theorem Dismisses.becomeFollower (hdismisses : node.Dismisses) (term : Nat) :
    (node.becomeFollower term).waiters = .empty ∧
      (node.becomeFollower term).Dismisses := by
  have hadopted : (node.adoptTerm term).leadership = node.leadership ∧
      (node.adoptTerm term).waiters = node.waiters ∧
      (node.adoptTerm term).queries = node.queries := by
    unfold adoptTerm
    split <;> exact ⟨rfl, rfl, rfl⟩
  obtain ⟨hleadership, hwaiters, hqueries⟩ := hadopted
  rw [becomeFollower_eq, stepDown]
  split
  · refine ⟨rfl, fun _ => ⟨rfl, fun query hquery => ?_⟩⟩
    simp only [failQueries, answerAll, List.partition_eq_filter_filter]
      at hquery
    simpa using (List.mem_filter.mp hquery).2
  · rename_i hnone
    have hnone : node.leadership = none := by
      rw [← hleadership]
      simpa using hnone
    have hsame : Dismisses { node.adoptTerm term with
        role := .follower, votes := [] } :=
      hdismisses.of_eq (congrArg _ hleadership) hwaiters
        (hqueries ▸ List.Subset.refl _)
    exact ⟨hwaiters.trans (hdismisses hnone).1, hsame⟩

omit [FaithfulLog L] in
theorem applyNext_unwaited (hempty : node.waiters = .empty) (count : Nat) :
    (node.applyNext count).waiters = .empty := by
  refine applyNext_induction (fun after => after.waiters = .empty) node count
    hempty (fun before entry hbefore _ => ?_)
  rw [applyEntry_waiters]
  simp only [hbefore]
  rfl

/-- Acts dismiss whoever waits for a leadership that they end. -/
theorem Act.dismisses (hpresides : node.Presides input)
    (hdismisses : node.Dismisses)
    (hact : Act input node handed demands after) : after.Dismisses := by
  cases hact with
  | follow term _ => exact (hdismisses.becomeFollower term).2
  | count member _ =>
      unfold countVote
      split <;> exact hdismisses
  | lead _ _ => exact .of_leads rfl
  | inaugurate _ _ =>
      exact hdismisses.of_eq Option.isSome_map rfl (List.Subset.refl _)
  | @advance target _ _ =>
      intro hnone
      have hleads := applyNext_leads { node with commitIndex := target }
        (target - node.lastApplied)
      rw [hnone, Option.isSome_none, eq_comm, Option.isSome_eq_false_iff,
        Option.isNone_iff_eq_none] at hleads
      obtain ⟨hempty, hstale⟩ := hdismisses hleads
      have hcommitted : { node with commitIndex := target }.waiters =
        .empty := hempty
      refine ⟨applyNext_unwaited hcommitted _, fun query hquery => ?_⟩
      exact hstale query ((applyNext_role { node with commitIndex := target }
        (target - node.lastApplied)).2 hquery)
  | serve =>
      refine hdismisses.of_eq rfl rfl ?_
      simp only [serveQueries, List.partition_eq_filter_filter]
      exact List.filter_sublist.subset
  | publish =>
      unfold publishEvents
      split
      · exact hdismisses
      · exact .of_leads rfl
  | round => exact hdismisses.of_eq Option.isSome_map rfl (List.Subset.refl _)
  | heed _ _ _ _ _ => exact .of_leads rfl
  | @submit _ _ record leadership sequencer submission _ _ _ _ _ _ =>
      exact .of_leads (stays_admitted (node.sequenced leadership sequencer)
        record submission).leads
  | enter hasks _ hrole _ =>
      refine .of_leads (hpresides.keeps ?_ hrole)
      rintro rfl
      cases hasks
  | ask _ hconsistency =>
      intro hnone
      obtain ⟨hempty, hstale⟩ := hdismisses hnone
      refine ⟨hempty, fun query hquery => ?_⟩
      rcases List.mem_append.mp hquery with hquery | hquery
      · exact hstale query hquery
      · rw [List.mem_singleton.mp hquery]
        simp [isFresh, hconsistency]
  | askFresh _ _ hleadership =>
      exact .of_leads (Option.isSome_iff_exists.mpr ⟨_, hleadership⟩)
  | acknowledge _ _ =>
      unfold acknowledgeEvents
      split
      · exact hdismisses
      · split
        · exact hdismisses
        · exact hdismisses.of_eq Option.isSome_map rfl (List.Subset.refl _)
  | retire _ =>
      intro _
      obtain ⟨-, hwaiters, hqueries⟩ := shutdown_dismisses node
      refine ⟨hwaiters, fun query hquery => ?_⟩
      simp [hqueries] at hquery
  | _ => exact hdismisses

/-- Whoever waits for an index waits for the entry that stands there.  It was
not applied, and it is what one of some inputs asked for. -/
def Grounded (inputs : List Input) (node : Node L σ) : Prop :=
  ∀ index waiter, waiter ∈ node.waiters.getD index [] →
    node.lastApplied < index ∧ ∃ entry,
      (entries node.log)[index - 1]? = some entry ∧
        ∃ input ∈ inputs, input.Asks waiter entry.operation

variable {inputs : List Input}

omit [StateMachine σ] in
theorem Grounded.of_empty (hempty : node.waiters = .empty) :
    node.Grounded inputs := by
  intro index waiter hwaiter
  simp [hempty, Table.getD] at hwaiter

omit [StateMachine σ] in
/-- Waiters stay where they are while the log is extended. -/
theorem Grounded.of_eq (hgrounded : before.Grounded inputs)
    (hwaiters : after.waiters = before.waiters)
    (happlied : after.lastApplied = before.lastApplied)
    (hlog : entries before.log <+: entries after.log) :
    after.Grounded inputs := by
  intro index waiter hwaiter
  rw [hwaiters] at hwaiter
  obtain ⟨hlt, entry, hentry, hasks⟩ := hgrounded index waiter hwaiter
  rw [happlied]
  refine ⟨hlt, entry, ?_, hasks⟩
  obtain ⟨hplace, -⟩ := List.getElem?_eq_some_iff.mp hentry
  obtain ⟨more, hmore⟩ := hlog
  rw [← hmore, List.getElem?_append_left hplace, hentry]

omit [StateMachine σ] in
theorem Grounded.await (hgrounded : node.Grounded inputs) {index : Nat}
    {waiters : List Waiter} {entry : LogEntry}
    (hlt : node.lastApplied < index)
    (hentry : (entries node.log)[index - 1]? = some entry)
    (hasks : ∀ waiter ∈ waiters,
      ∃ input ∈ inputs, input.Asks waiter entry.operation) :
    (node.await index waiters).Grounded inputs := by
  intro place waiter hwaiter
  simp only [Node.await, Table.getD, Table.get?_insert] at hwaiter
  split at hwaiter
  · rename_i heq
    subst heq
    rw [Option.getD_some, List.mem_append] at hwaiter
    rcases hwaiter with hwaiter | hwaiter
    · exact hgrounded place waiter hwaiter
    · exact ⟨hlt, entry, hentry, hasks waiter hwaiter⟩
  · exact hgrounded place waiter hwaiter

omit [StateMachine σ] in
/-- Somebody waits for an operation that was appended. -/
theorem Grounded.append (hgrounded : node.Grounded inputs) (hlog : Sound node.log)
    (hle : node.lastApplied ≤ (entries node.log).length)
    {operation : Operation} {index : Nat} {log : L} {waiters : List Waiter}
    (happend : LogStore.append node.log node.term operation = (.ok index, log))
    (hasks : ∀ waiter ∈ waiters,
      ∃ input ∈ inputs, input.Asks waiter operation)
    (hlogged : after.log = log)
    (happlied : after.lastApplied = node.lastApplied)
    (hwaiters : after.waiters = node.waiters) :
    (after.await index waiters).Grounded inputs := by
  obtain ⟨-, rfl, hentries⟩ := append_done (.of_sound hlog) happend
  have hextended : after.Grounded inputs := by
    refine hgrounded.of_eq hwaiters happlied ?_
    rw [hlogged, hentries]
    exact List.prefix_append _ _
  have hlast : (entries after.log)[(entries node.log).length + 1 - 1]? =
      some ⟨node.term, (entries node.log).length + 1, operation⟩ := by
    rw [hlogged, hentries]
    simp
  have hlt : after.lastApplied < (entries node.log).length + 1 := by
    rw [happlied]
    exact Nat.lt_succ_of_le hle
  exact hextended.await hlt hlast hasks

/-- Nobody waits any longer for an entry that is applied. -/
theorem Grounded.applyEntry (hgrounded : node.Grounded inputs)
    {entry : LogEntry} (hindex : entry.index = node.lastApplied + 1) :
    (Node.applyEntry { node with
      lastApplied := node.lastApplied + 1 } entry).Grounded inputs := by
  have hlapsed := lapsed_applyEntry
    { node with lastApplied := node.lastApplied + 1 } entry
  have happlied := congrArg Standing.lastApplied hlapsed.standing
  have hsame : (Node.applyEntry
      { node with lastApplied := node.lastApplied + 1 } entry).log =
      node.log := hlapsed.log
  intro index waiter hwaiter
  rw [applyEntry_waiters] at hwaiter
  simp only [Table.getD, Table.get?_erase] at hwaiter
  split at hwaiter
  · simp at hwaiter
  · rename_i hne
    obtain ⟨hlt, hstands⟩ := hgrounded index waiter hwaiter
    rw [hsame]
    refine ⟨?_, hstands⟩
    simp only [Node.standing] at happlied
    omega

theorem Grounded.applyNext (hgrounded : node.Grounded inputs)
    (hlog : Sound node.log) (count : Nat) :
    Sound (node.applyNext count).log ∧
      (node.applyNext count).Grounded inputs := by
  refine applyNext_induction
    (fun after => Sound after.log ∧ after.Grounded inputs) node count
    ⟨hlog, hgrounded⟩ (fun before entry hbefore hentry => ?_)
  obtain ⟨hsound, hplaced⟩ := hbefore
  rw [get?_succ hsound] at hentry
  have hsame : (Node.applyEntry
      { before with lastApplied := before.lastApplied + 1 } entry).log =
      before.log := (lapsed_applyEntry _ entry).log
  exact ⟨hsame.symm ▸ hsound,
    hplaced.applyEntry (numbered hsound _ _ hentry)⟩

omit [StateMachine σ] in
theorem Appends.grounded {commands : List PendingCommand}
    (happends : Appends node commands after)
    (hgrounded : node.Grounded inputs) (hlog : Sound node.log)
    (hle : node.lastApplied ≤ (entries node.log).length)
    (hcommands : ∀ command ∈ commands, ∀ ticket ∈ command.tickets,
      Commanded inputs command.request.session command.request.sequence
        ticket) : after.Grounded inputs := by
  induction happends with
  | done => exact hgrounded
  | @issue node after command commands index log happend _ ih =>
      rw [List.forall_mem_cons] at hcommands
      have hissued : (node.issued command index log).Grounded inputs := by
        refine hgrounded.append hlog hle happend (fun waiter hwaiter => ?_) rfl
          rfl rfl
        obtain ⟨ticket, hticket, rfl⟩ := List.mem_map.mp hwaiter
        exact (hcommands.1 ticket hticket).asks _ _
      obtain ⟨hafter, -, hentries⟩ := append_done (.of_sound hlog) happend
      refine ih hissued hafter.sound ?_ hcommands.2
      change node.lastApplied ≤ (entries log).length
      rw [hentries, List.length_append]
      exact Nat.le_add_right_of_le hle
  | @lose node command commands _ log happend =>
      obtain ⟨-, hentries, -⟩ := append_failed (.of_sound hlog) happend
      have hquiet := quiet_lost { node with log := log } command commands
      have hkept := (congrArg entries hquiet.log).trans hentries
      exact hgrounded.of_eq (releases_lost _ command commands).waiters
        (congrArg Standing.lastApplied hquiet.standing)
        (hkept.symm ▸ List.prefix_rfl)

omit [StateMachine σ] in
/-- Whatever the lane says about a command, whoever comes to wait for an entry
has asked for it. -/
theorem Grounded.admitted (hgrounded : node.Grounded inputs)
    (hlog : Sound node.log)
    (hle : node.lastApplied ≤ (entries node.log).length) {lane after : Lane} {last : Nat}
    {command : PendingCommand} {submission : Submission}
    (hsubmitted : lane.Submitted last command after submission)
    (hinFlight : ∀ sequence index,
      lane.inFlight.get? sequence = some index →
        (sequence, index) ∈ node.desk.backlog command.request.session)
    (hcommand : ∀ ticket ∈ command.tickets, Commanded inputs
      command.request.session command.request.sequence ticket)
    (hdue : ∀ due ∈ submission.due, ∀ ticket ∈ due.tickets,
      Commanded inputs due.request.session due.request.sequence ticket)
    (record : Session) : (node.admitted record submission).Grounded inputs := by
  cases hsubmitted with
  | inFlight _ hindex =>
      have hrow := hinFlight _ _ hindex
      obtain ⟨place, entry, hlt, hentry, hsequence, rfl⟩ :=
        (Desk.mem_backlog_iff (numbered hlog)).mp hrow
      obtain ⟨timestamp, payload, hoperation⟩ :=
        LogEntry.operation_of_sequence? hsequence
      refine hgrounded.await (Nat.lt_succ_of_le hlt) hentry ?_
      intro waiter hwaiter
      obtain ⟨ticket, hticket, rfl⟩ := List.mem_map.mp hwaiter
      rw [hoperation]
      exact (hcommand ticket hticket).asks timestamp payload
  | stale _ _ => exact hgrounded.of_eq rfl rfl List.prefix_rfl
  | held _ => exact hgrounded
  | @ready commands _ _ _ _ =>
      exact (appends_appendReady node _).grounded hgrounded hlog hle hdue

/-- Acts leave nobody waiting for an entry other than the one that stands
there. -/
theorem Act.grounded (hlog : Sound node.log) (hfounded : node.desk.Founded)
    (hle : node.lastApplied ≤ (entries node.log).length)
    (hpresides : node.Presides input) (hdismisses : node.Dismisses)
    (htracked : node.desk.Tracked) (hinput : input ∈ inputs)
    (hholds : ∀ session sequence ticket,
      node.desk.Holds session sequence ticket →
        Commanded inputs session sequence ticket)
    (hgrounded : node.Grounded inputs)
    (hact : Act input node handed demands after) : after.Grounded inputs := by
  cases hact with
  | follow term _ => exact .of_empty (hdismisses.becomeFollower term).1
  | fault _ hentries _ =>
      exact hgrounded.of_eq rfl rfl (hentries ▸ List.prefix_rfl)
  | stand _ _ _ hentries _ =>
      exact hgrounded.of_eq rfl rfl (hentries ▸ List.prefix_rfl)
  | grant _ _ _ hentries _ =>
      exact hgrounded.of_eq rfl rfl (hentries ▸ List.prefix_rfl)
  | count member _ =>
      unfold countVote
      split
      · exact hgrounded
      · exact hgrounded.of_eq rfl rfl List.prefix_rfl
  | @inaugurate index log _ happend =>
      have hrests : Rests node ({ node with log := log }.modifyLeadership
          (fun leadership => { leadership with noopIndex := index })) :=
        rests_append hlog happend rfl rfl rfl
      exact hgrounded.of_eq rfl rfl hrests.log
  | merge _ hrole _ _ _ =>
      have hnone := leadership_eq_none hpresides.leads (by simp [hrole])
      exact .of_empty (hdismisses hnone).1
  | @advance target _ _ =>
      have hcommitted : Grounded inputs { node with commitIndex := target } :=
        hgrounded
      exact (hcommitted.applyNext hlog _).2
  | publish =>
      unfold publishEvents
      split
      · exact hgrounded
      · exact hgrounded.of_eq rfl rfl List.prefix_rfl
  | @submit ticket request record leadership _ submission hcommand _ _ _
      hleadership hsubmit =>
      obtain ⟨lane, rfl, hsubmitted⟩ := Sequencer.submitted_of_submit hsubmit
      have hlanes := desk_lanes hleadership
      have hasked : ∀ taken ∈ [ticket], Commanded inputs request.session
          request.sequence taken := by
        intro taken htaken
        rw [List.mem_singleton.mp htaken]
        exact ⟨request, hcommand ▸ hinput, rfl, rfl⟩
      have hdue := due_commanded hfounded hholds hlanes hsubmitted hasked
      have hsequenced : Grounded inputs (node.sequenced leadership
          (leadership.sequencer.setLane request.session lane)) := hgrounded
      exact hsequenced.admitted hlog hle hsubmitted
        (htracked _ hlanes request.session).inFlight hasked hdue record
  | enter hasks _ _ happend =>
      refine hgrounded.append hlog hle happend (fun waiter hwaiter => ?_) rfl
        rfl rfl
      rw [List.mem_singleton.mp hwaiter]
      exact ⟨input, hinput, hasks⟩
  | acknowledge _ _ =>
      unfold acknowledgeEvents
      split
      · exact hgrounded
      · split <;> exact hgrounded.of_eq rfl rfl List.prefix_rfl
  | retire _ => exact .of_empty (shutdown_dismisses node).2.1
  | _ => exact hgrounded.of_eq rfl rfl List.prefix_rfl

/-- Whoever waits has asked, and waits where an answer will come from. -/
structure Attends (input : Input) (inputs : List Input) (node : Node L σ) :
    Prop where
  sound : Sound node.log
  abreast : node.Abreast
  founded : node.desk.Founded
  tracked : node.desk.Tracked
  presides : node.Presides input
  dismisses : node.Dismisses
  grounded : node.Grounded inputs
  holds : ∀ session sequence ticket,
    node.desk.Holds session sequence ticket →
      Commanded inputs session sequence ticket

/-- Everything that is needed for attending to requests is preserved. -/
theorem Act.attends (hinput : input ∈ inputs)
    (hattends : node.Attends input inputs)
    (hact : Act input node handed demands after) :
    after.Attends input inputs := by
  obtain ⟨hlog, habreast, hfounded, htracked, hpresides, hdismisses,
    hgrounded, hholds⟩ := hattends
  obtain ⟨hafter, hturns⟩ :=
    hact.turnsTo hpresides.leads hfounded habreast hlog
  have hle : node.lastApplied ≤ (entries node.log).length :=
    habreast.applied ▸ habreast.committed
  refine ⟨hafter, (hact.goesOn hlog habreast).abreast,
    hturns.founded hfounded, hturns.tracked hfounded htracked,
    hact.presides hpresides, hact.dismisses hpresides hdismisses,
    hact.grounded hlog hfounded hle hpresides hdismisses htracked hinput
      hholds hgrounded, fun session sequence ticket hheld => ?_⟩
  rcases hact.holds hlog hfounded hheld with
    hearlier | ⟨request, hmem, hrequest⟩
  · exact hholds _ _ _ hearlier
  · exact ⟨request, List.mem_singleton.mp hmem ▸ hinput, hrequest⟩

theorem Acts.attends (hinput : input ∈ inputs)
    (hattends : before.Attends input inputs)
    (hacts : Acts input before handed demands after) :
    after.Attends input inputs := by
  induction hacts with
  | refl => exact hattends
  | tail _ hact ih => exact hact.attends hinput ih

theorem Acts.balanced (hpresides : before.Presides input)
    (hacts : Acts input before handed demands after) :
    Balanced before demands after ∧ after.Presides input := by
  induction hacts with
  | refl => exact ⟨.refl before, hpresides⟩
  | tail _ hact ih =>
      obtain ⟨hbalanced, hmiddle⟩ := ih
      exact ⟨hbalanced.trans (hact.balanced hmiddle.leads),
        hact.presides hmiddle⟩

end Node

end SessionRaft
