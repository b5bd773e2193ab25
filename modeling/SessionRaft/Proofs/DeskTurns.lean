/-
Every step of a node is a chain of turns of its desk.
-/
import SessionRaft.Proofs.DeskElections

namespace SessionRaft

namespace Node

open FaithfulLog

variable {L σ : Type} [LogStore L] [FaithfulLog L]

section Receiving

variable [StateMachine σ] {fails : SessionId → Nat → Prop} {input : Input}
  {node before middle after : Node L σ}

omit [StateMachine σ] in
theorem turnsTo_receptive (node : Node L σ) (request : AppendRequest) :
    TurnsTo fails (.append request) node (node.receptive request) := by
  unfold receptive
  split
  · exact (turnsTo_becomeFollower node (Or.inr rfl)).trans
      (SameDesk.turnsTo ⟨rfl, rfl⟩)
  · exact SameDesk.turnsTo ⟨rfl, rfl⟩

omit [StateMachine σ] in
/-- Whoever takes entries does not lead. -/
theorem receptive_leadership {request : AppendRequest}
    (hled : node.leadership.isSome = true → node.role = .leader) :
    (node.receptive request).leadership = none := by
  unfold receptive
  by_cases hturns : node.term < request.term ∨ node.role ≠ .follower
  · simp only [hturns, ↓reduceIte]
    exact becomeFollower_leadership node request.term
  · simp only [hturns, ↓reduceIte]
    by_contra hsome
    have hrole := hled (Option.isSome_iff_ne_none.mpr hsome)
    exact hturns (Or.inr (by simp [hrole]))

theorem turnsTo_merge {request : AppendRequest} {log : L}
    {outcome : Except ErrorKind Nat} (hterm : request.term = node.term)
    (hrole : node.role = .follower) (hleadership : node.leadership = none)
    (hsettled : node.standing.Settled)
    (hprevious : request.prevLogIndex ≤ LogStore.lastIndex node.log)
    (hjoin : LogStore.termAt node.log request.prevLogIndex =
      request.prevLogTerm)
    (hmerge : Node.merge node.commitIndex node.log request.prevLogIndex
      request.entries = (outcome, log)) :
    TurnsTo fails (.append request) node { node with log := log } := by
  intro hlog
  obtain ⟨hafter, hmoves⟩ :=
    proceeds_merge hterm hrole hprevious hjoin hmerge (Fit.of_sound hlog)
  obtain ⟨happlied, hcommitted⟩ := (hmoves.settled hsettled).1
  rw [lastIndex_eq_length hlog] at hprevious
  obtain ⟨-, -, hspliced, -⟩ :=
    merge_cases (Fit.of_sound hlog) hprevious hmerge
  have hturn : Turn fails (.append request) node.desk
      { node.desk with entries := entries log } :=
    .merge rfl (by simp [desk, hleadership]) (numbered hafter.sound)
      (Nat.le_trans happlied hcommitted) (fun _ => mem_of_spliced hspliced)
  exact ⟨hafter.sound, .single hturn⟩

theorem turnsTo_followCommit (node : Node L σ) (target : Nat) :
    TurnsTo fails input node (node.followCommit target) := by
  unfold followCommit
  split
  · have hcommitted : SameDesk node { node with commitIndex := target } :=
      ⟨rfl, rfl⟩
    exact hcommitted.turnsTo.trans (turnsTo_applyCommitted _)
  · exact .refl node

theorem turnsTo_receive {request : AppendRequest}
    (hterm : request.term = node.term) (hrole : node.role = .follower)
    (hleadership : node.leadership = none)
    (hsettled : node.standing.Settled) :
    TurnsTo fails (.append request) node (node.receive request).2 := by
  unfold receive
  dsimp only
  split
  · exact .refl node
  · rename_i hprevious
    split
    · exact .refl node
    · rename_i hjoin
      have hmerged : ∀ {outcome : Except ErrorKind Nat} {log : L},
          Node.merge node.commitIndex node.log request.prevLogIndex
            request.entries = (outcome, log) →
          TurnsTo fails (.append request) node { node with log := log } :=
        turnsTo_merge hterm hrole hleadership hsettled
          (Nat.le_of_not_lt hprevious) (Decidable.of_not_not hjoin)
      split
      · rename_i kind log hmerge
        exact hmerged hmerge
      · rename_i matched log hmerge
        exact (hmerged hmerge).trans (turnsTo_followCommit _ _)

theorem turnsTo_handleAppend {request : AppendRequest}
    (hled : node.leadership.isSome = true → node.role = .leader)
    (hsettled : node.standing.Settled) :
    TurnsTo fails (.append request) node (node.handleAppend request).2 := by
  rw [handleAppend_eq]
  split
  · exact .refl node
  · rename_i hstale
    obtain ⟨hproceeds, hterm, hrole⟩ : Proceeds False (.append request) node
        (node.receptive request) ∧ _ := receptive_cases hstale
    intro hlog
    have hreceptive := ((hproceeds (Fit.of_sound hlog)).2.settled hsettled).1
    exact (turnsTo_receptive node request).trans
      (turnsTo_receive hterm.symm hrole (receptive_leadership hled)
        hreceptive) hlog

theorem turnsTo_acceptProgress (node : Node L σ) (leadership : Leadership)
    (peer : NodeId) (index : Nat) :
    TurnsTo fails input
      { node with
        leadership := some (Leadership.progress leadership peer
          (max (leadership.matchIndex.getD peer 0)
            (min index (LogStore.lastIndex node.log)))) }
      (node.acceptProgress leadership peer index).2 := by
  unfold acceptProgress
  dsimp only
  split
  · exact (turnsTo_advanceCommit _).trans (turnsTo_sendAppends _ _)
  · exact turnsTo_advanceCommit _

theorem turnsTo_handleAppendResponse {peer : NodeId}
    {response : AppendResponse} {outcome : Bool} {after : Node L σ}
    (happend : node.handleAppendResponse peer response =
      .ok (outcome, after)) :
    TurnsTo fails (.appendResponse peer response) node after := by
  unfold handleAppendResponse at happend
  split at happend
  · obtain ⟨-, rfl⟩ := Prod.mk.inj (Except.ok.inj happend)
    exact .refl node
  · rename_i appended
    split at happend
    · obtain ⟨-, rfl⟩ := Prod.mk.inj (Except.ok.inj happend)
      exact turnsTo_becomeFollower node (Or.inr rfl)
    · split at happend
      · obtain ⟨-, rfl⟩ := Prod.mk.inj (Except.ok.inj happend)
        exact .refl node
      · split at happend
        · obtain ⟨-, rfl⟩ := Prod.mk.inj (Except.ok.inj happend)
          exact .refl node
        · rename_i leadership hleadership
          split at happend
          · obtain ⟨-, rfl⟩ := Prod.mk.inj (Except.ok.inj happend)
            exact .refl node
          · have hnoted : ∀ changed : Leadership,
                changed.sequencer = leadership.sequencer →
                TurnsTo fails (.appendResponse peer (.ok appended)) node
                  { node with leadership := some changed } :=
              fun changed hsequencer => (sameDesk_leadership changed
                hleadership hsequencer).turnsTo
            split at happend
            · obtain ⟨-, rfl⟩ := Prod.mk.inj (Except.ok.inj happend)
              have hprogress := (hnoted _ (by rfl)).trans
                (turnsTo_acceptProgress node
                  (Leadership.acknowledge leadership peer appended.round) peer
                  appended.lastLogIndex)
              exact hprogress.trans (sameDesk_serveQueries _).turnsTo
            · obtain ⟨tried, htried, heq⟩ := exists_of_bind happend
              obtain ⟨-, rfl⟩ := Prod.mk.inj (Except.ok.inj heq)
              rw [acceptRefusal_eq htried]
              refine TurnsTo.trans (hnoted _ ?_) ((turnsTo_sendAppends _ _).trans
                (sameDesk_serveQueries _).turnsTo)
              rfl

end Receiving

section Answers

variable [StateMachine σ] {node : Node L σ}

omit [LogStore L] [FaithfulLog L] [StateMachine σ] in
theorem answers_releaseSession (node : Node L σ) (session : SessionId) :
    node.answers ⊆ (node.releaseSession session).answers := by
  have hforgotten : node.answers ⊆
      (node.forgetCommands session .unknownSession).answers := by
    unfold forgetCommands
    split
    · exact List.Subset.refl _
    · exact List.subset_append_left _ _
  exact List.Subset.trans hforgotten (List.subset_append_left _ _)

omit [LogStore L] [FaithfulLog L] [StateMachine σ] in
theorem answers_releaseSessions (node : Node L σ)
    (sessions : List SessionId) :
    node.answers ⊆ (node.releaseSessions sessions).answers := by
  induction sessions generalizing node with
  | nil => exact List.Subset.refl _
  | cons session sessions ih =>
      exact List.Subset.trans (answers_releaseSession node session) (ih _)

omit [LogStore L] [FaithfulLog L] in
theorem answers_applyEntry (node : Node L σ) (entry : LogEntry) :
    node.answers ⊆ (node.applyEntry entry).answers := by
  have hexpired : node.answers ⊆
      (node.expireBefore entry.operation).answers := by
    unfold expireBefore
    split
    · exact answers_releaseSessions
        { node with executor := node.executor.expire _ } _
    · exact List.Subset.refl _
  have hsettled : ∀ (node : Node L σ) (applied : Applied),
      node.answers ⊆ (node.settle entry.operation applied).answers := by
    intro node applied
    unfold settle
    split
    · exact List.Subset.refl _
    · exact answers_releaseSession node _
    · exact List.Subset.refl _
  have hcompleted : ∀ (node : Node L σ) (applied : Applied),
      node.answers ⊆ (node.complete entry.index applied).answers :=
    fun _ _ => List.subset_append_left _ _
  rw [applyEntry_eq]
  refine List.Subset.trans hexpired (List.Subset.trans ?_ (hcompleted _ _))
  exact hsettled { node.expireBefore entry.operation with
    executor := ((node.expireBefore entry.operation).executor.apply entry).1 } _

omit [FaithfulLog L] in
theorem answers_applyNext (node : Node L σ) (count : Nat) :
    node.answers ⊆ (node.applyNext count).answers :=
  applyNext_induction (fun after => node.answers ⊆ after.answers) node count
    (List.Subset.refl _) (fun before entry hbefore _ =>
      List.Subset.trans hbefore (answers_applyEntry
        { before with lastApplied := before.lastApplied + 1 } entry))

omit [FaithfulLog L] in
theorem answers_replicate (node : Node L σ) :
    node.answers ⊆ node.replicate.answers := by
  have hpublished : ∀ node : Node L σ,
      node.answers ⊆ node.publishEvents.answers := by
    intro node
    unfold publishEvents
    split <;> exact List.Subset.refl _
  have hcommitted : ∀ node : Node L σ,
      node.answers ⊆ node.advanceCommit.2.answers := by
    intro node
    unfold advanceCommit
    split
    · exact List.Subset.refl _
    · rename_i target _
      have happlied := answers_applyNext { node with commitIndex := target }
      exact List.Subset.trans (List.Subset.trans (happlied _)
        (List.subset_append_left _ _)) (hpublished (serveQueries _))
  unfold replicate
  split
  · exact hcommitted node.broadcast
  · exact List.Subset.refl _

end Answers

section Commands

variable [StateMachine σ] {fails : SessionId → Nat → Prop} {input : Input}
  {node after : Node L σ}

omit [LogStore L] [FaithfulLog L] [StateMachine σ] in
/-- Whoever waits for a command that cannot be stored is refused. -/
theorem refused_of_lost {leadership : Leadership}
    (hleadership : node.leadership = some leadership)
    {command : PendingCommand} (hwaited : command.tickets ≠ [])
    (commands : List PendingCommand) :
    (node.lost command commands).Refused := by
  obtain ⟨ticket, hticket⟩ := List.exists_mem_of_ne_nil _ hwaited
  refine ⟨ticket, ?_⟩
  simp only [lost, forgetCommands, failCommands, answerAll, hleadership]
  refine List.mem_append_left _ (List.mem_append_right _ ?_)
  exact List.mem_map_of_mem (List.mem_flatMap_of_mem List.mem_cons_self hticket)

omit [StateMachine σ] in
/-- When a command cannot be stored, the lane of its session is dropped. -/
theorem lost_desk {leadership : Leadership}
    (hleadership : node.leadership = some leadership)
    (command : PendingCommand) (commands : List PendingCommand) :
    (node.lost command commands).desk =
      { node.desk with
        lanes := some (Function.update leadership.sequencer.lane
          command.request.session .empty) } := by
  rw [lost, forgetCommands_desk]
  simp only [desk, failCommands, answerAll, hleadership, Option.map_some]

omit [StateMachine σ] in
theorem issued_desk {leadership : Leadership}
    (hleadership : node.leadership = some leadership)
    {command : PendingCommand} {index : Nat} {log : L}
    (hindex : index = (entries node.log).length + 1)
    (hentries : entries log = entries node.log ++ [⟨node.term,
      (entries node.log).length + 1, .command command.request.session
        command.request.sequence node.now command.request.command⟩]) :
    (node.issued command index log).desk =
      node.desk.issue leadership.sequencer.lane command.request node.now := by
  simp only [desk, issued, await, modifyLeadership, hleadership, hentries,
    hindex, Option.map_some, Sequencer.lane_appended]
  rfl

omit [StateMachine σ] in
/-- Appending commands that are due.  Whoever waits for the first that cannot
be stored is refused. -/
theorem Appends.issues {loses : Prop} {commands : List PendingCommand}
    (happends : Appends node commands after) (hlog : Sound node.log)
    (hleads : node.leadership.isSome = true)
    (hwaited : ∀ command ∈ commands, command.tickets ≠ [])
    (hloses : after.Refused → ¬StoresEntries node.log → loses) :
    Sound after.log ∧ Desk.Issues loses node.desk commands after.desk := by
  induction happends with
  | done => exact ⟨hlog, .done⟩
  | @issue node after command commands index log happend _ ih =>
      obtain ⟨leadership, hleadership⟩ := Option.isSome_iff_exists.mp hleads
      have hwrote : Wrote node.log _ := .append node.term (.command
        command.request.session command.request.sequence node.now
        command.request.command)
      rw [happend] at hwrote
      obtain ⟨hafter, hindex, hentries⟩ :=
        append_done (.of_sound hlog) happend
      have hdesk := issued_desk hleadership hindex hentries
      obtain ⟨hlast, hissues⟩ := ih hafter.sound
        (by simp [issued, await, modifyLeadership, hleadership])
        (fun later hlater => hwaited later (List.mem_cons_of_mem _ hlater))
        (fun hrefused hfailed => hloses hrefused (fun hstores =>
          hfailed (hstores.wrote hwrote)))
      rw [hdesk] at hissues
      exact ⟨hlast, .append node.now (desk_lanes hleadership) hissues⟩
  | @lose node command commands fault log happend =>
      obtain ⟨leadership, hleadership⟩ := Option.isSome_iff_exists.mp hleads
      obtain ⟨hafter, hentries, -⟩ := append_failed (.of_sound hlog) happend
      have hfailed : ¬StoresEntries node.log := by
        intro hstores
        have hok := hstores node.log .refl node.term (.command
          command.request.session command.request.sequence node.now
          command.request.command)
        rw [happend] at hok
        exact Bool.false_ne_true hok
      have hkept : Node.leadership { node with log := log } =
        some leadership := hleadership
      have hrefused := refused_of_lost hkept
        (hwaited command List.mem_cons_self) commands
      have hsame := quiet_lost { node with log := log } command commands
      have hdesk : desk { node with log := log } = node.desk := by
        simp only [desk, hentries]
      rw [lost_desk hkept, hdesk]
      exact ⟨hsame.log.symm ▸ hafter.sound,
        .lose (desk_lanes hleadership) (hloses hrefused hfailed)⟩

/-- Doing what the lane says about a command. -/
theorem issues_follow {loses : Prop} {record : Session}
    {submission : Submission} (hlog : Sound node.log)
    (hleads : node.leadership.isSome = true)
    (hwaited : ∀ due ∈ submission.due, due.tickets ≠ [])
    (hloses : (node.follow record submission).Refused →
      ¬StoresEntries node.log → loses) :
    ∃ issued : Node L σ, Sound issued.log ∧
      Desk.Issues loses node.desk submission.due issued.desk ∧
      TurnsTo fails input issued (node.follow record submission) := by
  cases submission with
  | ready commands =>
      obtain ⟨hready, hissues⟩ := (appends_appendReady node commands).issues
        hlog hleads hwaited (fun hrefused hfailed =>
          hloses (hrefused.imp (fun _ hmem =>
            answers_replicate (node.appendReady commands) hmem)) hfailed)
      exact ⟨_, hready, hissues, turnsTo_replicate _⟩
  | held => exact ⟨node, hlog, .done, .refl node⟩
  | inFlight index command =>
      exact ⟨node, hlog, .done, SameDesk.turnsTo ⟨rfl, rfl⟩⟩
  | stale command =>
      exact ⟨node, hlog, .done, SameDesk.turnsTo ⟨rfl, rfl⟩⟩

theorem turnsTo_submitCommand {ticket : Ticket} {request : CommandRequest}
    (hfounded : node.desk.Founded)
    (hsubmit : node.submitCommand ticket request = .ok after)
    (hfails : after.Refused → ¬StoresEntries node.log →
      fails request.session node.term) :
    TurnsTo fails input node after := by
  have hanswered : ∀ response, Except.ok (node.answer ticket
      (.command response)) = (.ok after : Except Overflow (Node L σ)) →
      TurnsTo fails input node after := by
    intro response heq
    rw [← Except.ok.inj heq]
    exact SameDesk.turnsTo ⟨rfl, rfl⟩
  unfold submitCommand at hsubmit
  split at hsubmit
  · exact hanswered _ hsubmit
  · split at hsubmit
    · exact hanswered _ hsubmit
    · rename_i record hrecord
      split at hsubmit
      · exact hanswered _ hsubmit
      · split at hsubmit
        · exact hanswered _ hsubmit
        · rename_i leadership hleadership
          obtain ⟨⟨_, submission⟩, hsequencer, heq⟩ := exists_of_bind hsubmit
          obtain rfl := Except.ok.inj heq
          obtain ⟨lane, rfl, hsubmitted⟩ :=
            Sequencer.submitted_of_submit hsequencer
          have hlanes := desk_lanes hleadership
          have hwaited := (hfounded.kept _ hlanes _).due_waited rfl
            (List.cons_ne_nil _ _) hsubmitted
          intro hsound
          obtain ⟨issued, hissued, hissues, hrest⟩ := @issues_follow _ _ _ _ _
            fails input { node with
              leadership := some { leadership with
                sequencer := leadership.sequencer.setLane request.session
                  lane } } _ _ _ hsound rfl hwaited hfails
          simp only [desk, Option.map_some, Sequencer.lane_setLane] at hissues
          obtain ⟨hlast, hturns⟩ := hrest hissued
          exact ⟨hlast, .head (.submit hlanes (desk_marks hrecord)
            (List.cons_ne_nil _ _) hsubmitted hissues) hturns⟩

end Commands

section Stepping

variable [StateMachine σ] {fails : SessionId → Nat → Prop} {input : Input}
  {node after : Node L σ}

omit [StateMachine σ] in
theorem sameDesk_acknowledgeEvents (node : Node L σ) (session : SessionId)
    (sequence : Int) :
    SameDesk node (node.acknowledgeEvents session sequence) := by
  unfold acknowledgeEvents
  split
  · exact .refl node
  · rename_i record _
    split
    · refine ⟨rfl, ?_⟩
      simp only [desk, modifySessions]
      rw [SessionTable.marks_update _ _ (fun record =>
        (Session.keeps_acknowledge record sequence).sequence)]
    · exact sameDesk_modifyLeadership node (f := fun leadership =>
        { leadership with publisher :=
            leadership.publisher.resendFrom session record.eventAck })
        (fun _ => rfl)

theorem turnsTo_enqueue (node : Node L σ) (query : PendingQuery) :
    TurnsTo fails input node (node.enqueue query) := by
  have hwaiting : SameDesk node
      { node with queries := node.queries ++ [query] } := ⟨rfl, rfl⟩
  unfold enqueue
  dsimp only
  split
  · exact (hwaiting.trans (sameDesk_serveQueries _)).turnsTo
  · exact (hwaiting.turnsTo.trans (turnsTo_replicate _)).trans
      (sameDesk_serveQueries _).turnsTo

theorem turnsTo_submitQuery (node : Node L σ) (ticket : Ticket)
    (request : QueryRequest) :
    TurnsTo fails input node (node.submitQuery ticket request) := by
  unfold submitQuery
  split
  · exact turnsTo_enqueue node _
  · exact SameDesk.turnsTo ⟨rfl, rfl⟩
  · exact turnsTo_enqueue node _

omit [StateMachine σ] in
theorem turnsTo_appendOperation {waiter : Waiter} {operation : Operation}
    {next : Node L σ → Node L σ}
    (hnone : ∀ term index session,
      LogEntry.sequence? session ⟨term, index, operation⟩ = none)
    (hnext : ∀ node, TurnsTo fails input node (next node)) :
    TurnsTo fails input node (node.appendOperation waiter operation next) := by
  unfold appendOperation
  split
  · exact SameDesk.turnsTo ⟨rfl, rfl⟩
  · split
    · rename_i fault log happend
      exact (turnsTo_append hnone happend).trans (SameDesk.turnsTo ⟨rfl, rfl⟩)
    · rename_i index log happend
      have hawaits : SameDesk { node with log := log }
          (await { node with log := log } index [waiter]) := ⟨rfl, rfl⟩
      exact ((turnsTo_append hnone happend).trans hawaits.turnsTo).trans
        (hnext _)

theorem turnsTo_submitKeepAlive (node : Node L σ) (ticket : Ticket)
    (request : KeepAliveRequest) :
    TurnsTo fails input node (node.submitKeepAlive ticket request) := by
  unfold submitKeepAlive
  dsimp only
  split
  · exact SameDesk.turnsTo ⟨rfl, rfl⟩
  · exact turnsTo_appendOperation (fun _ _ _ => rfl) (fun node =>
      ((sameDesk_acknowledgeEvents node _ _).turnsTo.trans
        (turnsTo_replicate _)).trans (sameDesk_publishEvents _).turnsTo)

theorem turnsTo_submitUnregister (node : Node L σ) (ticket : Ticket)
    (request : UnregisterRequest) :
    TurnsTo fails input node (node.submitUnregister ticket request) := by
  unfold submitUnregister
  split
  · exact SameDesk.turnsTo ⟨rfl, rfl⟩
  · exact turnsTo_appendOperation (fun _ _ _ => rfl) turnsTo_replicate

omit [StateMachine σ] in
theorem turnsTo_publish (node : Node L σ) (request : PublishRequest) :
    TurnsTo fails input node (node.publish request).2 := by
  unfold publish
  split
  · exact .refl node
  · dsimp only
    split
    · exact .refl node
    · exact ((sameDesk_acknowledgeEvents node _ _).trans
        (sameDesk_publishEvents _)).turnsTo

/-- A step is a chain of turns. -/
theorem step_turnsTo {output : Output}
    (hstep : node.step input = .ok (output, after))
    (hfounded : node.desk.Founded) (hsettled : node.standing.Settled)
    (hled : node.leadership.isSome = true → node.role = .leader)
    (hfails : ∀ ticket request, input = .command ticket request →
      after.Refused → ¬StoresEntries node.log →
        fails request.session node.term) :
    TurnsTo fails input node after := by
  cases stepsTo hstep with
  | clock now => exact SameDesk.turnsTo ⟨rfl, rfl⟩
  | electionTimeout hstart => exact turnsTo_startElection hstart
  | heartbeat => exact turnsTo_replicate node
  | @vote request _ _ _ hvote =>
      obtain rfl : (node.handleVote request).2 = after := congrArg Prod.snd hvote
      exact turnsTo_handleVote node request
  | @voteResponse sender response _ _ hheeded =>
      obtain rfl : (node.handleVoteResponse sender response).2 = after :=
        congrArg Prod.snd hheeded
      exact turnsTo_handleVoteResponse node sender response
  | @append request _ _ _ happend =>
      obtain rfl : (node.handleAppend request).2 = after :=
        congrArg Prod.snd happend
      exact turnsTo_handleAppend hled hsettled
  | appendResponse hheeded => exact turnsTo_handleAppendResponse hheeded
  | @command ticket request _ hsubmit =>
      exact turnsTo_submitCommand hfounded hsubmit (hfails ticket request rfl)
  | query ticket request => exact turnsTo_submitQuery node ticket request
  | register _ _ =>
      exact turnsTo_appendOperation (fun _ _ _ => rfl) turnsTo_replicate
  | keepAlive ticket request =>
      exact turnsTo_submitKeepAlive node ticket request
  | unregister ticket request =>
      exact turnsTo_submitUnregister node ticket request
  | publish request => exact turnsTo_publish node request
  | shutdown => exact turnsTo_shutdown node

end Stepping

end Node

end SessionRaft
