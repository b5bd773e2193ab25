/-
The desk of a node, what leaves it alone, and the turns of committing: whatever
is applied closes sessions, raises their marks and settles their lanes.
-/
import SessionRaft.Proofs.Desk
import SessionRaft.Proofs.Sessions

namespace SessionRaft

/-- The entries that a message carries. -/
def Outbound.entries : Outbound → List LogEntry
  | .append _ request => request.entries
  | _ => []

theorem Outbound.entries_of_isMail_eq_false {message : Outbound}
    (hmail : message.isMail = false) : message.entries = [] := by
  cases message with
  | append receiver request => simp [isMail] at hmail
  | _ => rfl

/-- A log that stores every entry, whatever else is written to it. -/
def StoresEntries {L : Type} [LogStore L] (log : L) : Prop :=
  ∀ later, Relation.ReflTransGen Wrote log later → ∀ term operation,
    (LogStore.append later term operation).1.isOk = true

theorem StoresEntries.wrote {L : Type} [LogStore L] {log after : L}
    (hstores : StoresEntries log) (hwrote : Wrote log after) :
    StoresEntries after :=
  fun later hlater => hstores later (.head hwrote hlater)

namespace SessionTable

/-- The highest command sequence that an open session has applied. -/
def marks (table : SessionTable) (session : SessionId) : Option Nat :=
  (table.get? session).map Session.commandSequence

theorem marks_update (table : SessionTable) (id : SessionId)
    {f : Session → Session}
    (hf : ∀ session, (f session).commandSequence = session.commandSequence) :
    (table.update id f).marks = table.marks := by
  funext session
  rw [marks, get?_update]
  split
  · rw [Option.map_map, marks]
    congr 1
    funext record
    exact hf record
  · rfl

theorem marks_publish (table : SessionTable) (id : SessionId)
    (payload : Bytes) : (table.publish id payload).1.marks = table.marks := by
  unfold publish
  split
  · rfl
  · rename_i record hrecord
    funext session
    simp only [marks, get?, Table.get?_insert]
    split
    · rename_i heq
      subst heq
      rw [get?] at hrecord
      rw [hrecord]
      rfl
    · rfl

theorem marks_expire (table : SessionTable) (now : Nat) :
    (table.expire now).marks = fun session =>
      if session ∈ table.expired now then none else table.marks session := by
  funext session
  have hexpired : session ∈ table.expired now ↔ ∃ record,
      table.get? session = some record ∧ record.isExpired now = true := by
    simp only [expired, Table.keys, List.mem_map, Prod.exists,
      exists_and_right, exists_eq_right, ← Table.get?_eq_some_iff,
      Table.get?_filter, Option.filter_eq_some_iff, get?]
  simp only [marks, expire, get?, Table.get?_filter] at hexpired ⊢
  cases hrecord : table.sessions.get? session with
  | none => simp
  | some record =>
      by_cases hlapsed : record.isExpired now = true <;>
        simp [hexpired, hrecord, hlapsed, Option.filter]

theorem marks_register (table : SessionTable) (record : Session) :
    (table.register record).marks = fun session =>
      if session = record.id then some record.commandSequence
      else table.marks session := by
  funext session
  rw [marks, get?_register]
  split <;> rfl

theorem marks_remove (table : SessionTable) (id : SessionId) :
    (table.remove id).marks = fun session =>
      if session = id then none else table.marks session := by
  funext session
  simp only [marks, remove, get?, Table.get?_erase]
  split <;> rfl

end SessionTable

namespace Executor

variable {σ : Type} [StateMachine σ]

theorem marks_publishAll (table : SessionTable)
    (events : List (SessionId × Bytes)) :
    (publishAll table events).marks = table.marks := by
  induction events generalizing table with
  | nil => rfl
  | cons event events ih =>
      exact (ih _).trans (table.marks_publish event.1 event.2)

/-- Running a command raises the mark of its session. -/
theorem marks_run (executor : Executor σ) (commit : Commit) :
    (executor.run commit).1.sessions.marks = fun session =>
      if session = commit.session
      then (executor.sessions.marks session).map (max · commit.sequence)
      else executor.sessions.marks session := by
  have hkept : ∀ events : List (SessionId × Bytes),
      (publishAll (executor.sessions.update commit.session
        (·.touch commit.timestamp)) events).marks = executor.sessions.marks :=
    fun events => (marks_publishAll _ events).trans
      (SessionTable.marks_update _ _ (fun _ => rfl))
  funext session
  simp only [run, SessionTable.marks, SessionTable.get?_update]
  split
  · rw [Option.map_map]
    have hsession := congrFun (hkept
      (StateMachine.apply executor.machine commit).events) session
    simp only [SessionTable.marks] at hsession
    rw [← hsession, Option.map_map]
    rfl
  · exact congrFun (hkept _) session

theorem marks_applyCommand (executor : Executor σ) (commit : Commit) :
    (executor.applyCommand commit).1.sessions.marks = fun session =>
      if session = commit.session
      then (executor.sessions.marks session).map (max · commit.sequence)
      else executor.sessions.marks session := by
  unfold applyCommand
  split
  · rename_i hnone
    funext session
    split
    · rename_i heq
      subst heq
      simp [SessionTable.marks, hnone]
    · rfl
  · rename_i record hrecord
    split
    · rename_i hle
      funext session
      split
      · rename_i heq
        subst heq
        simp [SessionTable.marks, hrecord, Nat.max_eq_left hle]
      · rfl
    · exact marks_run executor commit

omit [StateMachine σ] in
theorem marks_keepAlive (executor : Executor σ) (id : SessionId)
    (commandSequence : Nat) (eventSequence : Int) (timestamp : Nat) :
    (executor.keepAlive id commandSequence eventSequence
      timestamp).1.sessions.marks = executor.sessions.marks := by
  unfold keepAlive
  split
  · exact SessionTable.marks_update _ _ (fun record =>
      (Session.keeps_acknowledge _ _).sequence)
  · rfl

end Executor

namespace Desk

variable (desk : Desk)

@[simp] theorem close_nil : desk.close [] = desk := by
  simp only [Desk.close, List.not_mem_nil, ↓reduceIte]
  cases hlanes : desk.lanes <;> simp [← hlanes]

/-- Committing an entry that opens no session and holds no command. -/
theorem commit_of_none {entry : LogEntry}
    (hnone : ∀ session, LogEntry.sequence? session entry = none)
    (hregister : entry.isRegister = false) :
    desk.commit entry = { desk with applied := desk.applied + 1 } := by
  simp [Desk.commit, hnone, hregister, Lane.settle]

/-- Committing a command raises the mark of its session and takes it from the
commands in flight. -/
theorem commit_command (term index : Nat) (session : SessionId)
    (sequence timestamp : Nat) (payload : Bytes) :
    desk.commit
        ⟨term, index, .command session sequence timestamp payload⟩ =
      { desk with
        applied := desk.applied + 1
        marks := fun other =>
          if other = session then (desk.marks other).map (max · sequence)
          else desk.marks other
        lanes := desk.lanes.map (fun lanes =>
          Function.update lanes session { lanes session with
            inFlight := (lanes session).inFlight.erase sequence }) } := by
  simp only [Desk.commit, LogEntry.isRegister, LogEntry.sequence?,
    Bool.false_eq_true, false_and, ↓reduceIte]
  congr 1
  · funext other
    by_cases heq : other = session
    · simp [heq]
    · simp [heq, Ne.symm heq]
  · congr 1
    funext lanes other
    rw [Function.update_apply]
    by_cases heq : other = session
    · subst heq
      simp [Lane.settle]
    · simp [heq, Ne.symm heq, Lane.settle]

end Desk

namespace Node

open FaithfulLog

variable {L σ : Type} [LogStore L] [FaithfulLog L]

def desk (node : Node L σ) : Desk where
  term := node.term
  entries := entries node.log
  applied := node.lastApplied
  marks := node.executor.sessions.marks
  lanes := node.leadership.map (fun leadership => leadership.sequencer.lane)
  posted := node.outbox.flatMap Outbound.entries

theorem desk_lanes {node : Node L σ} {leadership : Leadership}
    (hleadership : node.leadership = some leadership) :
    node.desk.lanes = some leadership.sequencer.lane := by
  simp only [desk, hleadership, Option.map_some]

theorem desk_marks {node : Node L σ} {session : SessionId} {record : Session}
    (hrecord : node.executor.sessions.get? session = some record) :
    node.desk.marks session = some record.commandSequence := by
  simp only [desk, SessionTable.marks, hrecord, Option.map_some]

/-- A command was refused because it could not be stored. -/
def Refused (node : Node L σ) : Prop :=
  ∃ ticket, (ticket, .command (.error .internalError)) ∈ node.answers

/-- The desk is left alone. -/
structure SameDesk (before after : Node L σ) : Prop where
  log : after.log = before.log
  desk : after.desk = before.desk

/-- A chain of turns leads from the desk of one node to that of the other. -/
def TurnsTo (fails : SessionId → Nat → Prop) (input : Input)
    (before after : Node L σ) : Prop :=
  Sound before.log →
    Sound after.log ∧ Turns fails input before.desk after.desk

section Committing

variable {fails : SessionId → Nat → Prop} {input : Input}
  {node before middle after : Node L σ}

theorem SameDesk.refl (node : Node L σ) : SameDesk node node := ⟨rfl, rfl⟩

theorem SameDesk.trans (hfirst : SameDesk before middle)
    (hsecond : SameDesk middle after) : SameDesk before after :=
  ⟨hsecond.log.trans hfirst.log, hsecond.desk.trans hfirst.desk⟩

theorem TurnsTo.refl (node : Node L σ) : TurnsTo fails input node node :=
  fun hlog => ⟨hlog, .refl⟩

theorem TurnsTo.trans (hfirst : TurnsTo fails input before middle)
    (hsecond : TurnsTo fails input middle after) :
    TurnsTo fails input before after := by
  intro hlog
  obtain ⟨hmiddle, hturns⟩ := hfirst hlog
  obtain ⟨hafter, hmore⟩ := hsecond hmiddle
  exact ⟨hafter, hturns.trans hmore⟩

theorem SameDesk.turnsTo (hsame : SameDesk before after) :
    TurnsTo fails input before after := by
  intro hlog
  rw [hsame.desk]
  exact ⟨hsame.log ▸ hlog, .refl⟩

/-- One turn, if the log is not touched. -/
theorem turnsTo_of_turn (hlog : after.log = before.log)
    (hturn : Sound before.log → Turn fails input before.desk after.desk) :
    TurnsTo fails input before after :=
  fun hsound => ⟨hlog ▸ hsound, .single (hturn hsound)⟩

theorem sameDesk_leadership {leadership : Leadership} (changed : Leadership)
    (hleadership : node.leadership = some leadership)
    (hsequencer : changed.sequencer = leadership.sequencer) :
    SameDesk node { node with leadership := some changed } := by
  refine ⟨rfl, ?_⟩
  simp only [desk, hleadership, Option.map_some, hsequencer]

theorem sameDesk_modifyLeadership (node : Node L σ)
    {f : Leadership → Leadership}
    (hsequencer : ∀ leadership, (f leadership).sequencer = leadership.sequencer) :
    SameDesk node (node.modifyLeadership f) := by
  refine ⟨rfl, ?_⟩
  simp only [desk, modifyLeadership, Option.map_map]
  congr 2
  funext leadership
  exact congrArg Sequencer.lane (hsequencer leadership)

theorem sameDesk_publishEvents (node : Node L σ) :
    SameDesk node node.publishEvents := by
  unfold publishEvents
  split
  · exact .refl node
  · rename_i leadership hleadership
    refine (sameDesk_leadership { leadership with
      publisher := (leadership.publisher.publish
        node.executor.sessions).1 } hleadership rfl).trans ⟨rfl, ?_⟩
    have hposted : (leadership.publisher.publish
        node.executor.sessions).2.flatMap Outbound.entries = [] := by
      rw [List.flatMap_eq_nil_iff]
      intro message hmessage
      exact Outbound.entries_of_isMail_eq_false
        (Publisher.publishAll_isMail _ _ message hmessage)
    simp only [desk, send, List.flatMap_append, hposted, List.append_nil]

theorem sameDesk_failQueries (node : Node L σ) (fails : PendingQuery → Bool)
    (kind : ErrorKind) : SameDesk node (node.failQueries fails kind) :=
  ⟨rfl, rfl⟩

theorem turnsTo_sendAppends (node : Node L σ) (peers : List NodeId) :
    TurnsTo fails input node (node.sendAppends peers) := by
  intro hlog
  refine ⟨hlog, .single ?_⟩
  have hposted : (node.sendAppends peers).desk = { node.desk with
      posted := node.desk.posted ++ (peers.filterMap (fun peer =>
        (node.createAppend? peer).map (Outbound.append peer))).flatMap
          Outbound.entries } := by
    simp only [desk, sendAppends, send, List.flatMap_append]
  rw [hposted]
  refine .post (fun entry hentry => ?_)
  obtain ⟨message, hmessage, hcarried⟩ := List.mem_flatMap.mp hentry
  obtain ⟨peer, -, hcreated⟩ := List.mem_filterMap.mp hmessage
  rw [createAppend?_eq hlog, Option.map_map, Option.map_eq_some_iff] at hcreated
  obtain ⟨leadership, -, rfl⟩ := hcreated
  exact List.mem_of_mem_drop (List.mem_of_mem_take hcarried)

theorem forgetCommands_desk (node : Node L σ) (session : SessionId)
    (kind : ErrorKind) :
    (node.forgetCommands session kind).desk = { node.desk with
      lanes := node.desk.lanes.map (fun lanes =>
        Function.update lanes session .empty) } := by
  unfold forgetCommands
  cases hleadership : node.leadership with
  | none => simp only [desk, hleadership, Option.map_none]
  | some leadership =>
      simp only [desk, hleadership, failCommands, answerAll, Option.map_some,
        Sequencer.lane_forget]

theorem releaseSession_desk (node : Node L σ) (session : SessionId) :
    (node.releaseSession session).desk = { node.desk with
      lanes := node.desk.lanes.map (fun lanes =>
        Function.update lanes session .empty) } := by
  unfold releaseSession
  have hpublisher := sameDesk_modifyLeadership
    (node.forgetCommands session .unknownSession)
    (f := fun leadership => { leadership with
      publisher := leadership.publisher.forget session }) (fun _ => rfl)
  rw [(sameDesk_failQueries _ _ _).desk, hpublisher.desk, forgetCommands_desk]

theorem releaseSessions_desk (node : Node L σ) (sessions : List SessionId) :
    (node.releaseSessions sessions).desk = { node.desk with
      lanes := node.desk.lanes.map (fun lanes session =>
        if session ∈ sessions then .empty else lanes session) } := by
  induction sessions generalizing node with
  | nil =>
      simp only [releaseSessions, List.not_mem_nil, ↓reduceIte,
        Option.map_id_fun', id_eq]
  | cons first sessions ih =>
      rw [releaseSessions, ih, releaseSession_desk]
      simp only [Option.map_map]
      congr 2
      funext lanes session
      simp only [Function.comp_apply, Function.update_apply, List.mem_cons]
      by_cases hfirst : session = first <;> simp [hfirst]

/-- The sessions that an operation's timestamp closes. -/
def expiredBefore (node : Node L σ) (operation : Operation) :
    List SessionId :=
  match operation.timestamp? with
  | some timestamp => node.executor.sessions.expired timestamp
  | none => []

theorem expireBefore_desk (node : Node L σ) (operation : Operation) :
    (node.expireBefore operation).desk =
      node.desk.close (node.expiredBefore operation) := by
  unfold expireBefore expiredBefore
  cases operation.timestamp? with
  | none => exact (node.desk.close_nil).symm
  | some timestamp =>
      simp only [expireSessions, releaseSessions_desk]
      simp only [desk, Desk.close, Executor.expire, SessionTable.marks_expire]

theorem isSome_of_mem_expiredBefore (node : Node L σ) (operation : Operation) :
    ∀ session ∈ node.expiredBefore operation,
      (node.desk.marks session).isSome = true := by
  intro session hmem
  unfold expiredBefore at hmem
  split at hmem
  · simp only [SessionTable.expired, Table.keys, List.mem_map] at hmem
    obtain ⟨⟨_, record⟩, hrow, rfl⟩ := hmem
    rw [← Table.get?_eq_some_iff, Table.get?_filter,
      Option.filter_eq_some_iff] at hrow
    simp only [desk, SessionTable.marks, SessionTable.get?, hrow.1,
      Option.map_some, Option.isSome_some]
  · simp at hmem

variable [StateMachine σ]

/-- Settling a command that was applied. -/
theorem settle_command_desk (node : Node L σ) (commit : Commit) :
    (settle { node with executor := (node.executor.applyCommand commit).1 }
        (.command commit.session commit.sequence commit.timestamp
          commit.operation)
        (.command commit.session commit.sequence
          (node.executor.applyCommand commit).2)).desk =
      { node.desk with
        marks := fun other =>
          if other = commit.session
          then (node.desk.marks other).map (max · commit.sequence)
          else node.desk.marks other
        lanes := node.desk.lanes.map (fun lanes =>
          Function.update lanes commit.session { lanes commit.session with
            inFlight :=
              (lanes commit.session).inFlight.erase commit.sequence }) } := by
  simp only [settle, modifyLeadership, Node.desk, Executor.marks_applyCommand,
    Option.map_map]
  congr 2
  funext leadership
  exact Sequencer.lane_applied _ _ _

omit [StateMachine σ] in
/-- Removing a session and what a leader keeps of it closes the session. -/
theorem remove_desk (node : Node L σ) (session : SessionId) :
    (releaseSession { node with executor := { node.executor with
        sessions := node.executor.sessions.remove session } } session).desk =
      node.desk.close [session] := by
  refine (releaseSession_desk _ session).trans ?_
  simp only [Node.desk, Desk.close, SessionTable.marks_remove,
    List.mem_singleton]
  congr 2
  funext lanes other
  exact Function.update_apply lanes session .empty other

/-- Settling what was applied leaves the desk at which the entry is
committed, but that an unregistration closes its session as well. -/
theorem settle_desk (node : Node L σ) {entry : LogEntry} {desk : Desk}
    (hdesk : node.desk = { desk with applied := desk.applied + 1 }) :
    ∃ closed, (∀ session ∈ closed,
        ((desk.commit entry).marks session).isSome = true) ∧
      (settle { node with executor := (node.executor.apply entry).1 }
        entry.operation (node.executor.apply entry).2).desk =
        (desk.commit entry).close closed := by
  obtain ⟨term, index, operation⟩ := entry
  cases operation with
  | noOp =>
      refine ⟨[], by simp, ?_⟩
      rw [Desk.close_nil, desk.commit_of_none (fun _ => rfl) rfl, ← hdesk]
      rfl
  | register client timeout timestamp =>
      have hregistered : ({ node with executor := { node.executor with
          sessions := node.executor.sessions.register
            (.start index client timeout timestamp) } } : Node L σ).desk =
          { node.desk with marks := fun session =>
              if session = index then some 0 else node.desk.marks session } := by
        simp only [Node.desk, SessionTable.marks_register]
        rfl
      refine ⟨[], by simp, ?_⟩
      rw [Desk.close_nil]
      refine Eq.trans hregistered ?_
      simp [hdesk, Desk.commit, LogEntry.isRegister, LogEntry.sequence?,
        Lane.settle]
  | keepAlive session commandSequence eventSequence timestamp =>
      refine ⟨[], by simp, ?_⟩
      rw [Desk.close_nil, desk.commit_of_none (fun _ => rfl) rfl, ← hdesk]
      simp only [Executor.apply, settle, Node.desk, Executor.marks_keepAlive]
  | unregister session timestamp =>
      rw [desk.commit_of_none (fun _ => rfl) rfl, ← hdesk]
      simp only [Executor.apply, Executor.unregister]
      by_cases hopen : node.executor.sessions.contains session = true
      · refine ⟨[session], ?_, ?_⟩
        · simp only [List.mem_singleton, forall_eq, Node.desk,
            SessionTable.marks, Option.isSome_map]
          exact hopen
        · rw [if_pos hopen]
          exact remove_desk node session
      · refine ⟨[], by simp, ?_⟩
        rw [if_neg hopen, Desk.close_nil]
        rfl
  | command session sequence timestamp payload =>
      refine ⟨[], by simp, ?_⟩
      rw [Desk.close_nil, desk.commit_command]
      refine (settle_command_desk node
        ⟨index, session, sequence, timestamp, payload⟩).trans ?_
      simp only [hdesk]

/-- Applying an entry closes what its timestamp closes, commits it, and closes
what it unregisters. -/
theorem applyEntry_desk (node : Node L σ) (entry : LogEntry) :
    ∃ closed,
      (∀ session ∈ closed,
        (((node.desk.close (node.expiredBefore entry.operation)).commit
          entry).marks session).isSome = true) ∧
      (applyEntry { node with lastApplied := node.lastApplied + 1 }
        entry).desk =
        ((node.desk.close (node.expiredBefore entry.operation)).commit
          entry).close closed := by
  have hexpired := expireBefore_desk
    { node with lastApplied := node.lastApplied + 1 } entry.operation
  rw [applyEntry_eq]
  -- Completing an entry gives answers, which are no part of the desk.
  exact settle_desk _ hexpired

theorem turnsTo_applyEntry {entry : LogEntry}
    (hentry : LogStore.get? node.log (node.lastApplied + 1) = some entry) :
    TurnsTo fails input node
      (applyEntry { node with lastApplied := node.lastApplied + 1 } entry) := by
  intro hlog
  have hsame : (applyEntry { node with lastApplied := node.lastApplied + 1 }
      entry).log = node.log := (lapsed_applyEntry _ entry).log
  obtain ⟨closed, hopen, hdesk⟩ := applyEntry_desk node entry
  rw [hsame, hdesk]
  have hclose : Turn fails input node.desk
      (node.desk.close (node.expiredBefore entry.operation)) :=
    .close (node.isSome_of_mem_expiredBefore entry.operation)
  have hcommit : Turn fails input
      (node.desk.close (node.expiredBefore entry.operation))
      ((node.desk.close (node.expiredBefore entry.operation)).commit entry) :=
    .commit (get?_succ hlog node.lastApplied ▸ hentry)
  exact ⟨hlog, .tail (.tail (.single hclose) hcommit) (.close hopen)⟩

theorem turnsTo_applyNext (node : Node L σ) (count : Nat) :
    TurnsTo fails input node (node.applyNext count) :=
  applyNext_induction (TurnsTo fails input node) node count (.refl node)
    (fun _ _ hbefore hentry => hbefore.trans (turnsTo_applyEntry hentry))

theorem sameDesk_serveQueries (node : Node L σ) :
    SameDesk node node.serveQueries := ⟨rfl, rfl⟩

theorem turnsTo_applyCommitted (node : Node L σ) :
    TurnsTo fails input node node.applyCommitted :=
  (turnsTo_applyNext node _).trans
    ((sameDesk_serveQueries _).trans (sameDesk_publishEvents _)).turnsTo

theorem turnsTo_advanceCommit (node : Node L σ) :
    TurnsTo fails input node node.advanceCommit.2 := by
  unfold advanceCommit
  split
  · exact .refl node
  · rename_i target _
    have hcommitted : SameDesk node { node with commitIndex := target } :=
      ⟨rfl, rfl⟩
    exact hcommitted.turnsTo.trans (turnsTo_applyCommitted _)

theorem turnsTo_replicate (node : Node L σ) :
    TurnsTo fails input node node.replicate := by
  unfold replicate
  split
  · have hround := sameDesk_modifyLeadership node
      (f := fun leadership => { leadership with
        round := leadership.round + 1 }) (fun _ => rfl)
    exact (hround.turnsTo.trans (turnsTo_sendAppends _ _)).trans
      (turnsTo_advanceCommit _)
  · exact .refl node

end Committing

end Node

end SessionRaft
