/-
Committing in several strides.  Applying entries leaves the frame of a node
alone and works on its account: the executor, and what those who wait for
entries are told.  Between two strides queries are served and events are sent,
but the account does not depend on it: a node that commits up to some index and
then further ends as one that goes all the way at once.
-/
import SessionRaft.Proofs.CommitMoves

namespace SessionRaft

def Answer.isQuery : Answer → Bool
  | .query _ => true
  | _ => false

/-- What applying entries leaves alone, apart from the index of the last one. -/
structure Frame (L : Type) where
  id : NodeId
  members : List NodeId
  config : Config
  role : Role
  term : Nat
  votedFor : Option NodeId
  leader : Option NodeId
  votes : List NodeId
  commitIndex : Nat
  lastApplied : Nat
  log : L
  /-- What of a leadership concerns the copying of the log. -/
  leadership : Option Leadership
  now : Nat

/-- What applying entries reads and changes, apart from the log, the queries
that wait and the events that are sent. -/
structure Account (σ : Type) where
  id : NodeId
  members : List NodeId
  leader : Option NodeId
  lastApplied : Nat
  executor : Executor σ
  waiters : Table (List Waiter)
  sequencer : Option Sequencer
  /-- The answers to others than queries that nobody has taken yet. -/
  replies : List (Ticket × Answer)

namespace Node

/-! ### What applying leaves alone -/

section Framing

variable {L σ : Type}

/-- The frame of a node. -/
def frame (node : Node L σ) : Frame L where
  id := node.id
  members := node.members
  config := node.config
  role := node.role
  term := node.term
  votedFor := node.votedFor
  leader := node.leader
  votes := node.votes
  commitIndex := node.commitIndex
  lastApplied := node.lastApplied
  log := node.log
  leadership := node.leadership.map Leadership.bare
  now := node.now

/-- The node with another log. -/
def withLog (node : Node L σ) (log : L) : Node L σ :=
  { node with log := log }

theorem withLog_frame (node : Node L σ) (log : L) :
    (node.withLog log).frame = { node.frame with log := log } := rfl

theorem withLog_commitIndex (node : Node L σ) (log : L) :
    (node.withLog log).commitIndex = node.commitIndex := rfl

theorem forgetCommands_frame (node : Node L σ) (session : SessionId)
    (kind : ErrorKind) :
    (node.forgetCommands session kind).frame = node.frame := by
  unfold forgetCommands
  cases hleadership : node.leadership with
  | none => rfl
  | some leadership =>
      simp only [frame, failCommands, answerAll, hleadership, Option.map_some]
      rfl

theorem modifyLeadership_frame (node : Node L σ)
    {f : Leadership → Leadership}
    (hbare : ∀ leadership, (f leadership).bare = leadership.bare) :
    (node.modifyLeadership f).frame = node.frame := by
  simp only [frame, modifyLeadership, Option.map_map]
  congr 2
  funext leadership
  exact hbare leadership

theorem releaseSession_frame (node : Node L σ) (session : SessionId) :
    (node.releaseSession session).frame = node.frame :=
  (modifyLeadership_frame (node.forgetCommands session .unknownSession)
    (f := fun leadership =>
      { leadership with publisher := leadership.publisher.forget session })
    (fun _ => rfl)).trans (forgetCommands_frame node session .unknownSession)

theorem releaseSessions_frame (node : Node L σ) (sessions : List SessionId) :
    (node.releaseSessions sessions).frame = node.frame := by
  induction sessions generalizing node with
  | nil => rfl
  | cons session sessions ih =>
      exact (ih _).trans (releaseSession_frame node session)

theorem expireBefore_frame (node : Node L σ) (operation : Operation) :
    (node.expireBefore operation).frame = node.frame := by
  unfold expireBefore
  split
  · exact releaseSessions_frame _ _
  · rfl

theorem settle_frame (node : Node L σ) (operation : Operation)
    (applied : Applied) :
    (node.settle operation applied).frame = node.frame := by
  unfold settle
  split
  · rename_i session sequence result
    exact modifyLeadership_frame node (f := fun leadership =>
      { leadership with
        sequencer := leadership.sequencer.applied session sequence })
      (fun _ => rfl)
  · exact releaseSession_frame node _
  · rfl

theorem publishEvents_frame (node : Node L σ) :
    node.publishEvents.frame = node.frame := by
  unfold publishEvents
  cases hleadership : node.leadership with
  | none => rfl
  | some leadership =>
      simp only [frame, send, hleadership, Option.map_some]
      rfl

theorem sendAppends_frame [LogStore L] (node : Node L σ)
    (peers : List NodeId) : (node.sendAppends peers).frame = node.frame := rfl

variable [StateMachine σ]

theorem serveQueries_frame (node : Node L σ) :
    node.serveQueries.frame = node.frame := rfl

theorem applyEntry_frame (node : Node L σ) (entry : LogEntry) :
    (node.applyEntry entry).frame = node.frame :=
  (settle_frame _ _ _).trans (expireBefore_frame node entry.operation)

theorem applyEntry_log (node : Node L σ) (entry : LogEntry) :
    (node.applyEntry entry).log = node.log :=
  congrArg Frame.log (applyEntry_frame node entry)

theorem applyEntry_lastApplied (node : Node L σ) (entry : LogEntry) :
    (node.applyEntry entry).lastApplied = node.lastApplied :=
  congrArg Frame.lastApplied
    (applyEntry_frame node entry)

variable [LogStore L]

/-- Applying moves the index of the last applied entry and nothing else of the
frame. -/
theorem applyNext_frame (node : Node L σ) (count : Nat) :
    (node.applyNext count).frame =
      { node.frame with lastApplied := (node.applyNext count).lastApplied } := by
  induction count generalizing node with
  | zero => rfl
  | succ count ih =>
      unfold applyNext
      split
      · rfl
      · rename_i entry hentry
        rw [ih, applyEntry_frame]
        rfl

theorem applyCommitted_frame (node : Node L σ) :
    node.applyCommitted.frame =
      { node.frame with lastApplied := node.applyCommitted.lastApplied } := by
  have hpublished := publishEvents_frame
    (node.applyNext (node.commitIndex - node.lastApplied)).serveQueries
  have happlied : node.applyCommitted.lastApplied =
      (node.applyNext (node.commitIndex - node.lastApplied)).lastApplied :=
    congrArg Frame.lastApplied hpublished
  rw [happlied, ← applyNext_frame]
  exact hpublished

theorem applyNext_log (node : Node L σ) (count : Nat) :
    (node.applyNext count).log = node.log :=
  congrArg Frame.log (applyNext_frame node count)

/-- Nothing is left to follow for a node that has come as far. -/
theorem followCommit_of_le {node : Node L σ} {target : Nat}
    (hle : target ≤ node.commitIndex) : node.followCommit target = node :=
  if_neg (Nat.not_lt.mpr hle)

/-- A node that follows a commit goes up to the target, if it had not come so
far. -/
theorem followCommit_frame (node : Node L σ) (target : Nat) :
    (node.followCommit target).frame =
      { node.frame with
        commitIndex := max node.commitIndex target
        lastApplied := (node.followCommit target).lastApplied } := by
  unfold followCommit
  split
  · rename_i hlt
    rw [applyCommitted_frame, Nat.max_eq_right (Nat.le_of_lt hlt)]
    rfl
  · rename_i hle
    rw [Nat.max_eq_left (Nat.le_of_not_lt hle)]
    rfl

theorem followCommit_commitIndex (node : Node L σ) (target : Nat) :
    (node.followCommit target).commitIndex = max node.commitIndex target :=
  congrArg Frame.commitIndex
    (followCommit_frame node target)

theorem followCommit_log (node : Node L σ) (target : Nat) :
    (node.followCommit target).log = node.log :=
  congrArg Frame.log
    (followCommit_frame node target)

theorem followCommit_term (node : Node L σ) (target : Nat) :
    (node.followCommit target).term = node.term :=
  congrArg Frame.term
    (followCommit_frame node target)

end Framing

/-! ### What applying makes of the account -/

section Accounting

variable {L σ : Type} {left right : Node L σ}

/-- The answers to others than queries that nobody has taken yet. -/
def replies (node : Node L σ) : List (Ticket × Answer) :=
  node.answers.filter (fun answer => !answer.2.isQuery)

/-- The account of a node. -/
def account (node : Node L σ) : Account σ where
  id := node.id
  members := node.members
  leader := node.leader
  lastApplied := node.lastApplied
  executor := node.executor
  waiters := node.waiters
  sequencer := node.leadership.map Leadership.sequencer
  replies := node.replies

/-- Two nodes that differ at most in what they have sent, in the queries that
wait and in what queries were told. -/
structure Coincide (left right : Node L σ) : Prop where
  role : left.role = right.role
  term : left.term = right.term
  log : left.log = right.log
  commitIndex : left.commitIndex = right.commitIndex
  lastApplied : left.lastApplied = right.lastApplied
  executor : left.executor = right.executor
  matchIndex : left.leadership.map Leadership.matchIndex =
    right.leadership.map Leadership.matchIndex
  nextIndex : left.leadership.map Leadership.nextIndex =
    right.leadership.map Leadership.nextIndex
  ackedRound : left.leadership.map Leadership.ackedRound =
    right.leadership.map Leadership.ackedRound
  waiters : left.waiters = right.waiters
  replies : left.replies = right.replies

theorem Coincide.of_frame (hframe : left.frame = right.frame)
    (haccount : left.account = right.account) : Coincide left right := by
  have hbare : left.leadership.map Leadership.bare =
      right.leadership.map Leadership.bare := congrArg Frame.leadership hframe
  have hnotes : ∀ {α : Type} (note : Leadership → α),
      (∀ leadership, note leadership.bare = note leadership) →
      left.leadership.map note = right.leadership.map note := by
    intro α note hnote
    have hmap := congrArg (Option.map note) hbare
    rwa [Option.map_map, Option.map_map, show note ∘ Leadership.bare = note
      from funext hnote] at hmap
  exact ⟨congrArg Frame.role hframe, congrArg Frame.term hframe,
    congrArg Frame.log hframe, congrArg Frame.commitIndex hframe,
    congrArg Account.lastApplied haccount, congrArg Account.executor haccount,
    hnotes Leadership.matchIndex (fun _ => rfl),
    hnotes Leadership.nextIndex (fun _ => rfl),
    hnotes Leadership.ackedRound (fun _ => rfl),
    congrArg Account.waiters haccount, congrArg Account.replies haccount⟩

theorem Coincide.trans {first second third : Node L σ}
    (hfirst : Coincide first second) (hsecond : Coincide second third) :
    Coincide first third where
  role := hfirst.role.trans hsecond.role
  term := hfirst.term.trans hsecond.term
  log := hfirst.log.trans hsecond.log
  commitIndex := hfirst.commitIndex.trans hsecond.commitIndex
  lastApplied := hfirst.lastApplied.trans hsecond.lastApplied
  executor := hfirst.executor.trans hsecond.executor
  matchIndex := hfirst.matchIndex.trans hsecond.matchIndex
  nextIndex := hfirst.nextIndex.trans hsecond.nextIndex
  ackedRound := hfirst.ackedRound.trans hsecond.ackedRound
  waiters := hfirst.waiters.trans hsecond.waiters
  replies := hfirst.replies.trans hsecond.replies

theorem forgetCommands_account (haccount : left.account = right.account)
    (session : SessionId) (kind : ErrorKind) :
    (left.forgetCommands session kind).account =
      (right.forgetCommands session kind).account := by
  have hsequencer : left.leadership.map Leadership.sequencer =
      right.leadership.map Leadership.sequencer :=
    congrArg Account.sequencer haccount
  unfold forgetCommands
  cases hleft : left.leadership with
  | none =>
      rw [hleft, Option.map_none, eq_comm, Option.map_eq_none_iff] at hsequencer
      rw [hsequencer]
      exact haccount
  | some leadership =>
      rw [hleft, Option.map_some, eq_comm, Option.map_eq_some_iff]
        at hsequencer
      obtain ⟨other, hright, hsame⟩ := hsequencer
      simp only [account, replies, Account.mk.injEq] at haccount
      simp only [hright, hsame, account, replies, failCommands, answerAll,
        List.filter_append, haccount, Option.map_some]

theorem modifyLeadership_account (haccount : left.account = right.account)
    {f : Leadership → Leadership} {g : Sequencer → Sequencer}
    (hf : ∀ leadership, (f leadership).sequencer = g leadership.sequencer) :
    (left.modifyLeadership f).account = (right.modifyLeadership f).account := by
  have hcomp : Leadership.sequencer ∘ f = g ∘ Leadership.sequencer := funext hf
  simp only [account, replies, Account.mk.injEq] at haccount
  simp only [account, replies, modifyLeadership, Option.map_map, hcomp, haccount]
  simp only [← Option.map_map, haccount]

/-- Refusing queries is no matter of the account. -/
theorem failQueries_account (node : Node L σ) (fails : PendingQuery → Bool)
    (kind : ErrorKind) :
    (node.failQueries fails kind).account = node.account := by
  simp only [failQueries, List.partition_eq_filter_filter, answerAll, account,
    replies, List.filter_append, Account.mk.injEq, true_and]
  simp [List.filter_map, Answer.isQuery]

theorem releaseSession_account (haccount : left.account = right.account)
    (session : SessionId) :
    (left.releaseSession session).account =
      (right.releaseSession session).account := by
  unfold releaseSession
  rw [failQueries_account, failQueries_account]
  exact modifyLeadership_account
    (forgetCommands_account haccount session .unknownSession)
    (g := fun sequencer => sequencer) (fun _ => rfl)

theorem releaseSessions_account (haccount : left.account = right.account)
    (sessions : List SessionId) :
    (left.releaseSessions sessions).account =
      (right.releaseSessions sessions).account := by
  induction sessions generalizing left right with
  | nil => exact haccount
  | cons session sessions ih => exact ih (releaseSession_account haccount session)

theorem expireBefore_account (haccount : left.account = right.account)
    (operation : Operation) :
    (left.expireBefore operation).account =
      (right.expireBefore operation).account := by
  have hexecutor : left.executor = right.executor :=
    congrArg Account.executor haccount
  unfold expireBefore
  cases operation.timestamp? with
  | none => exact haccount
  | some timestamp =>
      simp only [expireSessions, hexecutor]
      refine releaseSessions_account ?_ _
      exact congrArg (fun account : Account σ => { account with
        executor := right.executor.expire timestamp }) haccount

theorem settle_account (haccount : left.account = right.account)
    (operation : Operation) (applied : Applied) :
    (left.settle operation applied).account =
      (right.settle operation applied).account := by
  unfold settle
  split
  · rename_i session sequence result
    exact modifyLeadership_account haccount
      (g := fun sequencer => sequencer.applied session sequence) (fun _ => rfl)
  · exact releaseSession_account haccount _
  · exact haccount

theorem complete_account (haccount : left.account = right.account)
    (index : Nat) (applied : Applied) :
    (left.complete index applied).account =
      (right.complete index applied).account := by
  simp only [account, replies, Account.mk.injEq] at haccount
  have hcompletion : left.completion applied = right.completion applied := by
    unfold completion
    simp only [haccount]
  simp only [account, replies, complete, List.filter_append, hcompletion,
    haccount]

theorem sendAppends_account [LogStore L] (node : Node L σ)
    (peers : List NodeId) :
    (node.sendAppends peers).account = node.account := rfl

variable [StateMachine σ]

theorem applyEntry_account (haccount : left.account = right.account)
    (entry : LogEntry) :
    (left.applyEntry entry).account = (right.applyEntry entry).account := by
  have hexpired := expireBefore_account haccount entry.operation
  have hexecutor : (left.expireBefore entry.operation).executor =
      (right.expireBefore entry.operation).executor :=
    congrArg Account.executor hexpired
  rw [applyEntry_eq, applyEntry_eq, hexecutor]
  refine complete_account (settle_account ?_ _ _) _ _
  exact congrArg (fun account : Account σ => { account with
    executor := ((right.expireBefore entry.operation).executor.apply entry).1 })
    hexpired

theorem serveQueries_account (node : Node L σ) :
    node.serveQueries.account = node.account := by
  simp only [serveQueries, List.partition_eq_filter_filter, account, replies,
    List.filter_append, Account.mk.injEq, true_and]
  simp [List.filter_map, Answer.isQuery]

omit [StateMachine σ] in
theorem publishEvents_account (node : Node L σ) :
    node.publishEvents.account = node.account := by
  unfold publishEvents
  cases hleadership : node.leadership with
  | none => rfl
  | some leadership =>
      simp only [account, replies, send, hleadership, Option.map_some]

variable [LogStore L]

/-- What is applied of equal entries makes equal accounts. -/
theorem applyNext_account (haccount : left.account = right.account)
    {count : Nat} (hlogs : ∀ index, left.lastApplied < index →
      index ≤ left.lastApplied + count →
      LogStore.get? left.log index = LogStore.get? right.log index) :
    (left.applyNext count).account = (right.applyNext count).account := by
  induction count generalizing left right with
  | zero => exact haccount
  | succ count ih =>
      have hlast : left.lastApplied = right.lastApplied :=
        congrArg Account.lastApplied haccount
      have hnext := hlogs (left.lastApplied + 1) (by omega) (by omega)
      rw [hlast] at hnext
      simp only [applyNext, hlast, hnext]
      split
      · exact haccount
      · rename_i entry hentry
        have hstep : account { left with lastApplied := right.lastApplied + 1 } =
            account { right with lastApplied := right.lastApplied + 1 } :=
          congrArg (fun account : Account σ =>
            { account with lastApplied := right.lastApplied + 1 }) haccount
        refine ih (applyEntry_account hstep entry) (fun index hlt hle => ?_)
        simp only [applyEntry_lastApplied] at hlt hle
        simp only [applyEntry_log]
        exact hlogs index (by omega) (by omega)

theorem applyCommitted_account (node : Node L σ) :
    node.applyCommitted.account =
      (node.applyNext (node.commitIndex - node.lastApplied)).account :=
  (publishEvents_account _).trans (serveQueries_account _)

/-- Applying what is left up to a bound ends where applying everything at once
ends. -/
theorem applyNext_resume (node : Node L σ) {count bound : Nat}
    (hcount : count ≤ bound - node.lastApplied) :
    (node.applyNext count).applyNext
        (bound - (node.applyNext count).lastApplied) =
      node.applyNext (bound - node.lastApplied) := by
  induction count generalizing node with
  | zero => rfl
  | succ count ih =>
      obtain ⟨more, hmore⟩ : ∃ more, bound - node.lastApplied = more + 1 :=
        Nat.exists_eq_add_of_le' (by omega)
      cases hentry : LogStore.get? node.log (node.lastApplied + 1) with
      | none => simp only [applyNext, hentry]
      | some entry =>
          simp only [applyNext, hentry, hmore]
          rw [ih _ (by rw [applyEntry_lastApplied]; simp only; omega),
            applyEntry_lastApplied]
          congr 1
          simp only
          omega

/-- Equal entries up to the target are committed alike. -/
theorem followCommit_account (haccount : left.account = right.account)
    (hcommit : left.commitIndex = right.commitIndex) {target : Nat}
    (hlogs : ∀ index, index ≤ target →
      LogStore.get? left.log index = LogStore.get? right.log index) :
    (left.followCommit target).account =
      (right.followCommit target).account := by
  have hlast : left.lastApplied = right.lastApplied :=
    congrArg Account.lastApplied haccount
  have hstart : account { left with commitIndex := target } =
      account { right with commitIndex := target } := haccount
  unfold followCommit
  rw [hcommit]
  split
  · rw [applyCommitted_account, applyCommitted_account]
    have hnext : (applyNext { left with commitIndex := target }
        (target - left.lastApplied)).account =
        (applyNext { right with commitIndex := target }
          (target - left.lastApplied)).account := by
      refine applyNext_account hstart (fun index hlt hle => hlogs index ?_)
      simp only at hlt hle
      omega
    simp only [hlast] at hnext ⊢
    exact hnext
  · exact haccount

/-- Committing up to an index and then further is committing further at
once. -/
theorem followCommit_further (node : Node L σ) {first target : Nat}
    (hle : first ≤ target) :
    ((node.followCommit first).followCommit target).account =
      (node.followCommit target).account := by
  by_cases hfirst : node.commitIndex < first
  · have hlog := followCommit_log node first
    have hcommit := followCommit_commitIndex node first
    rw [Nat.max_eq_right (Nat.le_of_lt hfirst)] at hcommit
    rcases Nat.eq_or_lt_of_le hle with rfl | hlt
    · rw [followCommit_of_le (Nat.le_of_eq hcommit.symm)]
    · -- Both ways are compared with a node that knows the target all along.
      let told : Node L σ := { node with commitIndex := target }
      have hmiddle : (node.followCommit first).account =
          (told.applyNext (first - node.lastApplied)).account := by
        rw [followCommit, if_pos hfirst, applyCommitted_account]
        have hstart : account { node with commitIndex := first } =
          told.account := rfl
        exact applyNext_account hstart (fun _ _ _ => rfl)
      have hkept : (told.applyNext (first - node.lastApplied)).log = node.log :=
        applyNext_log told _
      have hlast := congrArg Account.lastApplied hmiddle
      simp only [account] at hlast
      have hstart : account
          { node.followCommit first with commitIndex := target } =
          (told.applyNext (first - node.lastApplied)).account := hmiddle
      calc ((node.followCommit first).followCommit target).account
          = (applyNext { node.followCommit first with commitIndex := target }
              (target - (node.followCommit first).lastApplied)).account := by
            rw [followCommit, if_pos (by omega), applyCommitted_account]
        _ = ((told.applyNext (first - node.lastApplied)).applyNext
              (target - (told.applyNext
                (first - node.lastApplied)).lastApplied)).account := by
            rw [← hlast]
            exact applyNext_account hstart
              (fun index _ _ => by simp only [hlog, hkept])
        _ = (told.applyNext (target - node.lastApplied)).account :=
            congrArg account (applyNext_resume told
              (Nat.sub_le_sub_right hle node.lastApplied))
        _ = (node.followCommit target).account := by
            rw [followCommit, if_pos (by omega), applyCommitted_account]
  · rw [followCommit_of_le (Nat.not_lt.mp hfirst)]

/-- With another log between two strides it makes no difference either, if it
agrees up to where the first one goes. -/
theorem followCommit_relogged (node : Node L σ) {middle log : L}
    {first target : Nat} (hle : first ≤ target)
    (hlogs : ∀ index, index ≤ first →
      LogStore.get? middle index = LogStore.get? log index) :
    Coincide
      ((((node.withLog middle).followCommit first).withLog log).followCommit
        target)
      ((node.withLog log).followCommit target) := by
  have hstart : (node.withLog middle).account = (node.withLog log).account := rfl
  have hfirst := followCommit_account hstart rfl hlogs
  have hmiddle := followCommit_frame (node.withLog middle) first
  have hcommit : ((node.withLog middle).followCommit first).commitIndex =
      max node.commitIndex first := congrArg Frame.commitIndex hmiddle
  have haccount :
      ((((node.withLog middle).followCommit first).withLog log).followCommit
        target).account = ((node.withLog log).followCommit target).account := by
    have hmoved : (((node.withLog middle).followCommit first).withLog
        log).account = ((node.withLog log).followCommit first).account := hfirst
    rw [← followCommit_further (node.withLog log) hle]
    refine followCommit_account hmoved ?_ (fun index _ => ?_)
    · rw [followCommit_commitIndex (node.withLog log)]
      exact hcommit
    · rw [followCommit_log]
      rfl
  refine .of_frame ?_ haccount
  have hlast := congrArg Account.lastApplied haccount
  simp only [account] at hlast
  rw [followCommit_frame, followCommit_frame (node.withLog log) target, hlast,
    withLog_frame, withLog_commitIndex, hmiddle, hcommit, Nat.max_assoc,
    Nat.max_eq_right hle]
  rfl

end Accounting

end Node

end SessionRaft
