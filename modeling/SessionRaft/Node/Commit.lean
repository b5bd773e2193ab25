/-
Committing and applying.  The commit index moves to the highest entry of the
present term that a quorum holds; committed entries are applied strictly in
order, and whoever waits for one is answered with what it produced.
-/
import SessionRaft.Node.StepDown

namespace SessionRaft.Node

variable {L σ : Type}

/-- Queue every event that was not sent yet.  Only a leader sends events. -/
def publishEvents (node : Node L σ) : Node L σ :=
  match node.leadership with
  | none => node
  | some leadership =>
      let (publisher, outbound) :=
        leadership.publisher.publish node.executor.sessions
      { node with
        leadership := some { leadership with publisher := publisher } }.send
        outbound

/-- The latest broadcast that a quorum has answered, where the node itself
counts as having answered all of them. -/
def confirmedRound (node : Node L σ) : Nat :=
  match node.leadership with
  | none => 0
  | some leadership =>
      let rounds := leadership.round ::
        node.peers.map (fun peer => leadership.ackedRound.getD peer 0)
      (rounds.mergeSort (fun left right => decide (right ≤ left))).getD
        (node.quorum - 1) 0

/-- Forget the commands of a session that are not in the log yet and refuse
those that were held. -/
def forgetCommands (node : Node L σ) (session : SessionId) (kind : ErrorKind) :
    Node L σ :=
  match node.leadership with
  | none => node
  | some leadership =>
      let (sequencer, held) := leadership.sequencer.forget session
      { node with
        leadership := some { leadership with sequencer := sequencer } }.failCommands
        held kind

/-- Let go of everything that belongs to a closed session. -/
def releaseSession (node : Node L σ) (session : SessionId) : Node L σ :=
  ((node.forgetCommands session .unknownSession).modifyLeadership
    (fun leadership =>
      { leadership with
        publisher := leadership.publisher.forget session })).failQueries
    (fun query => query.request.session = session) .unknownSession

def releaseSessions (node : Node L σ) : List SessionId → Node L σ
  | [] => node
  | session :: sessions => (node.releaseSession session).releaseSessions sessions

/-- What a waiter is told about the entry that was applied at its index.  An
entry of another kind than the waiter's means that the log was replaced. -/
def completion (node : Node L σ) (applied : Applied) (waiter : Waiter) :
    Answer :=
  let leader := node.leader.getD node.id
  match waiter, applied with
  | .command _, .command _ _ result => .command result
  | .register _, .registered session timeout =>
      .register (.ok ⟨session, leader, node.members, timeout⟩)
  | .keepAlive _, .keptAlive outcome =>
      .keepAlive (outcome.map (fun _ => ⟨leader, node.members⟩))
  | .unregister _, .unregistered outcome => .unregister outcome
  | waiter, _ => waiter.refusal .protocolError

/-- Answer everyone who waits for an index. -/
def complete (node : Node L σ) (index : Nat) (applied : Applied) :
    Node L σ :=
  { node with
    waiters := node.waiters.erase index
    answers := node.answers ++ (node.waiters.getD index []).map
      (fun waiter => (waiter.ticket, node.completion applied waiter)) }

/-- Keep the bookkeeping of the leader in step with an applied entry. -/
def settle (node : Node L σ) (operation : Operation) (applied : Applied) :
    Node L σ :=
  match applied, operation with
  | .command session sequence _, _ =>
      node.modifyLeadership (fun leadership =>
        { leadership with
          sequencer := leadership.sequencer.applied session sequence })
  | .unregistered (.ok ()), .unregister session _ =>
      node.releaseSession session
  | _, _ => node

def expireSessions (node : Node L σ) (now : Nat) : Node L σ :=
  { node with executor := node.executor.expire now }.releaseSessions
    (node.executor.sessions.expired now)

variable [LogStore L] [StateMachine σ]

/-- Answer the queries whose index is applied and whose broadcast a quorum has
answered. -/
def serveQueries (node : Node L σ) : Node L σ :=
  let confirmed := node.confirmedRound
  let (ready, waiting) := node.queries.partition (fun query =>
    decide (query.readIndex ≤ node.lastApplied ∧ query.round ≤ confirmed))
  { node with
    queries := waiting
    answers := node.answers ++ ready.map (fun query =>
      (query.ticket, .query (node.executor.query
        ⟨query.request.session, node.lastApplied, query.request.query⟩))) }

/-- Apply one entry.  Its timestamp closes lapsed sessions first. -/
def applyEntry (node : Node L σ) (entry : LogEntry) : Node L σ :=
  let node :=
    match entry.operation.timestamp? with
    | some timestamp => node.expireSessions timestamp
    | none => node
  let (executor, applied) := node.executor.apply entry
  ({ node with executor := executor }.settle entry.operation applied).complete
    entry.index applied

/-- Apply the next entries, as many as `count` but none past a missing one. -/
def applyNext (node : Node L σ) : Nat → Node L σ
  | 0 => node
  | count + 1 =>
      match LogStore.get? node.log (node.lastApplied + 1) with
      | none => node
      | some entry =>
          ({ node with lastApplied := node.lastApplied + 1 }.applyEntry
            entry).applyNext count

/-- Apply what is committed, then answer queries and send events. -/
def applyCommitted (node : Node L σ) : Node L σ :=
  (node.applyNext (node.commitIndex - node.lastApplied)).serveQueries.publishEvents

/-- How many members are known to hold the log up to an index, the leader
included. -/
def replicas (leadership : Leadership) (index : Nat) : Nat :=
  1 + leadership.matchIndex.values.countP (fun matched => decide (index ≤ matched))

/-- The indices past the commit index that a quorum holds. -/
def replicated (node : Node L σ) (leadership : Leadership) : List Nat :=
  (List.range' (node.commitIndex + 1)
    (LogStore.lastIndex node.log - node.commitIndex)).takeWhile
    (fun index => decide (node.quorum ≤ replicas leadership index))

/-- The highest index to commit.  Entries of earlier terms commit only along
with one of the present term. -/
def commitTarget? (node : Node L σ) (leadership : Leadership) :
    Option Nat :=
  ((node.replicated leadership).filter (fun index =>
    LogStore.termAt node.log index = node.term)).getLast?

/-- Commit what a quorum holds, and tell whether that was anything. -/
def advanceCommit (node : Node L σ) : Bool × Node L σ :=
  match node.leadership.bind node.commitTarget? with
  | none => (false, node)
  | some target => (true, { node with commitIndex := target }.applyCommitted)

end SessionRaft.Node
