/-
Copying the log.  The leader sends each peer the entries from a guessed index
on; the peer accepts them if they join on to its own log, and otherwise tells
where the leader should try next.
-/
import SessionRaft.Node.Commit

namespace SessionRaft.Node

variable {L σ : Type} [LogStore L]

/-- The index from which a peer is sent entries. -/
def nextFor (node : Node L σ) (leadership : Leadership) (peer : NodeId) :
    Nat :=
  max 1 (leadership.nextIndex.getD peer (LogStore.lastIndex node.log + 1))

/-- The entries a peer is due, joined on to the entry before them.  Without
entries the request is a heartbeat.  Only a leader has one. -/
def createAppend? (node : Node L σ) (peer : NodeId) : Option AppendRequest :=
  node.leadership.map (fun leadership =>
    let next := node.nextFor leadership peer
    { term := node.term
      leader := node.id
      prevLogIndex := next - 1
      prevLogTerm := LogStore.termAt node.log (next - 1)
      entries :=
        LogStore.entriesFrom node.log next node.config.maxEntriesPerAppend
      commitIndex := node.commitIndex
      round := leadership.round })

/-- Queue what some peers are due. -/
def sendAppends (node : Node L σ) (peers : List NodeId) : Node L σ :=
  node.send (peers.filterMap (fun peer =>
    (node.createAppend? peer).map (.append peer)))

/-- Begin a new round and queue what every peer is due. -/
def broadcast (node : Node L σ) : Node L σ :=
  (node.modifyLeadership (fun leadership =>
    { leadership with round := leadership.round + 1 })).sendAppends node.peers

/-- Broadcast, then commit what needs no answer: in a cluster of one that is
the whole log. -/
def replicate [StateMachine σ] (node : Node L σ) : Node L σ :=
  if node.leadership.isSome then node.broadcast.advanceCommit.2 else node

/-- Send what every peer is due, were it nothing. -/
def heartbeat [StateMachine σ] (node : Node L σ) : Node L σ := node.replicate

/-- Put a received entry after those before it, dropping whatever stands at
its index and later. -/
def adopt (log : L) (entry : LogEntry) : Except ErrorKind Unit × L :=
  let (outcome, log) :=
    if entry.index ≤ LogStore.lastIndex log then
      LogStore.truncateAfter log (entry.index - 1)
    else (.ok (), log)
  match outcome with
  | .error _ => (.error .internalError, log)
  | .ok () =>
      match LogStore.append log entry.term entry.operation with
      | (.error _, log) => (.error .internalError, log)
      | (.ok index, log) =>
          if index = entry.index then (.ok (), log)
          else (.error .internalError, log)

/-- Whether the log holds an entry of this index and term. -/
def holds (log : L) (entry : LogEntry) : Bool :=
  decide (entry.index ≤ LogStore.lastIndex log ∧
    LogStore.termAt log entry.index = entry.term)

/-- Merge received entries into a log that matches up to `matched`.  Entries
that are there already are skipped, so that an old request drops nothing.  The
result is the index up to which the log matches now; a gap between entries and
a conflict with a committed entry break the protocol. -/
def merge (commitIndex : Nat) :
    L → Nat → List LogEntry → Except ErrorKind Nat × L
  | log, matched, [] => (.ok matched, log)
  | log, matched, entry :: entries =>
      if entry.index ≠ matched + 1 then (.error .protocolError, log)
      else if holds log entry then
        merge commitIndex log entry.index entries
      else if entry.index ≤ LogStore.lastIndex log ∧
          entry.index ≤ commitIndex then
        (.error .protocolError, log)
      else
        match adopt log entry with
        | (.error kind, log) => (.error kind, log)
        | (.ok (), log) => merge commitIndex log entry.index entries

def appended (node : Node L σ) (succeeded : Bool) (index : Nat)
    (round : Nat) : AppendResponse :=
  .ok ⟨node.term, succeeded, index, round⟩

/-- Commit what the leader has committed, as far as the log matches. -/
def followCommit [StateMachine σ] (node : Node L σ) (target : Nat) :
    Node L σ :=
  if node.commitIndex < target then
    { node with commitIndex := target }.applyCommitted
  else node

/-- Take entries from the leader of the term.  The flag tells whether the
request came from a leader, so that the election timer starts again. -/
def handleAppend [StateMachine σ] (node : Node L σ) (request : AppendRequest) :
    (AppendResponse × Bool) × Node L σ :=
  if request.term < node.term then
    ((node.appended false (LogStore.lastIndex node.log) request.round, false),
      node)
  else
    let node :=
      if node.term < request.term ∨ node.role ≠ .follower then
        node.becomeFollower request.term
      else node
    let node := { node with leader := some request.leader }
    let previous := request.prevLogIndex
    if LogStore.lastIndex node.log < previous then
      ((node.appended false (LogStore.lastIndex node.log) request.round, true),
        node)
    else if LogStore.termAt node.log previous ≠ request.prevLogTerm then
      ((node.appended false (previous - 1) request.round, true), node)
    else
      match merge node.commitIndex node.log previous request.entries with
      | (.error kind, log) => ((.error kind, true), { node with log := log })
      | (.ok matched, log) =>
          let node := { node with log := log }.followCommit
            (min request.commitIndex matched)
          ((node.appended true matched request.round, true), node)

/-- Note that a peer answered a round. -/
def Leadership.acknowledge (leadership : Leadership) (peer : NodeId)
    (round : Nat) : Leadership :=
  { leadership with
    ackedRound := leadership.ackedRound.insert peer
      (max (leadership.ackedRound.getD peer 0) round) }

/-- Note that a peer holds the log up to an index. -/
def Leadership.progress (leadership : Leadership) (peer : NodeId)
    (index : Nat) : Leadership :=
  { leadership with
    matchIndex := leadership.matchIndex.insert peer index
    nextIndex := leadership.nextIndex.insert peer (index + 1) }

/-- Note the index from which a peer is tried again. -/
def Leadership.retreat (leadership : Leadership) (peer : NodeId)
    (index : Nat) : Leadership :=
  { leadership with nextIndex := leadership.nextIndex.insert peer index }

/-- Note that a peer has taken the log up to an index, commit what a quorum
holds now, and send the peer the rest. -/
def acceptProgress [StateMachine σ] (node : Node L σ)
    (leadership : Leadership) (peer : NodeId) (index : Nat) :
    Bool × Node L σ :=
  let matched := max (leadership.matchIndex.getD peer 0)
    (min index (LogStore.lastIndex node.log))
  let node :=
    { node with leadership := some (Leadership.progress leadership peer matched) }
  let (advanced, node) := node.advanceCommit
  if matched < LogStore.lastIndex node.log then
    (advanced, node.sendAppends [peer])
  else (advanced, node)

/-- Note where a peer wants to be tried again, never past the last try, and
try there. -/
def acceptRefusal (node : Node L σ) (leadership : Leadership) (peer : NodeId)
    (next hint : Nat) : Except Overflow (Node L σ) := do
  let retry := max 1 (min (next - 1) (← successor hint))
  return { node with
    leadership := some (Leadership.retreat leadership peer retry) }.sendAppends
    [peer]

/-- Take a peer's answer.  The flag tells whether anything was committed. -/
def handleAppendResponse [StateMachine σ] (node : Node L σ) (peer : NodeId) :
    AppendResponse → Except Overflow (Bool × Node L σ)
  | .error _ => return (false, node)
  | .ok appended =>
      if node.term < appended.term then
        return (false, node.becomeFollower appended.term)
      else if node.role ≠ .leader ∨ appended.term < node.term then
        return (false, node)
      else
        match node.leadership with
        | none => return (false, node)
        | some leadership =>
            match leadership.nextIndex.get? peer with
            | none => return (false, node)
            | some next => do
                let leadership :=
                  Leadership.acknowledge leadership peer appended.round
                if appended.succeeded then
                  let (advanced, node) :=
                    node.acceptProgress leadership peer appended.lastLogIndex
                  return (advanced, node.serveQueries)
                else
                  let node ← node.acceptRefusal leadership peer next
                    appended.lastLogIndex
                  return (false, node.serveQueries)

end SessionRaft.Node
