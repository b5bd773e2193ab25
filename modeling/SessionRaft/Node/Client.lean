/-
Requests of clients.  Whatever changes state goes through the leader's log and
is answered when its entry is applied; every request carries a ticket, under
which its answer is given later.
-/
import SessionRaft.Node.Election

namespace SessionRaft.Node

variable {L σ : Type} [LogStore L] [StateMachine σ]

/-- Append commands in their order.  After a failure the rest cannot follow,
and the commands of the session that still wait for a predecessor are refused
as well. -/
def appendReady (node : Node L σ) : List PendingCommand → Node L σ
  | [] => node
  | command :: commands =>
      let ⟨session, sequence, payload⟩ := command.request
      match LogStore.append node.log node.term
          (.command session sequence node.now payload) with
      | (.error _, log) =>
          ({ node with log := log }.failCommands (command :: commands)
            .internalError).forgetCommands session .internalError
      | (.ok index, log) =>
          (({ node with log := log }.modifyLeadership (fun leadership =>
            { leadership with
              sequencer :=
                leadership.sequencer.appended session sequence index })).await
            index (command.tickets.map .command)).appendReady commands

def appendCommands (node : Node L σ) (commands : List PendingCommand) :
    Node L σ :=
  (node.appendReady commands).replicate

/-- Do what the sequencer says about a command. -/
def follow (node : Node L σ) (session : Session) :
    Submission → Node L σ
  | .ready commands => node.appendCommands commands
  | .held => node
  | .inFlight index command =>
      node.await index (command.tickets.map .command)
  | .stale command =>
      node.answerAll command.tickets
        (.command (session.cachedResult command.request.sequence))

/-- Submit a command.  One that was applied is answered with the kept outcome
of that time; any other is answered once it is applied. -/
def submitCommand (node : Node L σ) (ticket : Ticket)
    (request : CommandRequest) : Except Overflow (Node L σ) :=
  if node.role ≠ .leader then
    return node.answer ticket (.command (.error .noLeader))
  else
    match node.executor.sessions.get? request.session with
    | none => return node.answer ticket (.command (.error .unknownSession))
    | some session =>
        if request.sequence ≤ session.commandSequence then
          return node.answer ticket
            (.command (session.cachedResult request.sequence))
        else
          match node.leadership with
          | none => return node.answer ticket (.command (.error .noLeader))
          | some leadership => do
              let (sequencer, submission) ← leadership.sequencer.submit
                session.commandSequence ⟨request, [ticket]⟩
              return { node with
                leadership := some
                  { leadership with sequencer := sequencer } }.follow session
                submission

/-- Wait for a query and answer whatever can be answered. -/
def enqueue (node : Node L σ) (query : PendingQuery) : Node L σ :=
  let node := { node with queries := node.queries ++ [query] }
  (if query.round = 0 then node else node.replicate).serveQueries

/-- Submit a query.  A sequential one waits until the node has applied what
the client has seen; a linearizable one also waits for what is committed and
for a quorum to answer one more broadcast. -/
def submitQuery (node : Node L σ) (ticket : Ticket) (request : QueryRequest) :
    Node L σ :=
  match request.consistency, node.leadership with
  | .sequential, _ => node.enqueue ⟨request.index, 0, request, ticket⟩
  | .linearizable, none => node.answer ticket (.query (.error .noLeader))
  | .linearizable, some leadership =>
      let readIndex :=
        max (max node.commitIndex leadership.noopIndex) request.index
      node.enqueue ⟨readIndex, leadership.round + 1, request, ticket⟩

/-- Append an operation of a client, and let the client wait for it. -/
def appendOperation (node : Node L σ) (waiter : Waiter)
    (operation : Operation) (next : Node L σ → Node L σ) : Node L σ :=
  if node.role ≠ .leader then
    node.answer waiter.ticket (waiter.refusal .noLeader)
  else
    match LogStore.append node.log node.term operation with
    | (.error _, log) =>
        { node with log := log }.answer waiter.ticket
          (waiter.refusal .internalError)
    | (.ok index, log) =>
        next ({ node with log := log }.await index [waiter])

/-- Open a session; without a timeout of its own it gets the configured one. -/
def submitRegister (node : Node L σ) (ticket : Ticket)
    (request : RegisterRequest) : Node L σ :=
  let timeout :=
    if request.timeout = 0 then node.config.sessionTimeout
    else request.timeout
  node.appendOperation (.register ticket)
    (.register request.client timeout node.now) replicate

/-- Whether a leader has to refuse a session that is not open. -/
def refuses (node : Node L σ) (session : SessionId) : Bool :=
  node.role = .leader && !node.executor.sessions.contains session

/-- Move the acknowledgment of a session to what its client reports.  A report
that moves nothing means that the client is stuck, so everything past its
acknowledgment is sent again. -/
def acknowledgeEvents (node : Node L σ) (session : SessionId)
    (sequence : Int) : Node L σ :=
  match node.executor.sessions.get? session with
  | none => node
  | some record =>
      if record.advances sequence then
        node.modifySessions
          (·.update session (fun record => record.acknowledge sequence))
      else
        node.modifyLeadership (fun leadership =>
          { leadership with
            publisher :=
              leadership.publisher.resendFrom session record.eventAck })

/-- Refresh a session.  What it acknowledges counts at once and is made
durable by the entry. -/
def submitKeepAlive (node : Node L σ) (ticket : Ticket)
    (request : KeepAliveRequest) : Node L σ :=
  let ⟨session, commandSequence, eventSequence⟩ := request
  if node.refuses session then
    node.answer ticket (.keepAlive (.error .unknownSession))
  else
    node.appendOperation (.keepAlive ticket)
      (.keepAlive session commandSequence eventSequence node.now)
      (fun node =>
        (node.acknowledgeEvents session eventSequence).replicate.publishEvents)

def submitUnregister (node : Node L σ) (ticket : Ticket)
    (request : UnregisterRequest) : Node L σ :=
  if node.refuses request.session then
    node.answer ticket (.unregister (.error .unknownSession))
  else
    node.appendOperation (.unregister ticket)
      (.unregister request.session node.now) replicate

/-- Take a client's report of received events; it is answered at once with the
acknowledgment that holds now. -/
def publish (node : Node L σ) (request : PublishRequest) :
    PublishResponse × Node L σ :=
  if node.role ≠ .leader then (.error .noLeader, node)
  else
    let acknowledged :=
      node.acknowledgeEvents request.session request.eventSequence
    match acknowledged.executor.sessions.get? request.session with
    | none => (.error .unknownSession, node)
    | some session =>
        (.ok ⟨session.ackedVersion, session.eventAck⟩,
          acknowledged.publishEvents)

end SessionRaft.Node
