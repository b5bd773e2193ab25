/-
The user's state machine and the executor that feeds it committed entries.
The executor owns the sessions, so that a repeated command is answered from
the kept outcome instead of being run again.
-/
import SessionRaft.Session

namespace SessionRaft

/-- A committed command on its way into the state machine. -/
structure Commit where
  index : Nat
  session : SessionId
  sequence : Nat
  timestamp : Nat
  operation : Bytes
deriving DecidableEq

/-- What running a command did.  State and events count even if the command
failed in the end, in which case there is no output. -/
structure Effect (σ : Type) where
  state : σ
  events : List (SessionId × Bytes)
  output : Option Bytes

/-- A read of applied state. -/
structure Query where
  session : SessionId
  /-- The applied index that the query observes. -/
  index : Nat
  query : Bytes
deriving DecidableEq

/-- A deterministic state machine. -/
class StateMachine (σ : Type) where
  apply : σ → Commit → Effect σ
  query : σ → Query → Option Bytes

/-- What applying one entry produced. -/
inductive Applied where
  | noOp
  | registered (session : SessionId) (timeout : Nat)
  | keptAlive (outcome : Response Unit)
  | unregistered (outcome : Response Unit)
  | command (session : SessionId) (sequence : Nat) (result : CommandResponse)
deriving DecidableEq

/-- A state machine together with the open sessions. -/
structure Executor (σ : Type) where
  machine : σ
  sessions : SessionTable

namespace Executor

variable {σ : Type} [StateMachine σ]

def start (machine : σ) : Executor σ := ⟨machine, .empty⟩

def expire (executor : Executor σ) (now : Nat) : Executor σ :=
  { executor with sessions := executor.sessions.expire now }

/-- Queue events in the order in which they were published. -/
def publishAll (sessions : SessionTable) :
    List (SessionId × Bytes) → SessionTable
  | [] => sessions
  | (recipient, payload) :: events =>
      publishAll (sessions.publish recipient payload).1 events

/-- Run a command that is due, and keep its outcome. -/
def run (executor : Executor σ) (commit : Commit) :
    Executor σ × CommandResponse :=
  let sessions :=
    executor.sessions.update commit.session (·.touch commit.timestamp)
  let effect := StateMachine.apply executor.machine commit
  let result : CommandResponse :=
    match effect.output with
    | some output => .ok ⟨commit.index, output⟩
    | none => .error .applicationError
  let sessions := publishAll sessions effect.events
  (⟨effect.state,
    sessions.update commit.session (·.recordResult commit.sequence result)⟩,
    result)

/-- Apply a command.  A sequence that was applied before is answered with the
kept outcome and leaves everything as it is. -/
def applyCommand (executor : Executor σ) (commit : Commit) :
    Executor σ × CommandResponse :=
  match executor.sessions.get? commit.session with
  | none => (executor, .error .unknownSession)
  | some session =>
      if commit.sequence ≤ session.commandSequence then
        (executor, session.cachedResult commit.sequence)
      else executor.run commit

/-- Refresh a session and take in its acknowledgments. -/
def keepAlive (executor : Executor σ) (id : SessionId)
    (commandSequence : Nat) (eventSequence : Int) (timestamp : Nat) :
    Executor σ × Response Unit :=
  if executor.sessions.contains id then
    ({ executor with
        sessions := executor.sessions.update id (fun session =>
          ((session.touch timestamp).releaseResults
            commandSequence).acknowledge eventSequence) }, .ok ())
  else (executor, .error .unknownSession)

def unregister (executor : Executor σ) (id : SessionId) :
    Executor σ × Response Unit :=
  if executor.sessions.contains id then
    ({ executor with sessions := executor.sessions.remove id }, .ok ())
  else (executor, .error .unknownSession)

def apply (executor : Executor σ) (entry : LogEntry) : Executor σ × Applied :=
  match entry.operation with
  | .noOp => (executor, .noOp)
  | .register client timeout timestamp =>
      ({ executor with
          sessions := executor.sessions.register
            (.start entry.index client timeout timestamp) },
        .registered entry.index timeout)
  | .keepAlive session commandSequence eventSequence timestamp =>
      let (executor, outcome) :=
        executor.keepAlive session commandSequence eventSequence timestamp
      (executor, .keptAlive outcome)
  | .unregister session _ =>
      let (executor, outcome) := executor.unregister session
      (executor, .unregistered outcome)
  | .command session sequence timestamp payload =>
      let (executor, result) := executor.applyCommand
        ⟨entry.index, session, sequence, timestamp, payload⟩
      (executor, .command session sequence result)

def query (executor : Executor σ) (query : Query) : QueryResponse :=
  if executor.sessions.contains query.session then
    match StateMachine.query executor.machine query with
    | some result => .ok ⟨query.index, result⟩
    | none => .error .queryError
  else .error .unknownSession

end Executor

end SessionRaft
