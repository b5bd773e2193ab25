/-
The answer envelope shared by every request: a value, or the reason why the
request was refused.  The numeric identities are part of the wire format.
-/

namespace SessionRaft

/-- Why a request was refused. -/
inductive ErrorKind where
  /-- The receiving node does not lead; the client has to look elsewhere. -/
  | noLeader
  /-- The query could not be evaluated. -/
  | queryError
  /-- The command can no longer be served, as its cached result was released. -/
  | commandError
  /-- The state machine failed while it applied the command. -/
  | applicationError
  /-- The session is not open; the client has to register again. -/
  | unknownSession
  /-- The request broke the replication protocol. -/
  | protocolError
  /-- A local fault, such as failing storage. -/
  | internalError
deriving DecidableEq

namespace ErrorKind

def id : ErrorKind → UInt8
  | noLeader => 1
  | queryError => 2
  | commandError => 3
  | applicationError => 4
  | unknownSession => 5
  | protocolError => 6
  | internalError => 7

/-- Every kind, in the order of the identities. -/
def all : List ErrorKind :=
  [noLeader, queryError, commandError, applicationError, unknownSession,
    protocolError, internalError]

def ofId? (id : UInt8) : Option ErrorKind :=
  all.find? (fun kind => kind.id == id)

def text : ErrorKind → String
  | noLeader => "no leader"
  | queryError => "query error"
  | commandError => "command error"
  | applicationError => "application error"
  | unknownSession => "unknown session"
  | protocolError => "protocol error"
  | internalError => "internal error"

@[simp] theorem ofId?_id (kind : ErrorKind) : ofId? kind.id = some kind := by
  cases kind <;> rfl

theorem id_of_ofId? {id : UInt8} {kind : ErrorKind}
    (hkind : ofId? id = some kind) : kind.id = id := by
  simpa using List.find?_some hkind

end ErrorKind

/-- The first byte of an answer. -/
inductive Status where
  | ok
  | error
deriving DecidableEq

namespace Status

def id : Status → UInt8
  | ok => 0
  | error => 1

def ofId? (id : UInt8) : Option Status :=
  [ok, error].find? (fun status => status.id == id)

@[simp] theorem ofId?_id (status : Status) : ofId? status.id = some status := by
  cases status <;> rfl

end Status

/-- An answer carries either its value or the reason of a refusal. -/
inductive Response (α : Type) where
  | ok (value : α)
  | error (kind : ErrorKind)
deriving DecidableEq

namespace Response

variable {α β : Type}

/-- Which of the two kinds of answer this is. -/
def status : Response α → Status
  | ok _ => .ok
  | error _ => .error

def isOk : Response α → Bool
  | ok _ => true
  | error _ => false

def value? : Response α → Option α
  | ok value => some value
  | error _ => none

def error? : Response α → Option ErrorKind
  | ok _ => none
  | error kind => some kind

def toExcept : Response α → Except ErrorKind α
  | ok value => .ok value
  | error kind => .error kind

def ofExcept : Except ErrorKind α → Response α
  | .ok value => ok value
  | .error kind => error kind

def map (f : α → β) : Response α → Response β
  | ok value => ok (f value)
  | error kind => error kind

@[simp] theorem ofExcept_toExcept (response : Response α) :
    ofExcept response.toExcept = response := by
  cases response <;> rfl

@[simp] theorem toExcept_ofExcept (outcome : Except ErrorKind α) :
    (ofExcept outcome).toExcept = outcome := by
  cases outcome <;> rfl

end Response

end SessionRaft
