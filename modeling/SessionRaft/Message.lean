/-
The messages between nodes and between clients and nodes.
-/
import SessionRaft.Log.Entry
import SessionRaft.Response

namespace SessionRaft

/-- A candidate asks for a vote. -/
structure VoteRequest where
  term : Nat
  candidate : NodeId
  lastLogIndex : Nat
  lastLogTerm : Nat
deriving DecidableEq

/-- The answer to a request for a vote. -/
structure Vote where
  term : Nat
  voted : Bool
deriving DecidableEq

abbrev VoteResponse := Response Vote

/-- A leader ships entries; without entries the request is a heartbeat. -/
structure AppendRequest where
  term : Nat
  leader : NodeId
  prevLogIndex : Nat
  prevLogTerm : Nat
  entries : List LogEntry
  commitIndex : Nat
  /-- The leader's count of broadcasts, echoed by the answer. -/
  round : Nat
deriving DecidableEq

/-- The answer to shipped entries. -/
structure Appended where
  term : Nat
  succeeded : Bool
  /-- After a success the last index that matches the leader's log; after a
  refusal the index from which the leader should try again. -/
  lastLogIndex : Nat
  /-- The round of the request that is answered. -/
  round : Nat
deriving DecidableEq

abbrev AppendResponse := Response Appended

/-- A client asks for a session; a timeout of 0 takes the default. -/
structure RegisterRequest where
  client : Nat
  timeout : Nat
deriving DecidableEq

/-- The session that was opened. -/
structure Registered where
  session : SessionId
  leader : NodeId
  members : List NodeId
  timeout : Nat
deriving DecidableEq

abbrev RegisterResponse := Response Registered

/-- A client refreshes its session. -/
structure KeepAliveRequest where
  session : SessionId
  /-- The highest command sequence whose result has arrived. -/
  commandSequence : Nat
  /-- The highest event sequence that has arrived. -/
  eventSequence : Int
deriving DecidableEq

/-- The session was refreshed. -/
structure KeptAlive where
  leader : NodeId
  members : List NodeId
deriving DecidableEq

abbrev KeepAliveResponse := Response KeptAlive

/-- A client closes its session. -/
structure UnregisterRequest where
  session : SessionId
deriving DecidableEq

abbrev UnregisterResponse := Response Unit

/-- A client submits a command. -/
structure CommandRequest where
  session : SessionId
  sequence : Nat
  command : Bytes
deriving DecidableEq

/-- The result of a command and the index at which it was committed. -/
structure CommandOutput where
  index : Nat
  result : Bytes
deriving DecidableEq

abbrev CommandResponse := Response CommandOutput

/-- How fresh the answer to a query has to be. -/
inductive Consistency where
  /-- Any node answers once it has applied the index the client has seen. -/
  | sequential
  /-- The leader answers once it has applied all that was committed when the
  query arrived. -/
  | linearizable
deriving DecidableEq

/-- A client reads applied state. -/
structure QueryRequest where
  session : SessionId
  /-- The highest index the client has seen. -/
  index : Nat
  consistency : Consistency
  query : Bytes
deriving DecidableEq

/-- The answer to a query and the applied index at which it was evaluated. -/
structure QueryOutput where
  index : Nat
  result : Bytes
deriving DecidableEq

abbrev QueryResponse := Response QueryOutput

/-- A client reports the highest event sequence it has received. -/
structure PublishRequest where
  session : SessionId
  eventSequence : Int
deriving DecidableEq

/-- Why an event label cannot be built. -/
inductive BuildError where
  | negativeVersion (version : Int)
  | negativeSequence (sequence : Int)
deriving DecidableEq

def BuildError.message : BuildError → String
  | negativeVersion version =>
      "version cannot be less than 0 (got " ++ toString version ++ ")"
  | negativeSequence sequence =>
      "sequence cannot be less than 0 (got " ++ toString sequence ++ ")"

/-- The version and the sequence of one published event. -/
structure PublishAck where
  version : Nat
  sequence : Nat
deriving DecidableEq

/-- Labels are never negative; the version is looked at first. -/
def PublishAck.make (version sequence : Int) : Except BuildError PublishAck :=
  if version < 0 then .error (.negativeVersion version)
  else if sequence < 0 then .error (.negativeSequence sequence)
  else .ok ⟨version.toNat, sequence.toNat⟩

abbrev PublishResponse := Response PublishAck

/-- The answer that carries a label, if the label can be built. -/
def PublishResponse.make (version sequence : Int) :
    Except BuildError PublishResponse :=
  (PublishAck.make version sequence).map .ok

/-- What a node wants delivered. -/
inductive Outbound where
  | vote (receiver : NodeId) (request : VoteRequest)
  | append (receiver : NodeId) (request : AppendRequest)
  | publish (session : SessionId) (response : PublishResponse) (event : Bytes)
deriving DecidableEq

/-- Every message of the protocol under one type. -/
inductive Message where
  | voteRequest (body : VoteRequest)
  | voteResponse (body : VoteResponse)
  | appendRequest (body : AppendRequest)
  | appendResponse (body : AppendResponse)
  | registerRequest (body : RegisterRequest)
  | registerResponse (body : RegisterResponse)
  | keepAliveRequest (body : KeepAliveRequest)
  | keepAliveResponse (body : KeepAliveResponse)
  | unregisterRequest (body : UnregisterRequest)
  | unregisterResponse (body : UnregisterResponse)
  | commandRequest (body : CommandRequest)
  | commandResponse (body : CommandResponse)
  | queryRequest (body : QueryRequest)
  | queryResponse (body : QueryResponse)
  | publishRequest (body : PublishRequest)
  | publishResponse (body : PublishResponse)
deriving DecidableEq

end SessionRaft
