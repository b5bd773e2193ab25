/-
The binary layout of every message, in the order of the fields on the wire.
-/
import SessionRaft.Wire.Layout

namespace SessionRaft

open Layout

/-- A truth value in one byte, 0 or 1. -/
def boolLayout : Layout Bool :=
  choice (.unknownTag "bool") (fun value => if value then 1 else 0)
    [(0, unit.arm (fun _ => false) (fun value => if value then none else some ())),
      (1, unit.arm (fun _ => true) (fun value => if value then some () else none))]

def errorKindLayout : Layout ErrorKind :=
  byte.refine
    (fun id =>
      match ErrorKind.ofId? id with
      | some kind => .ok kind
      | none => .error (.unknownErrorKind id))
    ErrorKind.id

/-- A status byte, then either the value or the kind of refusal. -/
def responseLayout {α : Type} (value : Layout α) : Layout (Response α) :=
  choice .unknownStatus (fun response => response.status.id)
    [(Status.ok.id, value.arm .ok Response.value?),
      (Status.error.id, errorKindLayout.arm .error Response.error?)]

namespace Operation

def tag : Operation → UInt8
  | noOp => 0
  | register .. => 1
  | keepAlive .. => 2
  | unregister .. => 3
  | command .. => 4

def layout : Layout Operation :=
  choice (.unknownTag "operation") tag
    [(0, unit.arm (fun _ => noOp)
        (fun | noOp => some () | _ => none)),
      (1, (number.seq (number.seq number)).arm
        (fun (client, timeout, timestamp) => register client timeout timestamp)
        (fun
          | register client timeout timestamp =>
              some (client, timeout, timestamp)
          | _ => none)),
      (2, (number.seq (number.seq (signed.seq number))).arm
        (fun (session, commandSequence, eventSequence, timestamp) =>
          keepAlive session commandSequence eventSequence timestamp)
        (fun
          | keepAlive session commandSequence eventSequence timestamp =>
              some (session, commandSequence, eventSequence, timestamp)
          | _ => none)),
      (3, (number.seq number).arm
        (fun (session, timestamp) => unregister session timestamp)
        (fun
          | unregister session timestamp => some (session, timestamp)
          | _ => none)),
      (4, (number.seq (number.seq (number.seq bytes))).arm
        (fun (session, sequence, timestamp, payload) =>
          command session sequence timestamp payload)
        (fun
          | command session sequence timestamp payload =>
              some (session, sequence, timestamp, payload)
          | _ => none))]

end Operation

/-- On the wire the index of an entry comes before its term. -/
def LogEntry.layout : Layout LogEntry :=
  (number.seq (number.seq Operation.layout)).imap
    (fun (index, term, operation) => ⟨term, index, operation⟩)
    (fun entry => (entry.index, entry.term, entry.operation))

def VoteRequest.layout : Layout VoteRequest :=
  (number.seq (number.seq (number.seq number))).imap
    (fun (term, candidate, lastLogIndex, lastLogTerm) =>
      ⟨term, candidate, lastLogIndex, lastLogTerm⟩)
    (fun request => (request.term, request.candidate, request.lastLogIndex,
      request.lastLogTerm))

def Vote.layout : Layout Vote :=
  (number.seq boolLayout).imap (fun (term, voted) => ⟨term, voted⟩)
    (fun vote => (vote.term, vote.voted))

/-- On the wire the entries come last. -/
def AppendRequest.layout : Layout AppendRequest :=
  (number.seq (number.seq (number.seq (number.seq (number.seq
    (number.seq (list LogEntry.layout))))))).imap
    (fun (term, leader, prevLogIndex, prevLogTerm, commitIndex, round,
        entries) =>
      ⟨term, leader, prevLogIndex, prevLogTerm, entries, commitIndex, round⟩)
    (fun request => (request.term, request.leader, request.prevLogIndex,
      request.prevLogTerm, request.commitIndex, request.round,
      request.entries))

def Appended.layout : Layout Appended :=
  (number.seq (boolLayout.seq (number.seq number))).imap
    (fun (term, succeeded, lastLogIndex, round) =>
      ⟨term, succeeded, lastLogIndex, round⟩)
    (fun appended => (appended.term, appended.succeeded,
      appended.lastLogIndex, appended.round))

def RegisterRequest.layout : Layout RegisterRequest :=
  (number.seq number).imap (fun (client, timeout) => ⟨client, timeout⟩)
    (fun request => (request.client, request.timeout))

def Registered.layout : Layout Registered :=
  (number.seq (number.seq ((list number).seq number))).imap
    (fun (session, leader, members, timeout) =>
      ⟨session, leader, members, timeout⟩)
    (fun registered => (registered.session, registered.leader,
      registered.members, registered.timeout))

def KeepAliveRequest.layout : Layout KeepAliveRequest :=
  (number.seq (number.seq signed)).imap
    (fun (session, commandSequence, eventSequence) =>
      ⟨session, commandSequence, eventSequence⟩)
    (fun request => (request.session, request.commandSequence,
      request.eventSequence))

def KeptAlive.layout : Layout KeptAlive :=
  (number.seq (list number)).imap (fun (leader, members) => ⟨leader, members⟩)
    (fun kept => (kept.leader, kept.members))

def UnregisterRequest.layout : Layout UnregisterRequest :=
  number.imap (fun session => ⟨session⟩) (fun request => request.session)

def CommandRequest.layout : Layout CommandRequest :=
  (number.seq (number.seq bytes)).imap
    (fun (session, sequence, command) => ⟨session, sequence, command⟩)
    (fun request => (request.session, request.sequence, request.command))

def CommandOutput.layout : Layout CommandOutput :=
  (number.seq bytes).imap (fun (index, result) => ⟨index, result⟩)
    (fun output => (output.index, output.result))

namespace Consistency

def tag : Consistency → UInt8
  | sequential => 0
  | linearizable => 1

def layout : Layout Consistency :=
  choice (.unknownTag "consistency") tag
    [(0, unit.arm (fun _ => sequential)
        (fun | sequential => some () | linearizable => none)),
      (1, unit.arm (fun _ => linearizable)
        (fun | sequential => none | linearizable => some ()))]

end Consistency

def QueryRequest.layout : Layout QueryRequest :=
  (number.seq (number.seq (Consistency.layout.seq bytes))).imap
    (fun (session, index, consistency, query) =>
      ⟨session, index, consistency, query⟩)
    (fun request => (request.session, request.index, request.consistency,
      request.query))

def QueryOutput.layout : Layout QueryOutput :=
  (number.seq bytes).imap (fun (index, result) => ⟨index, result⟩)
    (fun output => (output.index, output.result))

def PublishRequest.layout : Layout PublishRequest :=
  (number.seq signed).imap
    (fun (session, eventSequence) => ⟨session, eventSequence⟩)
    (fun request => (request.session, request.eventSequence))

/-- Both numbers are read before either sign is looked at. -/
def PublishAck.layout : Layout PublishAck :=
  (signed.seq signed).refine
    (fun (version, sequence) =>
      (PublishAck.make version sequence).mapError .invalid)
    (fun ack => ((ack.version : Int), (ack.sequence : Int)))

def VoteResponse.layout : Layout VoteResponse := responseLayout Vote.layout

def AppendResponse.layout : Layout AppendResponse :=
  responseLayout Appended.layout

def RegisterResponse.layout : Layout RegisterResponse :=
  responseLayout Registered.layout

def KeepAliveResponse.layout : Layout KeepAliveResponse :=
  responseLayout KeptAlive.layout

def UnregisterResponse.layout : Layout UnregisterResponse :=
  responseLayout unit

def CommandResponse.layout : Layout CommandResponse :=
  responseLayout CommandOutput.layout

def QueryResponse.layout : Layout QueryResponse :=
  responseLayout QueryOutput.layout

def PublishResponse.layout : Layout PublishResponse :=
  responseLayout PublishAck.layout

namespace Message

def tag : Message → UInt8
  | voteRequest _ => 1
  | voteResponse _ => 2
  | appendRequest _ => 3
  | appendResponse _ => 4
  | registerRequest _ => 5
  | registerResponse _ => 6
  | keepAliveRequest _ => 7
  | keepAliveResponse _ => 8
  | unregisterRequest _ => 9
  | unregisterResponse _ => 10
  | commandRequest _ => 11
  | commandResponse _ => 12
  | queryRequest _ => 13
  | queryResponse _ => 14
  | publishRequest _ => 15
  | publishResponse _ => 16

def layout : Layout Message :=
  choice (.unknownTag "message") tag
    [(1, VoteRequest.layout.arm voteRequest
        (fun | voteRequest body => some body | _ => none)),
      (2, VoteResponse.layout.arm voteResponse
        (fun | voteResponse body => some body | _ => none)),
      (3, AppendRequest.layout.arm appendRequest
        (fun | appendRequest body => some body | _ => none)),
      (4, AppendResponse.layout.arm appendResponse
        (fun | appendResponse body => some body | _ => none)),
      (5, RegisterRequest.layout.arm registerRequest
        (fun | registerRequest body => some body | _ => none)),
      (6, RegisterResponse.layout.arm registerResponse
        (fun | registerResponse body => some body | _ => none)),
      (7, KeepAliveRequest.layout.arm keepAliveRequest
        (fun | keepAliveRequest body => some body | _ => none)),
      (8, KeepAliveResponse.layout.arm keepAliveResponse
        (fun | keepAliveResponse body => some body | _ => none)),
      (9, UnregisterRequest.layout.arm unregisterRequest
        (fun | unregisterRequest body => some body | _ => none)),
      (10, UnregisterResponse.layout.arm unregisterResponse
        (fun | unregisterResponse body => some body | _ => none)),
      (11, CommandRequest.layout.arm commandRequest
        (fun | commandRequest body => some body | _ => none)),
      (12, CommandResponse.layout.arm commandResponse
        (fun | commandResponse body => some body | _ => none)),
      (13, QueryRequest.layout.arm queryRequest
        (fun | queryRequest body => some body | _ => none)),
      (14, QueryResponse.layout.arm queryResponse
        (fun | queryResponse body => some body | _ => none)),
      (15, PublishRequest.layout.arm publishRequest
        (fun | publishRequest body => some body | _ => none)),
      (16, PublishResponse.layout.arm publishResponse
        (fun | publishResponse body => some body | _ => none))]

end Message

end SessionRaft
