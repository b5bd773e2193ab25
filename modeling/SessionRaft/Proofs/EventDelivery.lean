/-
Delivery of events to a client.  The network may lose, repeat, delay and
reorder what the node sends and what the client reports; the client hands over
the next event only and reports the last one it has handed over.  The stream of
a session carries what the state machine published to it; the client hands over
every event of the stream in order, and what it lacks is still queued.
-/
import Mathlib.Tactic.IntervalCases
import SessionRaft.Proofs.Deliveries

namespace SessionRaft

open FaithfulLog

/-- What an input reports of the events that a client has received: the reports
of the client itself, and those in entries that another leader replicates. -/
def Input.reports (session : SessionId) : Input → List Int
  | keepAlive _ request =>
      if request.session = session then [request.eventSequence] else []
  | publish request =>
      if request.session = session then [request.eventSequence] else []
  | append request => request.entries.flatMap (LogEntry.reports session)
  | _ => []

theorem Input.mem_reports {input : Input} {session : SessionId} {report : Int}
    (hreport : input.report? = some (session, report)) :
    report ∈ input.reports session := by
  cases input with
  | keepAlive _ _ | publish _ =>
      obtain ⟨rfl, rfl⟩ := Prod.mk.inj (Option.some.inj hreport)
      simp [reports]
  | _ => simp [report?] at hreport

namespace Node

variable {L σ : Type} [LogStore L] [FaithfulLog L]
  {node before middle after : Node L σ} {session : SessionId} {bound : Nat}

/-- Neither the sessions nor the log know of reports beyond a bound. -/
structure Bounded (node : Node L σ) (session : SessionId) (bound : Nat) :
    Prop where
  stored : ∀ entry ∈ entries node.log, ∀ report ∈ entry.reports session,
    report ≤ (bound : Int)
  acked : ∀ record, node.executor.sessions.get? session = some record →
    record.eventAck ≤ bound

theorem Bounded.mono {higher : Nat} (hbounded : node.Bounded session bound)
    (hle : bound ≤ higher) : node.Bounded session higher where
  stored entry hentry report hreport := by
    have hreport := hbounded.stored entry hentry report hreport
    omega
  acked record hrecord := Nat.le_trans (hbounded.acked record hrecord) hle

variable [StateMachine σ]

/-- The sessions go on by committing entries, reports stay bounded, and only
queued events are sent. -/
structure Conveys (session : SessionId) (bound : Nat) (before : Node L σ)
    (handed : List LogEntry) (after : Node L σ) : Prop where
  commits : before.executor.Commits handed after.executor
  bounded : before.Bounded session bound → after.Bounded session bound
  sent : ∀ message ∈ after.deliveries session,
    message ∈ before.deliveries session ∨
      ∃ record, before.executor.sessions.get? session = some record ∧
        ∃ event ∈ record.events, message = event.message

/-- What leaves the executor alone and sends nothing to clients. -/
theorem Conveys.of_still (hexecutor : after.executor = before.executor)
    (hentries : ∀ entry ∈ entries after.log, entry ∈ entries before.log ∨
      ∀ report ∈ entry.reports session, report ≤ (bound : Int))
    (hsent : after.deliveries session = before.deliveries session) :
    Conveys session bound before [] after where
  commits := hexecutor ▸ .none
  bounded hbounded := by
    constructor
    · intro entry hentry
      rcases hentries entry hentry with hentry | hreports
      · exact hbounded.stored entry hentry
      · exact hreports
    · rw [hexecutor]
      exact hbounded.acked
  sent message hmessage := Or.inl (hsent ▸ hmessage)

/-- What leaves the entries of the log alone, too. -/
theorem Conveys.of_same (hexecutor : after.executor = before.executor)
    (hentries : entries after.log = entries before.log)
    (houtbox : after.outbox = before.outbox) :
    Conveys session bound before [] after :=
  .of_still hexecutor (fun _ hentry => Or.inl (hentries ▸ hentry))
    (congrArg (List.filterMap (Outbound.message? session)) houtbox)

omit [StateMachine σ] in
theorem becomeFollower_executor (node : Node L σ) (term : Nat) :
    (node.becomeFollower term).executor = node.executor := by
  have hadopted : (node.adoptTerm term).executor = node.executor := by
    unfold adoptTerm
    split <;> rfl
  have hstanding := stepDown_standing
    { node.adoptTerm term with role := .follower, votes := [] }
  rw [becomeFollower_eq]
  exact (congrArg Standing.executor hstanding).trans hadopted

omit [LogStore L] [FaithfulLog L] [StateMachine σ] in
/-- Mail to other nodes is no delivery. -/
theorem deliveries_send (node : Node L σ) {messages : List Outbound}
    (hmail : ∀ message ∈ messages, message.message? session = none) :
    (node.send messages).deliveries session = node.deliveries session := by
  rw [deliveries, send, List.filterMap_append,
    List.filterMap_eq_nil_iff.mpr hmail, List.append_nil]
  rfl

omit [StateMachine σ] in
/-- An operation that is appended is the only news in the log. -/
theorem mem_of_append {operation : Operation} {index : Nat} {log : L}
    (hlog : Sound node.log)
    (happend : LogStore.append node.log node.term operation = (.ok index, log))
    {entry : LogEntry} (hentry : entry ∈ entries log) :
    entry ∈ entries node.log ∨ entry.operation = operation := by
  obtain ⟨-, -, hentries⟩ := append_done (.of_sound hlog) happend
  rw [hentries, List.mem_append, List.mem_singleton] at hentry
  exact hentry.imp_right (congrArg LogEntry.operation)

variable {input : Input} {handed : List LogEntry} {demands : List Demand}

theorem conveys_advance (hlog : Sound node.log) {target : Nat}
    (hhanded : handed = { node with commitIndex := target }.handed
      (target - node.lastApplied))
    (hafter : after = { node with commitIndex := target }.applyNext
      (target - node.lastApplied)) :
    Conveys session bound node handed after := by
  have hexecutor : after.executor = node.executor.replay handed := by
    rw [hafter, applyNext_executor, hhanded]
  have hsame : after.log = node.log := by
    rw [hafter]
    exact applyNext_log _ _
  have hsilent : Silent node after := by
    have hcommitted : Silent node { node with commitIndex := target } :=
      .of_eq rfl rfl
    rw [hafter]
    exact hcommitted.trans (silent_applyNext _ _)
  refine ⟨?_, fun hbounded => ⟨?_, ?_⟩, fun message hmessage => Or.inl ?_⟩
  · rw [hexecutor]
    exact Executor.commits_replay node.executor handed
  · rw [hsame]
    exact hbounded.stored
  · rw [hexecutor]
    refine Executor.replay_acked (fun entry hentry => ?_) hbounded.acked
    have hlogged : Sound { node with commitIndex := target }.log := hlog
    rw [hhanded] at hentry
    exact hbounded.stored entry (mem_handed hlogged hentry).1
  · rwa [deliveries, hsilent.outbox] at hmessage

theorem conveys_acknowledge {other : SessionId} {reported : Int}
    (hbound : other = session → reported ≤ (bound : Int)) :
    Conveys session bound node [] (node.acknowledgeEvents other reported) := by
  have hsilent := silent_acknowledgeEvents node other reported
  have hsent : ∀ message ∈ (node.acknowledgeEvents other
      reported).deliveries session, message ∈ node.deliveries session := by
    intro message hmessage
    rwa [deliveries, hsilent.outbox] at hmessage
  have hcases : (node.acknowledgeEvents other reported).log = node.log ∧
      ((node.acknowledgeEvents other reported).executor = node.executor ∨
        (node.acknowledgeEvents other reported).executor =
          node.executor.acknowledge other reported) := by
    unfold acknowledgeEvents
    split
    · exact ⟨rfl, Or.inl rfl⟩
    · split
      · exact ⟨rfl, Or.inr rfl⟩
      · exact ⟨rfl, Or.inl rfl⟩
  obtain ⟨hlog, hexecutor | hexecutor⟩ := hcases
  · exact .of_same hexecutor (hlog ▸ rfl) hsilent.outbox
  · refine ⟨?_, fun hbounded => ⟨?_, ?_⟩, fun message hmessage =>
      Or.inl (hsent message hmessage)⟩
    · rw [hexecutor]
      exact .acknowledge other reported .none
    · rw [hlog]
      exact hbounded.stored
    · intro record hrecord
      rw [hexecutor, Executor.acknowledge, SessionTable.get?_update] at hrecord
      split at hrecord
      · rename_i heq
        obtain ⟨earlier, hearlier, rfl⟩ := Option.map_eq_some_iff.mp hrecord
        have hacked := hbounded.acked earlier hearlier
        have hreported := hbound heq.symm
        rcases (earlier.carries_acknowledge reported).reported with
          heq | ⟨report, hreport, hle⟩
        · omega
        · obtain rfl := List.mem_singleton.mp hreport
          omega
      · exact hbounded.acked record hrecord

theorem Act.conveys (hlog : Sound node.log)
    (hkeyed : ∀ id record, node.executor.sessions.get? id = some record →
      record.id = id)
    (hreports : ∀ report ∈ input.reports session, report ≤ (bound : Int))
    (hact : Act input node handed demands after) :
    Conveys session bound node handed after := by
  cases hact with
  | follow term _ =>
      exact .of_same (becomeFollower_executor node term)
        (becomeFollower_entries hlog term) (becomeFollower_outbox node term)
  | fault _ hentries _ => exact .of_same rfl hentries rfl
  | stand _ _ _ hentries _ =>
      refine .of_still rfl (fun _ hentry => Or.inl (hentries ▸ hentry)) ?_
      refine deliveries_send _ (fun message hmessage => ?_)
      obtain ⟨_, -, rfl⟩ := List.mem_map.mp hmessage
      rfl
  | grant _ _ _ hentries _ => exact .of_same rfl hentries rfl
  | count member _ =>
      unfold countVote
      split <;> exact .of_same rfl rfl rfl
  | inaugurate _ happend =>
      refine .of_still rfl (fun entry hentry => ?_) rfl
      refine (mem_of_append hlog happend hentry).imp_right (fun heq => ?_)
      simp [LogEntry.reports, heq]
  | merge hinput _ hprevious _ hmerge =>
      rw [lastIndex_eq_length hlog] at hprevious
      obtain ⟨-, -, hspliced, -⟩ :=
        merge_cases (.of_sound hlog) hprevious hmerge
      refine .of_still rfl (fun entry hentry => ?_) rfl
      refine (mem_of_spliced hspliced hentry).imp_right
        (fun hreceived report hreport => hreports report ?_)
      rw [hinput]
      exact List.mem_flatMap.mpr ⟨entry, hreceived, hreport⟩
  | advance _ _ => exact conveys_advance hlog rfl rfl
  | publish =>
      have hlogSame := (quiet_publishEvents node).log
      have hexecutor := publishEvents_executor node
      refine ⟨hexecutor ▸ .none, fun hbounded => ⟨?_, ?_⟩,
        fun _ hmessage => deliveries_publishEvents hkeyed hmessage⟩
      · rw [hlogSame]
        exact hbounded.stored
      · rw [hexecutor]
        exact hbounded.acked
  | post peers =>
      refine .of_still rfl (fun _ hentry => Or.inl hentry) ?_
      refine deliveries_send _ (fun message hmessage => ?_)
      obtain ⟨peer, -, hrequest⟩ := List.mem_filterMap.mp hmessage
      obtain ⟨_, -, rfl⟩ := Option.map_eq_some_iff.mp hrequest
      rfl
  | @submit _ _ record leadership sequencer submission _ _ _ _ _ _ =>
      obtain ⟨hsilent, hexecutor, hentries⟩ :=
        @admitted_spec L σ (node.sequenced leadership sequencer) _ _ hlog record
          submission
      refine .of_still hexecutor (fun entry hentry => ?_)
        (congrArg (List.filterMap _) hsilent.outbox)
      refine (hentries entry hentry).imp_right (fun hnone => ?_)
      simp [hnone session]
  | enter hasks _ _ happend =>
      refine .of_still rfl (fun entry hentry => ?_) rfl
      refine (mem_of_append hlog happend hentry).imp_right
        (fun heq report hreport => hreports report ?_)
      cases hasks with
      | keepAlive _ =>
          simpa only [LogEntry.reports, heq, Input.reports] using hreport
      | _ => simp [LogEntry.reports, heq] at hreport
  | acknowledge hreport _ =>
      refine conveys_acknowledge (fun heq => ?_)
      exact hreports _ (heq ▸ Input.mem_reports hreport)
  | retire _ =>
      have hstanding := dropAll_standing node (fun _ => true)
      exact .of_same (congrArg Standing.executor hstanding)
        (congrArg entries (dropAll_log node _)) (dropAll_outbox node _)
  | _ => exact .of_same rfl rfl rfl

/-- The state is what the applied entries made of it, reports are bounded, and
nothing but the stream is under way to the client. -/
structure Delivers (machine : σ) (session : SessionId) (bound : Nat)
    (applied : List LogEntry) (node : Node L σ) : Prop where
  commits : (Executor.start machine).Commits applied node.executor
  bounded : node.Bounded session bound
  sent : ∀ message ∈ node.deliveries session,
    message ∈ ((Executor.start machine).stream session applied).map
      Event.message

variable {machine : σ} {applied : List LogEntry}

theorem Conveys.delivers (hconveys : Conveys session bound before handed after)
    (hnumbered : Numbered applied)
    (hdelivers : before.Delivers machine session bound applied) :
    after.Delivers machine session bound (applied ++ handed) where
  commits := hdelivers.commits.trans hconveys.commits
  bounded := hconveys.bounded hdelivers.bounded
  sent := by
    intro message hmessage
    rw [Executor.stream_append, List.map_append]
    apply List.mem_append_left
    rcases hconveys.sent message hmessage with
      hearlier | ⟨record, hrecord, event, hevent, rfl⟩
    · exact hdelivers.sent message hearlier
    · have hstreams := hdelivers.commits.streams hnumbered session record hrecord
      rw [hstreams.queued] at hevent
      exact List.mem_map_of_mem (List.mem_of_mem_drop hevent)

theorem Acts.delivers (hlog : Sound before.log)
    (hreports : ∀ report ∈ input.reports session, report ≤ (bound : Int))
    (hacts : Acts input before handed demands after)
    (hnumbered : Numbered (applied ++ handed))
    (hdelivers : before.Delivers machine session bound applied) :
    after.Delivers machine session bound (applied ++ handed) := by
  induction hacts with
  | refl =>
      rw [List.append_nil]
      exact hdelivers
  | @tail handed entries _ _ middle _ hearlier hact ih =>
      rw [← List.append_assoc] at hnumbered ⊢
      have hinit : Numbered (applied ++ handed) := by
        have htake := numbered_take hnumbered (applied ++ handed).length
        rwa [List.take_left] at htake
      have hmiddle := ih hinit
      have hconveys := hact.conveys (hearlier.sound hlog)
        hmiddle.commits.keyed hreports
      exact hconveys.delivers hinit hmiddle

end Node

/-- A client, with what it has handed over to the application. -/
structure Client where
  watermark : Watermark
  accepted : List (PublishResponse × Bytes)

namespace Client

def start : Client := ⟨.start, []⟩

/-- Hand a delivery over if it is the next one. -/
def receive (client : Client) (message : PublishResponse × Bytes) : Client :=
  match client.watermark.accept message.1 with
  | (watermark, .accepted) => ⟨watermark, client.accepted ++ [message]⟩
  | (watermark, _) => ⟨watermark, client.accepted⟩

/-- What was handed over is the stream up to the watermark. -/
structure Follows (stream : List Event) (client : Client) : Prop where
  published : client.watermark.sequence ≤ stream.length
  accepted : client.accepted =
    (stream.take client.watermark.sequence).map Event.message

variable {stream longer : List Event} {client : Client}

theorem follows_start (stream : List Event) : Follows stream start :=
  ⟨Nat.zero_le _, rfl⟩

theorem Follows.mono (hfollows : Follows stream client)
    (hextends : stream <+: longer) : Follows longer client := by
  obtain ⟨more, rfl⟩ := hextends
  constructor
  · exact Nat.le_trans hfollows.published (List.prefix_append _ _).length_le
  · rw [List.take_append_of_le_length hfollows.published]
    exact hfollows.accepted

/-- Whichever event of the stream arrives, the client follows the stream. -/
theorem Follows.receive (hfollows : Follows stream client)
    (hnumbered : stream.map Event.sequence = List.range' 1 stream.length)
    {message : PublishResponse × Bytes}
    (hmessage : message ∈ stream.map Event.message) :
    Follows stream (client.receive message) ∧
      client.watermark.sequence ≤ (client.receive message).watermark.sequence := by
  obtain ⟨event, hevent, rfl⟩ := List.mem_map.mp hmessage
  by_cases hnext : event.sequence = client.watermark.sequence + 1
  · have haccepts : client.receive event.message =
        ⟨⟨event.sequence⟩, client.accepted ++ [event.message]⟩ := by
      simp [Client.receive, Watermark.accept, Event.message, Event.label,
        Response.value?, hnext]
    obtain ⟨place, hplace⟩ := List.mem_iff_getElem?.mp hevent
    obtain ⟨hlt, -⟩ := List.getElem?_eq_some_iff.mp hplace
    have hsequence := congrArg (fun sequences => sequences[place]?) hnumbered
    simp only [List.getElem?_map, hplace, Option.map_some,
      List.getElem?_range' hlt, Option.some.injEq] at hsequence
    have hsame : place = client.watermark.sequence := by omega
    rw [haccepts]
    refine ⟨⟨by simp only; omega, ?_⟩, by simp only; omega⟩
    simp only
    rw [hnext, ← hsame, List.take_add_one, hplace, List.map_append, hsame,
      ← hfollows.accepted]
    rfl
  · have hdrops : client.receive event.message = client := by
      by_cases hgap : client.watermark.sequence + 1 < event.sequence <;>
        simp [Client.receive, Watermark.accept, Event.message, Event.label,
          Response.value?, hnext, hgap]
    rw [hdrops]
    exact ⟨hfollows, Nat.le_refl _⟩

theorem Follows.receiveAll (hfollows : Follows stream client)
    (hnumbered : stream.map Event.sequence = List.range' 1 stream.length)
    {messages : List (PublishResponse × Bytes)}
    (hmessages : ∀ message ∈ messages, message ∈ stream.map Event.message) :
    Follows stream (messages.foldl Client.receive client) ∧
      client.watermark.sequence ≤
        (messages.foldl Client.receive client).watermark.sequence := by
  induction messages generalizing client with
  | nil => exact ⟨hfollows, Nat.le_refl _⟩
  | cons message messages ih =>
      rw [List.forall_mem_cons] at hmessages
      obtain ⟨hreceived, hle⟩ := hfollows.receive hnumbered hmessages.1
      obtain ⟨hlast, hlater⟩ := ih hreceived hmessages.2
      exact ⟨hlast, Nat.le_trans hle hlater⟩

end Client

namespace Life

variable {L σ : Type} [LogStore L] [StateMachine σ]

/-- What was sent to the client of a session before a time. -/
def sent (life : Life L σ) (session : SessionId) :
    Nat → List (PublishResponse × Bytes)
  | 0 => []
  | time + 1 =>
      life.sent session time ++
        match life.incidents[time]? with
        | some (.input input) =>
            match (life.node time).step input with
            | .ok (_, after) => after.deliveries session
            | .error _ => []
        | _ => []

/-- The client before a time.  After each incident the network brings it some
of what was sent so far, in any order and any number of times: `arrivals` tells
the places. -/
def client (life : Life L σ) (session : SessionId)
    (arrivals : Nat → List Nat) : Nat → Client
  | 0 => .start
  | time + 1 =>
      ((arrivals time).filterMap (fun place =>
        (life.sent session (time + 1))[place]?)).foldl Client.receive
        (life.client session arrivals time)

variable [FaithfulLog L]

/-- The events that the session has got by the entries that were applied. -/
def stream (life : Life L σ) (session : SessionId) (time : Nat) : List Event :=
  life.start.executor.stream session
    ((entries (life.node time).log).take (life.node time).lastApplied)

/-- The payloads that the state machine has published to the session by the
entries that were applied. -/
def published (life : Life L σ) (session : SessionId) (time : Nat) :
    List Bytes :=
  life.start.executor.published session
    ((entries (life.node time).log).take (life.node time).lastApplied)

/-- The client reports nothing but its watermark, so that a report is never
ahead of the watermark, however late it arrives; and before the beginning there
was nothing to report. -/
structure Honest (life : Life L σ) (session : SessionId)
    (arrivals : Nat → List Nat) : Prop where
  unreported : ∀ entry ∈ entries life.start.log,
    ∀ report ∈ entry.reports session, report ≤ 0
  reported : ∀ (time : Nat) (input : Input),
    life.incidents[time]? = some (.input input) →
      ∀ report ∈ input.reports session,
        report ≤ (life.client session arrivals time).watermark.sequence

variable {life : Life L σ} {session : SessionId} {arrivals : Nat → List Nat}

omit [FaithfulLog L] in
theorem Takes.sent_succ {time : Nat} {input : Input} {output : Output}
    {after : Node L σ} (htakes : life.Takes time input output after)
    (session : SessionId) : life.sent session (time + 1) =
      life.sent session time ++ after.deliveries session := by
  simp only [sent, htakes.1, htakes.2]

omit [FaithfulLog L] in
theorem sent_succ_of_idle {time : Nat}
    (hidle : ∀ input output after, ¬life.Takes time input output after)
    (session : SessionId) :
    life.sent session (time + 1) = life.sent session time := by
  rw [sent]
  split
  · rename_i input hincident
    split
    · rename_i result after hstep
      exact absurd ⟨hincident, hstep⟩ (hidle _ _ _)
    · exact List.append_nil _
  · exact List.append_nil _

theorem Valid.start_executor (hvalid : life.Valid) :
    ∃ machine, life.start.executor = .start machine ∧
      life.start.outbox = [] := by
  obtain ⟨_, _, _, _, machine, hlog, hstart⟩ := hvalid.begins
  unfold Node.start at hstart
  split at hstart
  · simp at hstart
  · rw [loadVote_eq hlog] at hstart
    obtain hstart := Except.ok.inj hstart
    exact ⟨machine, hstart ▸ rfl, hstart ▸ rfl⟩

theorem Valid.stream_numbered (hvalid : life.Valid) (session : SessionId)
    (time : Nat) : (life.stream session time).map Event.sequence =
      List.range' 1 (life.stream session time).length := by
  obtain ⟨machine, hmachine, -⟩ := hvalid.start_executor
  rw [stream, hmachine]
  exact Executor.stream_numbered machine
    (numbered_take (numbered (hvalid.proper time).sound) _) session

/-- What was published stays published. -/
theorem Valid.stream_prefix (hvalid : life.Valid) (hunbroken : life.Unbroken)
    (session : SessionId) (time : Nat) :
    life.stream session time <+: life.stream session (time + 1) := by
  obtain ⟨handed, hgoesOn⟩ :=
    hvalid.goesOn_succ hunbroken (hvalid.abreast time)
  rw [stream, stream, hgoesOn.applied, Executor.stream_append]
  exact List.prefix_append _ _

/-- At a time the node and the client are in step: nothing but the stream was
sent, and the client follows it. -/
structure InStep (life : Life L σ) (machine : σ) (session : SessionId)
    (arrivals : Nat → List Nat) (time : Nat) : Prop where
  node : (life.node time).Delivers machine session
    (life.client session arrivals time).watermark.sequence
    ((entries (life.node time).log).take (life.node time).lastApplied)
  quiet : (life.node time).outbox = []
  sent : ∀ message ∈ life.sent session time,
    message ∈ (life.stream session time).map Event.message
  client : Client.Follows (life.stream session time)
    (life.client session arrivals time)

/-- Whatever arrives of what was sent, the client follows the stream. -/
theorem Valid.client_succ (hvalid : life.Valid) (hunbroken : life.Unbroken)
    {time : Nat}
    (hsent : ∀ message ∈ life.sent session (time + 1),
      message ∈ (life.stream session (time + 1)).map Event.message)
    (hclient : Client.Follows (life.stream session time)
      (life.client session arrivals time)) :
    Client.Follows (life.stream session (time + 1))
        (life.client session arrivals (time + 1)) ∧
      (life.client session arrivals time).watermark.sequence ≤
        (life.client session arrivals (time + 1)).watermark.sequence := by
  have hfollows := hclient.mono (hvalid.stream_prefix hunbroken session time)
  apply hfollows.receiveAll (hvalid.stream_numbered session (time + 1))
  intro message hmessage
  obtain ⟨place, -, hplace⟩ := List.mem_filterMap.mp hmessage
  exact hsent message (List.mem_of_getElem? hplace)

theorem InStep.next (hvalid : life.Valid) (hunbroken : life.Unbroken)
    (hhonest : life.Honest session arrivals) {machine : σ}
    (hmachine : life.start.executor = .start machine) {time : Nat}
    (hinStep : life.InStep machine session arrivals time) :
    life.InStep machine session arrivals (time + 1) := by
  have hsound := (hvalid.proper time).sound
  obtain ⟨more, hmore⟩ := hvalid.stream_prefix hunbroken session time
  have hearlier : ∀ message ∈ life.sent session time,
      message ∈ (life.stream session (time + 1)).map Event.message := by
    intro message hmessage
    rw [← hmore, List.map_append]
    exact List.mem_append_left _ (hinStep.sent message hmessage)
  rcases hunbroken.next hvalid time with
    ⟨input, output, after, htakes⟩ | ⟨hidle, log, -, hmemory, hnext⟩
  · obtain ⟨handed, hacts⟩ := Node.step_actsTo htakes.2 hsound
    have happlied := (hacts.goesOn hsound
      (hvalid.abreast time)).applied
    have hnumbered : Numbered ((entries (life.node time).log).take
        (life.node time).lastApplied ++ handed) :=
      happlied ▸ numbered_take (numbered (hacts.sound hsound)) _
    have hdelivers := hacts.delivers hsound
      (hhonest.reported time input htakes.1) hnumbered hinStep.node
    have hstream : life.stream session (time + 1) =
        (Executor.start machine).stream session
          ((entries (life.node time).log).take
            (life.node time).lastApplied ++ handed) := by
      rw [stream, hmachine, htakes.node_succ, ← happlied]
      rfl
    have hsent : ∀ message ∈ life.sent session (time + 1),
        message ∈ (life.stream session (time + 1)).map Event.message := by
      intro message hmessage
      rw [htakes.sent_succ, List.mem_append] at hmessage
      rcases hmessage with hmessage | hmessage
      · exact hearlier message hmessage
      · rw [hstream]
        exact hdelivers.sent message hmessage
    obtain ⟨hclient, hforward⟩ :=
      hvalid.client_succ hunbroken hsent hinStep.client
    refine ⟨?_, ?_, hsent, hclient⟩
    · rw [htakes.node_succ]
      obtain ⟨hcommits, hbounded, -⟩ := hdelivers
      rw [← happlied] at hcommits
      refine ⟨hcommits, ?_, fun message hmessage => ?_⟩
      · obtain ⟨hstored, hacked⟩ := hbounded.mono hforward
        exact ⟨hstored, hacked⟩
      · simp [Node.deliveries, Node.take] at hmessage
    · rw [htakes.node_succ]
      rfl
  · have hsent : ∀ message ∈ life.sent session (time + 1),
        message ∈ (life.stream session (time + 1)).map Event.message := by
      rw [sent_succ_of_idle hidle]
      exact hearlier
    obtain ⟨hclient, hforward⟩ :=
      hvalid.client_succ hunbroken hsent hinStep.client
    have hsame : entries log = entries (life.node time).log :=
      congrArg MemoryLog.entries hmemory
    obtain ⟨hcommits, hbounded, hdeliveries⟩ := hinStep.node
    obtain ⟨hstored, hacked⟩ := hbounded.mono hforward
    refine ⟨?_, ?_, hsent, hclient⟩
    · rw [hnext]
      refine ⟨?_, ⟨?_, hacked⟩, ?_⟩
      · rw [hsame]
        exact hcommits
      · rw [hsame]
        exact hstored
      · rw [hsame]
        exact hdeliveries
    · rw [hnext]
      exact hinStep.quiet

theorem Valid.inStep (hvalid : life.Valid) (hunbroken : life.Unbroken)
    (hhonest : life.Honest session arrivals) {machine : σ}
    (hmachine : life.start.executor = .start machine)
    (hquiet : life.start.outbox = []) (time : Nat) :
    life.InStep machine session arrivals time := by
  induction time with
  | zero =>
      refine ⟨⟨?_, ⟨hhonest.unreported, ?_⟩, ?_⟩, hquiet, ?_,
        Client.follows_start _⟩
      · rw [hvalid.abreast_start.2, List.take_zero]
        exact hmachine ▸ .none
      · intro record hrecord
        change life.start.executor.sessions.get? session = some record at hrecord
        simp [hmachine, Executor.get?_start] at hrecord
      · intro message hmessage
        change message ∈ life.start.deliveries session at hmessage
        simp [Node.deliveries, hquiet] at hmessage
      · intro message hmessage
        simp [sent] at hmessage
  | succ time ih => exact ih.next hvalid hunbroken hhonest hmachine

/-- The events of a session are numbered from 1 without a gap, and they carry
what the state machine published to the session, all of it and in its order.
Whatever the network does, and whoever leads, the client hands over the first
of them, each once and as it was published; the acknowledgment is never ahead of the client,
so that all the client lacks is queued; and once a leader takes a report that
does not move the acknowledgment, all that is queued is sent. -/
theorem events_delivered (hvalid : life.Valid) (hunbroken : life.Unbroken)
    (hhonest : life.Honest session arrivals) (time : Nat) :
    (life.stream session time).map Event.sequence =
        List.range' 1 (life.stream session time).length ∧
      (life.stream session time).map Event.payload =
        life.published session time ∧
      (life.client session arrivals time).watermark.sequence ≤
        (life.stream session time).length ∧
      (life.client session arrivals time).accepted =
        ((life.stream session time).take
          (life.client session arrivals time).watermark.sequence).map
            Event.message ∧
      (∀ record, (life.node time).executor.sessions.get? session =
          some record →
        record.eventAck ≤
            (life.client session arrivals time).watermark.sequence ∧
          ∀ event ∈ life.stream session time,
            (life.client session arrivals time).watermark.sequence <
              event.sequence → event ∈ record.events) ∧
      (life.node time).outbox = [] ∧
      ∀ input output after reported record last,
        life.Takes time input output after →
        (life.node time).Heeds input session reported →
        (life.node time).executor.sessions.get? session = some record →
        record.advances reported = false →
        after.executor.sessions.get? session = some last →
        (last.events.map (Publisher.delivery session)).Sublist
          after.outbox := by
  obtain ⟨machine, hmachine, hquiet⟩ := hvalid.start_executor
  have hinStep := hvalid.inStep hunbroken hhonest hmachine hquiet
  obtain ⟨hdelivers, hidle, -, hclient⟩ := hinStep time
  have hproper := hvalid.proper time
  have hnumbered := numbered_take (numbered hproper.sound)
    (life.node time).lastApplied
  refine ⟨hvalid.stream_numbered session time,
    life.start.executor.stream_payloads session _, hclient.published,
    hclient.accepted, fun record hrecord => ?_, hidle, ?_⟩
  · have hacked := hdelivers.bounded.acked record hrecord
    have hstreams := hdelivers.commits.streams hnumbered session record hrecord
    refine ⟨hacked, fun event hevent hlacks => ?_⟩
    rw [stream, hmachine] at hevent
    obtain ⟨hpos, hplace⟩ := hstreams.getElem?_of_mem hevent
    rw [hstreams.queued]
    refine List.mem_of_getElem? (i := event.sequence - 1 - record.eventAck) ?_
    rw [List.getElem?_drop, ← hplace]
    congr 1
    omega
  · intro input output after reported record last htakes hheeds hrecord hstuck
      hlast
    have hle : session ≤ (life.node time).lastApplied := by
      have hopened := hdelivers.commits.open_le hnumbered session record hrecord
      exact Nat.le_trans hopened (List.length_take_le _ _)
    have hlater := (hinStep (time + 1)).node.commits
    rw [htakes.node_succ] at hlater
    have hlaterNumbered := numbered_take
      (numbered (hproper.step htakes.2).sound) after.lastApplied
    exact Node.step_resends htakes.2 hheeds (hproper.leads hheeds.leads)
      hproper.sound hle hrecord hstuck hlater.keyed hlast
      (hlater.streams hlaterNumbered session last hlast)

end Life

namespace Witness

/-- A leader that publishes two events to a session, is told that its client
has received none, and later that it has received both. -/
def lossy : Life MemoryLog Tally where
  start := member .empty .start 1
  incidents := [
    .input .electionTimeout,
    .input (.voteResponse 2 (.ok ⟨1, true⟩)),
    .input (.register 1 ⟨7, 0⟩),
    .input (.appendResponse 2 (.ok ⟨1, true, 2, 2⟩)),
    .input (.command 2 ⟨2, 1, [2, 9]⟩),
    .input (.appendResponse 2 (.ok ⟨1, true, 3, 3⟩)),
    .input (.command 3 ⟨2, 2, [2, 8]⟩),
    .input (.appendResponse 2 (.ok ⟨1, true, 4, 4⟩)),
    .input (.publish ⟨2, 0⟩),
    .input (.publish ⟨2, 2⟩)]

/-- The network loses the first event, and brings what was sent again in the
wrong order at first. -/
def losses : Nat → List Nat
  | 7 => [1]
  | 8 => [3, 2, 3, 1]
  | _ => []

theorem lossy_valid : lossy.Valid where
  begins := ⟨1, [1, 2, 3], {}, .empty, .start, numbered_nil, rfl⟩
  possible := Life.possible_of_inputs (by simp [lossy])

theorem lossy_unbroken : lossy.Unbroken := by
  intro config log machine
  simp [lossy]

theorem lossy_honest : lossy.Honest 2 losses where
  unreported := fun entry hentry => by
    have hnone : entries lossy.start.log = [] := rfl
    simp [hnone] at hentry
  reported := by
    have hwatermark : (lossy.client 2 losses 9).watermark.sequence = 2 := by
      decide +kernel
    intro time input hincident report hreport
    obtain ⟨hlt, -⟩ := List.getElem?_eq_some_iff.mp hincident
    have hlt : time < 10 := hlt
    interval_cases time <;>
      simp only [lossy, List.getElem?_cons_zero, List.getElem?_cons_succ,
        Option.some.injEq, Incident.input.injEq] at hincident <;>
      subst hincident <;>
      simp [Input.reports] at hreport <;>
      omega

/-- The client has handed over both events in their order, as they were
published, and at the first report both were sent again. -/
theorem events_delivered_lossy : lossy.Valid ∧ lossy.Unbroken ∧
    lossy.Honest 2 losses ∧
    (lossy.stream 2 9).map Event.payload = [[9, 0], [8, 0]] ∧
    (lossy.client 2 losses 9).accepted =
      [(.ok ⟨1, 1⟩, [9, 0]), (.ok ⟨2, 2⟩, [8, 0])] ∧
    ∃ after last,
      lossy.Takes 8 (.publish ⟨2, 0⟩) (.published (.ok ⟨0, 0⟩)) after ∧
        after.executor.sessions.get? 2 = some last ∧
        last.events = [⟨1, 1, [9, 0]⟩, ⟨2, 2, [8, 0]⟩] ∧
        (last.events.map (Publisher.delivery 2)).Sublist after.outbox := by
  obtain ⟨-, hpayloads, -, haccepted, -⟩ :=
    Life.events_delivered lossy_valid lossy_unbroken lossy_honest 9
  obtain ⟨-, -, -, -, -, -, hresent⟩ :=
    Life.events_delivered lossy_valid lossy_unbroken lossy_honest 8
  refine ⟨lossy_valid, lossy_unbroken, lossy_honest, ?_, ?_, _, _, ⟨rfl, rfl⟩,
    rfl, rfl, hresent _ _ _ 0 _ _ ⟨rfl, rfl⟩ ⟨rfl, rfl, by simp⟩ rfl
      (by decide +kernel) rfl⟩
  · rw [hpayloads]
    decide +kernel
  · rw [haccepted]
    decide +kernel

end Witness

end SessionRaft
