/-
Queries that have to be fresh, in every run in which votes are stored: whoever
is told a result was answered by a leader whose broadcast a quorum has answered
since.  An answer that echoes the round of a request of an earlier term passes
for such an answer, and nothing else does.
-/
import Mathlib.Data.List.Permutation
import SessionRaft.Proofs.Fates
import SessionRaft.Proofs.Reads

namespace SessionRaft

theorem mem_servedOf {ticket : Ticket} {answers : List (Ticket × Answer)} :
    ticket ∈ servedOf answers ↔
      ∃ result, (ticket, .query (.ok result)) ∈ answers := by
  refine ⟨fun hserved => ?_, fun ⟨result, hanswer⟩ =>
    List.mem_filterMap.mpr ⟨_, hanswer, rfl⟩⟩
  obtain ⟨⟨other, answer⟩, hanswer, hfound⟩ := List.mem_filterMap.mp hserved
  dsimp only at hfound
  split at hfound
  · obtain rfl := Option.some.inj hfound
    exact ⟨_, hanswer⟩
  · simp at hfound

/-- The queries that a node answers with a result while it takes an input. -/
def Node.serves {L σ : Type} [LogStore L] [StateMachine σ] (node : Node L σ)
    (input : Input) : List Ticket :=
  match node.step input with
  | .ok (_, after) => servedOf after.answers
  | .error _ => []

namespace Run

open FaithfulLog

variable {L σ : Type} [LogStore L] [StateMachine σ]

/-- At a time a node answers a query with a result. -/
def Answers (run : Run L σ) (time : Nat) (id : NodeId) (ticket : Ticket) :
    Prop :=
  ∃ input output after result, run.Takes time id input output after ∧
    (ticket, .query (.ok result)) ∈ after.answers

/-- A peer answered a broadcast of a term, and before `time` the node was given
the answer. -/
def Counted (run : Run L σ) (time : Nat) (id : NodeId) (term : Nat)
    (peer : NodeId) (round : Nat) : Prop :=
  ∃ arrival appended, arrival < time ∧
    run.Given arrival id (.appendResponse peer (.ok appended)) ∧
    appended.term = term ∧ appended.round = round

/-- Before `time` and in a term a node was asked a query, which waits for the
next broadcast if it has to be fresh. -/
def Asked (run : Run L σ) (time : Nat) (id : NodeId) (query : PendingQuery)
    (term : Nat) : Prop :=
  ∃ since, since < time ∧ run.Given since id (.query query.ticket query.request) ∧
    (run.node since id).term = term ∧
    (Node.isFresh query = true → ∃ leadership,
      (run.node since id).leadership = some leadership ∧
        query.round = leadership.round + 1)

/-- Between `since` and `time` a member takes a request that the leader sent
after `since`, both in the term in which the leader is at `since`. -/
def Heeds (run : Run L σ) (since time : Nat) (leader voter : NodeId) : Prop :=
  ∃ arrival request, since < arrival ∧ arrival < time ∧
    run.happenings[arrival]? =
      some (.delivery ⟨leader, voter, .append request⟩) ∧
    ⟨leader, voter, .append request⟩ ∉ (run.network since).sent ∧
    request.term = (run.node since leader).term ∧
    (run.node (arrival + 1) voter).term = (run.node since leader).term

/-- By `time` the leader has been given an answer of its term that echoes a
request of an earlier term, whose round is past that of the leader at
`since`. -/
def Echoes (run : Run L σ) (since time : Nat) (leader voter : NodeId) : Prop :=
  ∃ arrival counting request appended, arrival < counting ∧
    counting ≤ time ∧
    run.happenings[arrival]? =
      some (.delivery ⟨leader, voter, .append request⟩) ∧
    run.Given counting leader (.appendResponse voter (.ok appended)) ∧
    request.term < (run.node since leader).term ∧
    appended.term = (run.node since leader).term ∧
    appended.round = request.round ∧
    ∀ leadership, (run.node since leader).leadership = some leadership →
      leadership.round < request.round

variable {run : Run L σ} {time : Nat} {id : NodeId}

theorem answers_of_serves {input : Input} {ticket : Ticket}
    (hgiven : run.Given time id input)
    (hserves : ticket ∈ (run.node time id).serves input) :
    run.Answers time id ticket := by
  unfold Node.serves at hserves
  split at hserves
  · rename_i output after hstep
    obtain ⟨result, hanswer⟩ := mem_servedOf.mp hserves
    exact ⟨input, output, after, result, ⟨hgiven, hstep⟩, hanswer⟩
  · simp at hserves

omit [LogStore L] [StateMachine σ] in
theorem Counted.later {term round : Nat} {peer : NodeId}
    (hcounted : run.Counted time id term peer round) :
    run.Counted (time + 1) id term peer round := by
  obtain ⟨arrival, appended, hlt, hrest⟩ := hcounted
  exact ⟨arrival, appended, Nat.lt_succ_of_lt hlt, hrest⟩

theorem Asked.later {query : PendingQuery} {term : Nat}
    (hasked : run.Asked time id query term) :
    run.Asked (time + 1) id query term := by
  obtain ⟨since, hlt, hrest⟩ := hasked
  exact ⟨since, Nat.lt_succ_of_lt hlt, hrest⟩

variable [FaithfulLog L]

/-- The notes of a node once a step has begun, and what the rest of the step
may take note of. -/
theorem watched_opens {input given : Input} {start : Standing σ}
    (hwatched : Watched (run.Counted time id) (run.Asked time id)
      (run.network time).sent (run.standing time id))
    (hgiven : run.Given time id input)
    (hopens : (run.standing time id).Opens input given start) :
    Watched (run.Counted (time + 1) id) (run.Asked (time + 1) id)
        (run.network time).sent start ∧
      (∀ ticket request, given ≠ .query ticket request) ∧
      ∀ peer appended, given = .appendResponse peer (.ok appended) →
        run.Counted (time + 1) id appended.term peer appended.round := by
  refine ⟨hwatched.opens hopens (fun _ _ _ => Counted.later)
    (fun _ _ => Asked.later) ?_, ?_, ?_⟩
  · rintro query rfl hround
    refine ⟨time, Nat.lt_succ_self time, hgiven, rfl, fun hfresh => ?_⟩
    obtain ⟨bare, hbare, hnext⟩ := hround hfresh
    obtain ⟨leadership, hleadership, rfl⟩ := Option.map_eq_some_iff.mp hbare
    exact ⟨leadership, hleadership, hnext⟩
  · cases hopens with
    | other hinput => exact hinput
    | refuse _ _ => simp
    | ask _ _ => simp
  · rintro peer appended rfl
    cases hopens
    exact ⟨time, appended, Nat.lt_succ_self time, hgiven, rfl, rfl⟩

/-- What a node notes of its broadcasts and queries is true at any time, and
nothing waits to be taken from it. -/
theorem Valid.watched (hvalid : run.Valid) (hstores : run.Stores True)
    (hid : id ∈ run.members) (time : Nat) :
    Watched (run.Counted time id) (run.Asked time id) (run.network time).sent
        (run.standing time id) ∧
      (run.standing time id).served = [] := by
  induction time with
  | zero =>
      obtain ⟨stored, entries, machine, hstanding⟩ :=
        hvalid.scene_begins.begins id hid
      change run.standing 0 id = _ at hstanding
      rw [hstanding, network_zero, hvalid.silent]
      exact ⟨.start (by simp), rfl⟩
  | succ time ih =>
      obtain ⟨hwatched, hserved⟩ := ih
      have hname := (hvalid.members_eq time hid).1
      cases hvalid.fares time id with
      | idle hstanding hsent =>
          rw [hstanding]
          refine ⟨?_, hserved⟩
          refine Watched.retell (hwatched.mono (fun _ _ _ => Counted.later)
            (fun _ _ => Asked.later)) ?_
          rintro request (⟨receiver, hnew⟩ | hmail)
          · exact Or.inl ⟨receiver, hsent _ hnew hname⟩
          · exact Or.inr hmail
      | restarted hstanding hsent =>
          rw [hstanding, hsent]
          refine ⟨.start (fun receiver request hrequest => ?_), rfl⟩
          have htold := hwatched.told request
            (Or.inl ⟨receiver, hname.symm ▸ hrequest⟩)
          rwa [← hwatched.stored] at htold
      | taken htakes hstanding hsent =>
          rw [hstanding]
          refine ⟨?_, rfl⟩
          obtain ⟨given, start, hopens, hmoves⟩ := Node.step_opens htakes.2
            ((hvalid.sane time).fit (hstores time) hid)
          obtain ⟨hstart, hquery, hcount⟩ :=
            watched_opens hwatched htakes.1 hopens
          have hafter := hmoves.watched trivial hstart hquery hcount
          apply hafter.retell
          rintro request (⟨receiver, hnew⟩ | ⟨receiver, hmail⟩)
          · rcases hsent _ hnew with hold | hposted | ⟨delivered, -, -, hreply⟩
            · exact Or.inl ⟨receiver, hold⟩
            · rcases Network.mail_of_mem_posted hposted with
                ⟨_, hpacket⟩ | ⟨_, hpacket, hmail⟩
              · simp at hpacket
              · obtain rfl := Packet.append.inj hpacket
                exact Or.inr ⟨receiver, hmail⟩
            · unfold Envelope.reply? at hreply
              split at hreply <;> simp at hreply
          · simp at hmail

/-- Where votes are stored, no member returns to an earlier term. -/
theorem Valid.term_le (hvalid : run.Valid) (hstores : run.Stores True)
    (hid : id ∈ run.members) {first second : Nat} (hle : first ≤ second) :
    (run.node first id).term ≤ (run.node second id).term := by
  induction hle with
  | refl => exact Nat.le_refl _
  | @step second _ ih =>
      apply Nat.le_trans ih
      change (run.standing second id).term ≤ (run.standing (second + 1) id).term
      cases hvalid.fares second id with
      | idle hstanding _ =>
          exact Nat.le_of_eq (congrArg Standing.term hstanding.symm)
      | restarted hstanding _ =>
          rw [hstanding]
          exact Nat.le_of_eq (hvalid.watched hstores hid second).1.stored.symm
      | taken htakes hstanding _ =>
          rw [hstanding]
          exact (Network.taken (hvalid.sane second) (hstores second) hid
            htakes.2).2.2.term_le

/-- What a peer's answer to a broadcast tells of the peer. -/
theorem Counted.cases (hvalid : run.Valid) (hstores : run.Stores True)
    (hid : id ∈ run.members) {since round : Nat} {voter : NodeId}
    (hcounted : run.Counted (time + 1) id (run.node since id).term voter round)
    (hround : ∀ leadership, (run.node since id).leadership = some leadership →
      leadership.round < round)
    (hleads : ∃ leadership, (run.node since id).leadership = some leadership) :
    run.Heeds since time id voter ∨ run.Echoes since time id voter := by
  obtain ⟨counting, appended, hcounting, hgiven, hterm, rfl⟩ := hcounted
  obtain ⟨arrival, request, hlt, hdelivery, hvoter, hecho, hle⟩ :=
    hvalid.answered (hvalid.answer_sent hgiven)
  rw [hterm] at hvoter hle
  rcases Nat.lt_or_eq_of_le hle with hstale | hsame
  · exact Or.inr ⟨arrival, counting, request, appended, hlt, by omega,
      hdelivery, hgiven, hstale, hterm, hecho, fun leadership hleadership =>
        hecho ▸ hround leadership hleadership⟩
  · -- A request of this round was not yet sent at `since`.
    have hnew : ⟨id, voter, .append request⟩ ∉ (run.network since).sent := by
      intro hsent
      obtain ⟨leadership, hleadership⟩ := hleads
      have hwatched := (hvalid.watched hstores hid since).1
      have hname := (hvalid.members_eq since hid).1
      have hearlier := hwatched.rounds leadership.bare
        (by
          change (run.node since id).leadership.map Leadership.bare = _
          rw [hleadership]
          rfl) request (Or.inl ⟨voter, hname.symm ▸ hsent⟩) hsame
      have hlater := hround leadership hleadership
      rw [hecho] at hlater
      exact absurd (Nat.lt_of_lt_of_le hlater hearlier) (Nat.lt_irrefl _)
    refine Or.inl ⟨arrival, request, ?_, by omega, hdelivery, hnew, hsame,
      hvoter.symm⟩
    by_contra hearly
    exact hnew (run.sent_subset (Nat.le_of_not_lt hearly)
      (hvalid.possible arrival _ hdelivery).1)

/-- Who is told a result has asked for it, and if the query has to be fresh, the
leader's term is still that of the asking, and of a quorum everyone but the
leader itself has taken a request that was sent since, or has given an answer
that echoes a request of an earlier term.  Without such echoes the quorum
cannot have left the term before. -/
theorem read_freshness (hvalid : run.Valid)
    (hstores : ∀ time, ∀ id ∈ run.members, StoresVotes (run.node time id).log)
    {ticket : Ticket} (hanswers : run.Answers time id ticket) :
    ∃ since request, since ≤ time ∧
      run.Given since id (.query ticket request) ∧
      (request.consistency = .linearizable →
        (run.node time id).term = (run.node since id).term ∧
        Majority run.members (fun voter => voter = id ∨
          run.Heeds since time id voter ∨ run.Echoes since time id voter) ∧
        ((∀ voter, ¬run.Echoes since time id voter) →
          Majority run.members (fun voter =>
            voter = id ∨ run.Heeds since time id voter) ∧
          ¬Majority run.members (fun voter =>
            (run.node since id).term < (run.node since voter).term))) := by
  have hstores : run.Stores True := fun time _ => hstores time
  obtain ⟨input, output, after, result, htakes, hanswer⟩ := hanswers
  obtain ⟨-, -, -, -, hid, -⟩ := hvalid.takes htakes
  obtain ⟨hwatched, hserved⟩ := hvalid.watched hstores hid time
  obtain ⟨given, start, hopens, hmoves⟩ := Node.step_opens htakes.2
    ((hvalid.sane time).fit (hstores time) hid)
  obtain ⟨hstart, hquery, hcount⟩ := watched_opens hwatched htakes.1 hopens
  have hticket : ticket ∈ after.standing.served :=
    mem_servedOf.mpr ⟨result, hanswer⟩
  obtain ⟨hname, hmembers⟩ := hvalid.members_eq time hid
  obtain ⟨hstartId, hstartMembers, hstartTerm, hstartServed⟩ :
      start.id = id ∧ start.members = run.members ∧
        start.term = (run.node time id).term ∧ start.served = [] := by
    cases hopens <;> exact ⟨hname, hmembers, rfl, hserved⟩
  rcases hmoves.served hticket with hold |
    ⟨middle, hbefore, query, hwaits, rfl, hconfirmed⟩
  · rw [hstartServed] at hold
    simp at hold
  have hmiddle := hbefore.watched trivial hstart hquery hcount
  have hmiddleId := hbefore.id_eq.trans hstartId
  have hmiddleMembers := hbefore.members_eq.trans hstartMembers
  obtain ⟨term, ⟨since, hsince, hasked, rfl, hround⟩, hfresh⟩ :=
    hmiddle.confirmed (hmiddleMembers ▸ hvalid.distinct)
      (by rw [hmiddleId, hmiddleMembers]; exact hid) hwaits hconfirmed
  refine ⟨since, query.request, Nat.le_of_lt_succ hsince, hasked, fun hkind => ?_⟩
  have hisFresh : Node.isFresh query = true := decide_eq_true hkind
  obtain ⟨hterm, hquorum⟩ := hfresh hisFresh
  rw [hmiddleId, hmiddleMembers] at hquorum
  obtain ⟨leadership, hleadership, hnext⟩ := hround hisFresh
  have hsameTerm : (run.node time id).term = (run.node since id).term := by
    have hfirst := hvalid.term_le hstores hid (Nat.le_of_lt_succ hsince)
    have hsecond := hbefore.term_le
    omega
  have hall : Majority run.members (fun voter => voter = id ∨
      run.Heeds since time id voter ∨ run.Echoes since time id voter) := by
    refine hquorum.mono (fun voter _ => Or.imp_right ?_)
    rintro ⟨round, hle, hcounted⟩
    refine hcounted.cases hvalid hstores hid (fun other hother => ?_)
      ⟨leadership, hleadership⟩
    obtain rfl := Option.some.inj (hleadership.symm.trans hother)
    omega
  refine ⟨hsameTerm, hall, fun hnone => ?_⟩
  have hheeded := hall.mono (fun voter _ =>
    Or.imp_right (fun h => h.resolve_right (hnone voter)))
  refine ⟨hheeded, fun hleft => ?_⟩
  obtain ⟨voter, hvoter, hheeds, hlater⟩ := hheeded.inter hleft
  rcases hheeds with rfl | ⟨arrival, _, hlt, -, -, -, -, hvoterTerm⟩
  · exact absurd hlater (Nat.lt_irrefl _)
  · have hkept := hvalid.term_le hstores hvoter
      (show since ≤ arrival + 1 by omega)
    omega

end Run

namespace Witness

open FaithfulLog

/-- What the leader of the first term has in its log. -/
def earlyEntries : List LogEntry :=
  [⟨1, 1, .noOp⟩, ⟨1, 2, .register 7 60000 0⟩]

theorem numbered_earlyEntries : Numbered earlyEntries := by
  intro place entry hentry
  rcases place with _ | _ | place
  all_goals simp only [earlyEntries, List.getElem?_cons_succ,
    List.getElem?_cons_zero, List.getElem?_nil, Option.some.injEq,
    reduceCtorEq] at hentry
  all_goals subst hentry
  all_goals rfl

/-- A query that has to be fresh. -/
def freshQuery : QueryRequest := ⟨2, 0, .linearizable, [5]⟩

/-- A run in which a query is answered once a follower has taken the request
that was sent for it. -/
def confirmed : Run MemoryLog Tally where
  members := [1, 2, 3]
  start := { nodes := member .empty .start, sent := [] }
  happenings := [
    .input 1 .electionTimeout,
    .delivery ⟨1, 2, .vote ⟨1, 1, 0, 0⟩⟩,
    .delivery ⟨2, 1, .voteResponse (.ok ⟨1, true⟩)⟩,
    .input 1 (.register 1 ⟨7, 60000⟩),
    .delivery ⟨1, 2, .append ⟨1, 1, 0, 0, earlyEntries, 0, 2⟩⟩,
    .delivery ⟨2, 1, .appendResponse (.ok ⟨1, true, 2, 2⟩)⟩,
    .input 1 (.query 9 freshQuery),
    .delivery ⟨1, 2, .append ⟨1, 1, 2, 1, [], 2, 3⟩⟩,
    .delivery ⟨2, 1, .appendResponse (.ok ⟨1, true, 2, 3⟩)⟩]

theorem confirmed_valid : confirmed.Valid where
  distinct := by decide
  begins := fun id _ => ⟨{}, .empty, .start, numbered_nil, rfl⟩
  silent := rfl
  possible := fun time happening hhappening => by
    rcases time with _ | _ | _ | _ | _ | _ | _ | _ | _ | time
    all_goals simp only [confirmed, List.getElem?_cons_succ,
      List.getElem?_cons_zero, List.getElem?_nil, Option.some.injEq,
      reduceCtorEq] at hhappening
    all_goals subst hhappening
    all_goals exact ⟨by decide, by decide⟩

/-- The query is answered, and a quorum has taken a request that was sent for
it. -/
theorem read_freshness_confirmed : confirmed.Valid ∧
    (∀ time, ∀ id ∈ confirmed.members,
      StoresVotes (confirmed.node time id).log) ∧
    confirmed.Answers 8 1 9 ∧
    Majority confirmed.members (fun voter =>
      voter = 1 ∨ confirmed.Heeds 6 8 1 voter) := by
  have hstores : ∀ time, ∀ id ∈ confirmed.members,
      StoresVotes (confirmed.node time id).log :=
    fun _ _ _ => MemoryLog.storesVotes _
  have hserves : (confirmed.node 8 1).serves
      (.appendResponse 2 (.ok ⟨1, true, 2, 3⟩)) = [9] := by cbv
  have hlast : confirmed.Given 8 1
      (.appendResponse 2 (.ok ⟨1, true, 2, 3⟩)) := rfl
  have hanswers : confirmed.Answers 8 1 9 :=
    Run.answers_of_serves hlast (by
      rw [hserves]
      exact List.mem_singleton_self 9)
  refine ⟨confirmed_valid, hstores, hanswers, ?_⟩
  obtain ⟨since, request, hle, hgiven, hfresh⟩ :=
    Run.read_freshness confirmed_valid hstores hanswers
  obtain ⟨rfl, rfl⟩ : since = 6 ∧ request = freshQuery := by
    rcases since with _ | _ | _ | _ | _ | _ | _ | _ | _ | since
    all_goals first | omega | skip
    all_goals simp [Run.Given, confirmed, Happening.input?, Envelope.input]
      at hgiven
    exact ⟨rfl, hgiven.symm⟩
  have hterm : (confirmed.node 6 1).term = 1 := by decide
  obtain ⟨-, -, hnone⟩ := hfresh rfl
  -- Every request of the run is of the first term, so nothing is echoed.
  refine (hnone ?_).1
  rintro voter ⟨arrival, _, request, _, -, -, hdelivery, -, hearlier, -⟩
  rw [hterm] at hearlier
  rcases arrival with _ | _ | _ | _ | _ | _ | _ | _ | _ | arrival
  all_goals simp [confirmed] at hdelivery
  all_goals
    obtain ⟨rfl, rfl⟩ := hdelivery
    simp at hearlier

/-- A request of the first term. -/
def earlyRequest : AppendRequest := ⟨1, 1, 0, 0, earlyEntries, 0, 3⟩

/-- A run in which a leader is elected again and counts the answer to a request
of its former term; then the two others elect another leader. -/
def echoed : Run MemoryLog Tally where
  members := [1, 2, 3]
  start := { nodes := member .empty .start, sent := [] }
  happenings := [
    .input 1 .electionTimeout,
    .delivery ⟨1, 2, .vote ⟨1, 1, 0, 0⟩⟩,
    .delivery ⟨2, 1, .voteResponse (.ok ⟨1, true⟩)⟩,
    .input 1 (.register 1 ⟨7, 60000⟩),
    .input 1 .heartbeat,
    .delivery ⟨1, 2, .append earlyRequest⟩,
    .restart 1 {} ⟨earlyEntries, 1, some 1⟩ .start,
    .input 1 .electionTimeout,
    .delivery ⟨1, 2, .vote ⟨2, 1, 2, 1⟩⟩,
    .delivery ⟨2, 1, .voteResponse (.ok ⟨2, true⟩)⟩,
    .delivery ⟨1, 2, .append ⟨2, 1, 2, 1, [⟨2, 3, .noOp⟩], 0, 1⟩⟩,
    .delivery ⟨2, 1, .appendResponse (.ok ⟨2, true, 3, 1⟩)⟩,
    .delivery ⟨1, 2, .append earlyRequest⟩,
    .delivery ⟨2, 1, .appendResponse (.ok ⟨2, false, 3, 3⟩)⟩,
    .input 2 .electionTimeout,
    .delivery ⟨2, 3, .vote ⟨3, 2, 3, 2⟩⟩,
    .input 1 (.query 9 freshQuery)]

theorem echoed_valid : echoed.Valid where
  distinct := by decide
  begins := fun id _ => ⟨{}, .empty, .start, numbered_nil, rfl⟩
  silent := rfl
  possible := fun time happening hhappening => by
    rcases time with _ | _ | _ | _ | _ | _ | _ | _ | _ | _ | _ | _ | _ | _ | _ |
      _ | _ | time
    all_goals simp only [echoed, List.getElem?_cons_succ,
      List.getElem?_cons_zero, List.getElem?_nil, Option.some.injEq,
      reduceCtorEq] at hhappening
    all_goals subst hhappening
    case succ.succ.succ.succ.succ.succ.zero =>
      exact ⟨by decide, numbered_earlyEntries, rfl⟩
    all_goals exact ⟨by decide, by decide⟩

/-- The query is answered at once, although nobody has taken a request that was
sent for it and a quorum has left the term before it arrived. -/
theorem read_freshness_echoed : echoed.Valid ∧
    (∀ time, ∀ id ∈ echoed.members, StoresVotes (echoed.node time id).log) ∧
    echoed.Given 16 1 (.query 9 freshQuery) ∧ echoed.Answers 16 1 9 ∧
    ¬Majority echoed.members (fun voter =>
      voter = 1 ∨ echoed.Heeds 16 16 1 voter) ∧
    Majority echoed.members (fun voter =>
      (echoed.node 16 1).term < (echoed.node 16 voter).term) := by
  have hserves : (echoed.node 16 1).serves (.query 9 freshQuery) = [9] := by
    cbv
  have hgiven : echoed.Given 16 1 (.query 9 freshQuery) := rfl
  refine ⟨echoed_valid, fun _ _ _ => MemoryLog.storesVotes _, hgiven,
    Run.answers_of_serves hgiven (by
      rw [hserves]
      exact List.mem_singleton_self 9), ?_,
    ⟨[2, 3], by decide, by decide, by decide, by decide⟩⟩
  rintro ⟨voters, hdistinct, -, hcount, hall⟩
  -- Nothing arrives between the query and its answer.
  have honly : voters ⊆ [1] := by
    intro voter hvoter
    rcases hall voter hvoter with rfl | ⟨arrival, _, hafter, hbefore, -⟩
    · exact List.mem_singleton_self 1
    · omega
  have hle := hdistinct.length_le_of_subset honly
  have htwo : echoed.members.length / 2 + 1 = 2 := by decide
  rw [htwo] at hcount
  exact absurd (Nat.le_trans hcount hle) (by decide)

end Witness

end SessionRaft
