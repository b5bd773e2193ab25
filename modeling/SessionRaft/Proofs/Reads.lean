/-
What a node knows of the answers to its broadcasts, and which queries it
answers: one that has to be fresh only if a quorum has answered a broadcast that
began no earlier than the query asks for.
-/
import SessionRaft.Proofs.Elections

namespace SessionRaft

/-- A value is reached at a place of a descending list if and only if more
elements reach it than stand before that place. -/
theorem lt_countP_iff_of_descending {rounds : List Nat} {value : Nat}
    (hsorted : rounds.Pairwise (fun left right => right ≤ left))
    (hpositive : 0 < value) (place : Nat) :
    place < rounds.countP (fun round => decide (value ≤ round)) ↔
      value ≤ rounds.getD place 0 := by
  induction rounds generalizing place with
  | nil =>
      simp only [List.countP_nil, List.getD_nil]
      omega
  | cons first rounds ih =>
      obtain ⟨hfirst, hrest⟩ := List.pairwise_cons.mp hsorted
      by_cases hreached : value ≤ first
      · rw [List.countP_cons_of_pos (by simpa using hreached)]
        cases place with
        | zero =>
            rw [List.getD_cons_zero]
            omega
        | succ place =>
            rw [List.getD_cons_succ, ← ih hrest place]
            omega
      · -- Nothing behind the first element is greater.
        have hnone : rounds.countP (fun round => decide (value ≤ round)) = 0 := by
          rw [List.countP_eq_zero]
          intro round hround
          have hle := hfirst round hround
          rw [decide_eq_true_eq]
          omega
        rw [List.countP_cons_of_neg (by simpa using hreached), hnone]
        cases place with
        | zero =>
            rw [List.getD_cons_zero]
            omega
        | succ place =>
            rw [List.getD_cons_succ, ← ih hrest place, hnone]
            omega

/-- The same of a list that is put into descending order. -/
theorem lt_countP_iff_mergeSort {rounds : List Nat} {value : Nat}
    (hpositive : 0 < value) (place : Nat) :
    place < rounds.countP (fun round => decide (value ≤ round)) ↔
      value ≤ (rounds.mergeSort
        (fun left right => decide (right ≤ left))).getD place 0 := by
  have hsorted : (rounds.mergeSort
      (fun left right => decide (right ≤ left))).Pairwise
      (fun left right => decide (right ≤ left) = true) :=
    List.pairwise_mergeSort
      (fun _ _ _ => by simp only [decide_eq_true_eq]; omega)
      (fun _ _ => by simp only [Bool.or_eq_true, decide_eq_true_eq]; omega) _
  rw [← lt_countP_iff_of_descending
    (hsorted.imp (fun hle => of_decide_eq_true hle)) hpositive place,
    (List.mergeSort_perm rounds _).countP_eq]

variable {σ : Type}

/-- A request with entries that a node has sent or has yet to send. -/
def Standing.Tells (sent : List Envelope) (standing : Standing σ)
    (request : AppendRequest) : Prop :=
  (∃ receiver, ⟨standing.id, receiver, .append request⟩ ∈ sent) ∨
    ∃ receiver, .append receiver request ∈ standing.mail

/-- The members of which the leader's own notes tell that they have answered a
broadcast. -/
theorem Standing.majority_of_confirmedRound {standing : Standing σ}
    {leadership : Leadership} (hleadership : standing.leadership = some leadership)
    (hdistinct : standing.members.Nodup) (hid : standing.id ∈ standing.members)
    {round : Nat} (hpositive : 0 < round)
    (hround : round ≤ standing.confirmedRound) :
    Majority standing.members (fun voter => voter = standing.id ∨
      round ≤ leadership.ackedRound.getD voter 0) := by
  simp only [Standing.confirmedRound, hleadership] at hround
  have hcount := (lt_countP_iff_mergeSort hpositive _).mpr hround
  let answered := standing.peers.filter (fun peer =>
    decide (round ≤ leadership.ackedRound.getD peer 0))
  have hmem : ∀ peer ∈ answered, peer ∈ standing.members ∧
      peer ≠ standing.id ∧ round ≤ leadership.ackedRound.getD peer 0 := by
    intro peer hpeer
    obtain ⟨hpeer, hround⟩ := List.mem_filter.mp hpeer
    obtain ⟨hmember, hne⟩ := List.mem_filter.mp hpeer
    exact ⟨hmember, bne_iff_ne.mp hne, of_decide_eq_true hround⟩
  refine ⟨standing.id :: answered, List.nodup_cons.mpr ⟨fun hself =>
    (hmem _ hself).2.1 rfl, (hdistinct.filter _).filter _⟩, ?_, ?_, ?_⟩
  · intro voter hvoter
    rcases List.mem_cons.mp hvoter with rfl | hvoter
    · exact hid
    · exact (hmem voter hvoter).1
  · rw [Standing.rounds, List.countP_cons, List.countP_map,
      List.countP_eq_length_filter] at hcount
    change _ < answered.length + _ at hcount
    simp only [Standing.quorum, Nat.add_sub_cancel] at hcount
    rw [List.length_cons]
    split at hcount <;> omega
  · intro voter hvoter
    rcases List.mem_cons.mp hvoter with rfl | hvoter
    · exact Or.inl rfl
    · exact Or.inr (hmem voter hvoter).2.2

/-- A node's notes on its broadcasts and on the queries that wait are true.
`counted` tells which rounds of which member it was told of in which term, and
`asked` in which term it was asked a query. -/
structure Watched (counted : Nat → NodeId → Nat → Prop)
    (asked : PendingQuery → Nat → Prop) (sent : List Envelope)
    (standing : Standing σ) : Prop where
  stored : standing.stored.1 = standing.term
  led : standing.leadership.isSome = true → standing.role = .leader
  told : ∀ request, standing.Tells sent request →
    request.term ≤ standing.term
  unled : standing.role = .candidate → ∀ request, standing.Tells sent request →
    request.term < standing.term
  rounds : ∀ leadership, standing.leadership = some leadership →
    ∀ request, standing.Tells sent request → request.term = standing.term →
      request.round ≤ leadership.round
  acked : ∀ leadership, standing.leadership = some leadership →
    ∀ peer round, leadership.ackedRound.get? peer = some round →
      counted standing.term peer round
  waits : ∀ query ∈ standing.queries, ∃ term, asked query term ∧
    (Node.isFresh query = true → term = standing.term ∧ 0 < query.round ∧
      standing.leadership.isSome = true)

section Static

variable {counted other : Nat → NodeId → Nat → Prop}
  {asked known : PendingQuery → Nat → Prop} {sent : List Envelope}
  {standing : Standing σ}

theorem Watched.mono (hwatched : Watched counted asked sent standing)
    (hcounted : ∀ term peer round, counted term peer round →
      other term peer round)
    (hasked : ∀ query term, asked query term → known query term) :
    Watched other known sent standing :=
  { hwatched with
    acked := fun leadership hleadership peer round hget =>
      hcounted _ _ _ (hwatched.acked leadership hleadership peer round hget)
    waits := fun query hquery => by
      obtain ⟨term, hterm, hfresh⟩ := hwatched.waits query hquery
      exact ⟨term, hasked _ _ hterm, hfresh⟩ }

/-- What a node says does not matter as long as it tells no further request. -/
theorem Watched.retell {further : List Envelope} {mail : List Outbound}
    {served : List Ticket} (hwatched : Watched counted asked sent standing)
    (htells : ∀ request,
      Standing.Tells further { standing with mail := mail } request →
        standing.Tells sent request) :
    Watched counted asked further
      { standing with mail := mail, served := served } :=
  { hwatched with
    told := fun request h => hwatched.told request (htells request h)
    unled := fun hrole request h =>
      hwatched.unled hrole request (htells request h)
    rounds := fun leadership hleadership request h =>
      hwatched.rounds leadership hleadership request (htells request h) }

/-- A node that begins on its log has nothing noted yet. -/
theorem Watched.start {id : NodeId} {members : List NodeId}
    {stored : Nat × Option NodeId} {entries : List LogEntry} {machine : σ}
    (htold : ∀ receiver request, ⟨id, receiver, .append request⟩ ∈ sent →
      request.term ≤ stored.1) :
    Watched counted asked sent
      (Standing.start id members stored entries machine) where
  stored := rfl
  led := by simp [Standing.start]
  told := by
    rintro request (⟨receiver, hsent⟩ | ⟨receiver, hmail⟩)
    · exact htold receiver request hsent
    · simp [Standing.start] at hmail
  unled := by simp [Standing.start]
  rounds := by simp [Standing.start]
  acked := by simp [Standing.start]
  waits := by simp [Standing.start]

/-- Without a leadership no query waits that has to be fresh. -/
theorem Watched.stale (hwatched : Watched counted asked sent standing)
    (hreleased : standing.Released) {query : PendingQuery}
    (hquery : query ∈ standing.queries) : ¬Node.isFresh query = true := by
  intro hfresh
  obtain ⟨_, -, hwaits⟩ := hwatched.waits query hquery
  rw [hreleased (hwaits hfresh).2.2 query hquery] at hfresh
  exact Bool.false_ne_true hfresh

/-- Queries that need not be fresh wait for no leadership. -/
theorem Watched.waits_stale (hwatched : Watched counted asked sent standing)
    (hreleased : standing.Released) {term : Nat}
    {leadership : Option Leadership} (query : PendingQuery)
    (hquery : query ∈ standing.queries) : ∃ since, asked query since ∧
      (Node.isFresh query = true → since = term ∧ 0 < query.round ∧
        leadership.isSome = true) := by
  obtain ⟨since, hsince, -⟩ := hwatched.waits query hquery
  exact ⟨since, hsince, fun hfresh =>
    absurd hfresh (hwatched.stale hreleased hquery)⟩

theorem Watched.unled_of_role (hwatched : Watched counted asked sent standing)
    (hrole : standing.role ≠ .leader) : standing.leadership = none := by
  cases hleadership : standing.leadership with
  | none => rfl
  | some leadership =>
      exact absurd (hwatched.led (by rw [hleadership]; rfl)) hrole

/-- A query that has to be fresh is answered once a quorum has answered its
broadcast in the term in which it was asked. -/
theorem Watched.confirmed (hwatched : Watched counted asked sent standing)
    (hdistinct : standing.members.Nodup) (hid : standing.id ∈ standing.members)
    {query : PendingQuery} (hquery : query ∈ standing.queries)
    (hround : query.round ≤ standing.confirmedRound) :
    ∃ term, asked query term ∧ (Node.isFresh query = true →
      term = standing.term ∧ Majority standing.members (fun voter =>
        voter = standing.id ∨
          ∃ round, query.round ≤ round ∧ counted term voter round)) := by
  obtain ⟨term, hasked, hwaits⟩ := hwatched.waits query hquery
  refine ⟨term, hasked, fun hfresh => ?_⟩
  obtain ⟨rfl, hpositive, hsome⟩ := hwaits hfresh
  obtain ⟨leadership, hleadership⟩ := Option.isSome_iff_exists.mp hsome
  refine ⟨rfl, (Standing.majority_of_confirmedRound hleadership hdistinct hid
    hpositive hround).mono (fun voter _ => Or.imp_right (fun hanswered => ?_))⟩
  cases hget : leadership.ackedRound.get? voter with
  | none =>
      rw [Table.getD, hget, Option.getD_none] at hanswered
      omega
  | some round =>
      rw [Table.getD, hget, Option.getD_some] at hanswered
      exact ⟨round, hanswered, hwatched.acked leadership hleadership voter
        round hget⟩

/-- What a leader has counted of the answers. -/
theorem Leadership.heed_ackedRound {leadership : Leadership}
    {peer voter : NodeId} {appended : Appended} {next last round : Nat}
    (hget : (leadership.heed peer appended next last).ackedRound.get? voter =
      some round) :
    leadership.ackedRound.get? voter = some round ∨
      voter = peer ∧ round = appended.round := by
  have hacked : (leadership.heed peer appended next last).ackedRound =
      leadership.ackedRound.insert peer
        (max (leadership.ackedRound.getD peer 0) appended.round) := by
    unfold Leadership.heed
    dsimp only
    split <;> rfl
  rw [hacked, Table.get?_insert] at hget
  split at hget
  · rename_i heq
    subst heq
    rw [Option.some.injEq, Table.getD] at hget
    cases hold : leadership.ackedRound.get? voter with
    | none =>
        rw [hold, Option.getD_none, Nat.zero_max] at hget
        exact Or.inr ⟨rfl, hget.symm⟩
    | some known =>
        rw [hold, Option.getD_some] at hget
        rcases Nat.le_total appended.round known with hle | hle
        · exact Or.inl (by rw [← hget, Nat.max_eq_left hle])
        · exact Or.inr ⟨rfl, by rw [← hget, Nat.max_eq_right hle]⟩
  · exact Or.inl hget

theorem Leadership.heed_round (leadership : Leadership) (peer : NodeId)
    (appended : Appended) (next last : Nat) :
    (leadership.heed peer appended next last).round = leadership.round := by
  unfold Leadership.heed
  dsimp only
  split <;> rfl

/-- A query that was just asked waits. -/
theorem Watched.ask (hwatched : Watched counted asked sent standing)
    {query : PendingQuery} (hasked : asked query standing.term)
    (hround : Node.isFresh query = true → ∃ leadership,
      standing.leadership = some leadership ∧
        query.round = leadership.round + 1) :
    Watched counted asked sent
      { standing with queries := standing.queries ++ [query] } :=
  { hwatched with
    waits := fun other hother => by
      rcases List.mem_append.mp hother with hother | hother
      · exact hwatched.waits other hother
      · obtain rfl := List.mem_singleton.mp hother
        refine ⟨_, hasked, fun hfresh => ⟨rfl, ?_⟩⟩
        obtain ⟨leadership, hleadership, hnext⟩ := hround hfresh
        exact ⟨by omega, by simp only [hleadership, Option.isSome_some]⟩ }

end Static

variable [StateMachine σ] {steady : Prop} {input : Input}
  {before middle after : Standing σ} {sent : List Envelope}
  {counted : Nat → NodeId → Nat → Prop} {asked : PendingQuery → Nat → Prop}

omit [StateMachine σ] in
theorem Watched.adopt (hwatched : Watched counted asked sent before)
    {term : Nat} (hterm : before.term < term) {stored : Nat × Option NodeId}
    (hstored : stored.1 = term) (hreleased : before.Released) :
    Watched counted asked sent { before with
      term := term
      votedFor := none
      role := .follower
      votes := []
      stored := stored
      leadership := none } where
  stored := hstored
  led := by simp
  told := fun request htells => Nat.le_of_lt
    (Nat.lt_of_le_of_lt (hwatched.told request htells) hterm)
  unled := by simp
  rounds := by simp
  acked := by simp
  waits := hwatched.waits_stale hreleased

omit [StateMachine σ] in
theorem Watched.stand (hwatched : Watched counted asked sent before)
    (hleadership : before.leadership = none) :
    Watched counted asked sent { before with
      term := before.term + 1
      votedFor := some before.id
      role := .candidate
      votes := [before.id]
      stored := (before.term + 1, some before.id)
      mail := before.mail ++ before.peers.map (fun peer =>
        .vote peer { before.voteRequest with term := before.term + 1 }) } := by
  have htold : ∀ request, Standing.Tells sent { before with
      mail := before.mail ++ before.peers.map (fun peer =>
        .vote peer { before.voteRequest with term := before.term + 1 }) }
        request → request.term < before.term + 1 := by
    intro request htells
    apply Nat.lt_succ_of_le
    apply hwatched.told request
    rcases htells with hsent | ⟨receiver, hmail⟩
    · exact Or.inl hsent
    · refine Or.inr ⟨receiver, ?_⟩
      simpa using hmail
  exact {
    stored := rfl
    led := by simp [hleadership]
    told := fun request htells => Nat.le_of_lt (htold request htells)
    unled := fun _ => htold
    rounds := by simp [hleadership]
    acked := by simp [hleadership]
    waits := hwatched.waits_stale (by
      intro hsome
      simp [hleadership] at hsome) }

omit [StateMachine σ] in
theorem Watched.lead (hwatched : Watched counted asked sent before)
    (hrole : before.role = .candidate) :
    Watched counted asked sent before.led := by
  have hnone := hwatched.unled_of_role (by simp [hrole])
  exact { hwatched with
    led := fun _ => rfl
    unled := by simp [Standing.led]
    rounds := fun leadership _ request htells hterm =>
      absurd hterm (Nat.ne_of_lt (hwatched.unled hrole request htells))
    acked := fun leadership hleadership peer round hget => by
      obtain rfl := Option.some.inj hleadership
      simp [Standing.newLeadership] at hget
    waits := hwatched.waits_stale (by
      intro hsome
      simp [hnone] at hsome) }

omit [StateMachine σ] in
/-- A leadership may change as long as its round does not fall and what it
counts was counted. -/
theorem Watched.lead_on (hwatched : Watched counted asked sent before)
    {leadership other : Leadership}
    (hleadership : before.leadership = some leadership)
    (hround : leadership.round ≤ other.round)
    (hacked : ∀ peer round, other.ackedRound.get? peer = some round →
      leadership.ackedRound.get? peer = some round ∨
        counted before.term peer round) :
    Watched counted asked sent { before with leadership := some other } := by
  have hrole := hwatched.led (by rw [hleadership]; rfl)
  exact { hwatched with
    led := fun _ => hrole
    rounds := fun known heq request htells hsame => by
      obtain rfl := Option.some.inj heq
      exact Nat.le_trans
        (hwatched.rounds leadership hleadership request htells hsame) hround
    acked := fun known heq peer round hget => by
      obtain rfl := Option.some.inj heq
      exact (hacked peer round hget).elim
        (hwatched.acked leadership hleadership peer round) id
    waits := fun query hquery => by
      obtain ⟨term, hterm, hfresh⟩ := hwatched.waits query hquery
      exact ⟨term, hterm, fun h => ⟨(hfresh h).1, (hfresh h).2.1, rfl⟩⟩ }

omit [StateMachine σ] in
theorem Watched.post (hwatched : Watched counted asked sent before)
    {leadership : Leadership} (hleadership : before.leadership = some leadership)
    (peer : NodeId) (limit : Nat) :
    Watched counted asked sent { before with
      mail := before.mail ++
        [.append peer (before.appendRequest leadership peer limit)] } := by
  have hrole := hwatched.led (by rw [hleadership]; rfl)
  have hcases : ∀ request, Standing.Tells sent { before with
      mail := before.mail ++
        [.append peer (before.appendRequest leadership peer limit)] }
        request → before.Tells sent request ∨
          request = before.appendRequest leadership peer limit := by
    intro request htells
    rcases htells with hsent | ⟨receiver, hmail⟩
    · exact Or.inl (Or.inl hsent)
    · rcases List.mem_append.mp hmail with hmail | hmail
      · exact Or.inl (Or.inr ⟨receiver, hmail⟩)
      · have heq := List.mem_singleton.mp hmail
        exact Or.inr (Outbound.append.inj heq).2
  exact { hwatched with
    told := fun request htells => by
      rcases hcases request htells with hold | rfl
      · exact hwatched.told request hold
      · exact Nat.le_refl _
    unled := by simp [hrole]
    rounds := fun other heq request htells hsame => by
      rcases hcases request htells with hold | rfl
      · exact hwatched.rounds other heq request hold hsame
      · obtain rfl := Option.some.inj (hleadership.symm.trans heq)
        exact Nat.le_refl _ }

/-- A move other than asking a query leaves a node's notes true, if the answers
that it takes are counted. -/
theorem Move.watched (hsteady : steady)
    (hwatched : Watched counted asked sent before)
    (hmove : Move steady input before after)
    (hinput : ∀ ticket request, input ≠ .query ticket request)
    (hcount : ∀ peer appended, input = .appendResponse peer (.ok appended) →
      counted appended.term peer appended.round) :
    Watched counted asked sent after := by
  cases hmove with
  | adopt hterm hstored hreleased =>
      rcases hstored with rfl | ⟨hnot, -⟩
      · exact hwatched.adopt hterm rfl hreleased
      · exact absurd hsteady hnot
  | yield hreleased =>
      exact { hwatched with
        led := by simp
        unled := by simp
        rounds := by simp
        acked := by simp
        waits := hwatched.waits_stale hreleased }
  | retire hqueries =>
      exact { hwatched with
        led := by simp
        rounds := by simp
        acked := by simp
        waits := by simp [hqueries] }
  | stand hleadership => exact hwatched.stand hleadership
  | grant _ _ _ _ => exact { hwatched with stored := rfl }
  | lead hrole _ => exact hwatched.lead hrole
  | heed hpeer hterm _ hleadership _ =>
      apply hwatched.lead_on hleadership
      · exact Nat.le_of_eq (Leadership.heed_round _ _ _ _ _).symm
      · intro voter round hget
        apply (Leadership.heed_ackedRound hget).imp_right
        rintro ⟨rfl, rfl⟩
        exact hterm ▸ hcount _ _ hpeer
  | round hleadership =>
      exact hwatched.lead_on hleadership (Nat.le_succ _)
        (fun _ _ hget => Or.inl hget)
  | post peer limit hleadership => exact hwatched.post hleadership peer limit
  | @ask ticket request query hquery _ _ _ =>
      exact absurd hquery (hinput ticket request)
  | forgo hqueries =>
      exact { hwatched with
        waits := fun query hquery => hwatched.waits query (hqueries hquery) }
  | serve hqueries _ =>
      exact { hwatched with
        waits := fun query hquery => hwatched.waits query (hqueries hquery) }
  | _ => exact { hwatched with }

theorem Moves.watched (hsteady : steady)
    (hwatched : Watched counted asked sent before)
    (hmoves : Moves steady input before after)
    (hinput : ∀ ticket request, input ≠ .query ticket request)
    (hcount : ∀ peer appended, input = .appendResponse peer (.ok appended) →
      counted appended.term peer appended.round) :
    Watched counted asked sent after := by
  induction hmoves with
  | refl => exact hwatched
  | tail _ hmove ih => exact hmove.watched hsteady ih hinput hcount

/-- What a step begins with.  A query waits before anything moves, or it is
refused and nothing has moved; any other input begins with nothing. -/
inductive Standing.Opens (standing : Standing σ) :
    Input → Input → Standing σ → Prop where
  | other {input : Input}
      (hinput : ∀ ticket request, input ≠ .query ticket request) :
      Opens standing input input standing
  | refuse (ticket : Ticket) (request : QueryRequest) :
      Opens standing (.query ticket request) .heartbeat standing
  | ask (query : PendingQuery)
      (hround : Node.isFresh query = true → ∃ leadership,
        standing.leadership = some leadership ∧
          query.round = leadership.round + 1) :
      Opens standing (.query query.ticket query.request) .heartbeat
        { standing with queries := standing.queries ++ [query] }

theorem Node.step_opens {L : Type} [LogStore L] [FaithfulLog L]
    {node next : Node L σ} {output : Output}
    (hstep : node.step input = .ok (output, next))
    (hlog : Fit steady node.log) :
    ∃ given start, node.standing.Opens input given start ∧
      Moves steady given start next.standing := by
  cases input with
  | query ticket request =>
      obtain ⟨-, rfl⟩ := Prod.mk.inj (Except.ok.inj hstep)
      unfold Node.submitQuery
      split
      · rename_i hconsistency
        refine ⟨_, _, .ask ⟨request.index, 0, request, ticket⟩
          (fun hfresh => ?_), (Node.proceeds_waiting node _ hlog).2⟩
        simp [Node.isFresh, hconsistency] at hfresh
      · exact ⟨_, _, .refuse ticket request,
          ((Node.quiet_answer node ticket (by simp)).proceeds hlog).2⟩
      · rename_i leadership _ hleadership
        refine ⟨_, _, .ask ⟨max (max node.commitIndex
          leadership.noopIndex) request.index, leadership.round + 1, request,
          ticket⟩ (fun _ => ⟨leadership.bare, ?_, rfl⟩),
          (Node.proceeds_waiting node _ hlog).2⟩
        simp only [Node.standing, hleadership, Option.map_some]
  | _ => exact ⟨_, _, .other (by simp), (Node.step_proceeds hstep hlog).2⟩

omit [StateMachine σ] in
/-- What is noted stays true when a step begins. -/
theorem Watched.opens {other : Nat → NodeId → Nat → Prop}
    {known : PendingQuery → Nat → Prop} {given : Input}
    (hwatched : Watched counted asked sent before)
    (hopens : before.Opens input given middle)
    (hcounted : ∀ term peer round, counted term peer round →
      other term peer round)
    (hasked : ∀ query term, asked query term → known query term)
    (hquery : ∀ query : PendingQuery,
      input = .query query.ticket query.request →
      (Node.isFresh query = true → ∃ leadership,
        before.leadership = some leadership ∧
          query.round = leadership.round + 1) →
      known query before.term) :
    Watched other known sent middle := by
  have hmono := hwatched.mono hcounted hasked
  cases hopens with
  | other _ => exact hmono
  | refuse _ _ => exact hmono
  | ask query hround => exact hmono.ask (hquery query rfl hround) hround

theorem Moves.term_le (hmoves : Moves steady input before after) :
    before.term ≤ after.term := by
  induction hmoves with
  | refl => exact Nat.le_refl _
  | @tail middle last _ hmove ih =>
      have hle : middle.term ≤ last.term := by
        cases hmove with
        | adopt hterm _ _ => exact Nat.le_of_lt hterm
        | stand _ => exact Nat.le_succ _
        | _ => exact Nat.le_refl _
      exact Nat.le_trans ih hle

/-- A query that is answered on the way waits until then, and its broadcast has
been answered. -/
theorem Moves.served (hmoves : Moves steady input before after)
    {ticket : Ticket} (hticket : ticket ∈ after.served) :
    ticket ∈ before.served ∨ ∃ middle, Moves steady input before middle ∧
      ∃ query ∈ middle.queries, query.ticket = ticket ∧
        query.round ≤ middle.confirmedRound := by
  induction hmoves with
  | refl => exact Or.inl hticket
  | @tail middle last hbefore hmove ih =>
      have hcases : ticket ∈ middle.served ∨ ∃ query ∈ middle.queries,
          query.ticket = ticket ∧ query.round ≤ middle.confirmedRound := by
        cases hmove with
        | serve _ htickets =>
            rcases List.mem_append.mp hticket with hold | hnew
            · exact Or.inl hold
            · exact Or.inr (htickets ticket hnew)
        | _ => exact Or.inl hticket
      rcases hcases with hold | hnew
      · exact ih hold
      · exact Or.inr ⟨middle, hbefore, hnew⟩

end SessionRaft
