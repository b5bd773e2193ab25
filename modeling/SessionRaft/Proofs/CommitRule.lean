/-
The rule by which a leader commits.  It commits up to the highest entry of its
own term that it and enough of its peers hold, whatever the terms of the
entries below; entries of earlier terms are never committed on their own.
-/
import Mathlib.Data.Finset.Card
import Mathlib.Order.Bounds.Basic
import SessionRaft.ByteProgram
import SessionRaft.Proofs.Beliefs

namespace SessionRaft

/-- Of ascending numbers, those in front of the first that fails a test are
those that pass it, if the test holds below whatever passes it. -/
theorem takeWhile_eq_filter {numbers : List Nat} {test : Nat → Bool}
    (hascending : numbers.Pairwise (fun left right => left < right))
    (htest : ∀ {lower upper : Nat}, lower ≤ upper → test upper = true →
      test lower = true) : numbers.takeWhile test = numbers.filter test := by
  induction numbers with
  | nil => rfl
  | cons number numbers ih =>
      rw [List.pairwise_cons] at hascending
      obtain ⟨hlower, hrest⟩ := hascending
      by_cases hpasses : test number = true
      · rw [List.takeWhile_cons_of_pos hpasses,
          List.filter_cons_of_pos hpasses, ih hrest]
      · rw [List.takeWhile_cons_of_neg hpasses,
          List.filter_cons_of_neg hpasses, eq_comm, List.filter_eq_nil_iff]
        exact fun upper hupper habove =>
          hpasses (htest (Nat.le_of_lt (hlower upper hupper)) habove)

/-- The last of ascending numbers is the greatest. -/
theorem isGreatest_of_getLast? {numbers : List Nat} {last : Nat}
    (hascending : numbers.Pairwise (fun left right => left < right))
    (hlast : numbers.getLast? = some last) :
    IsGreatest { number | number ∈ numbers } last := by
  refine ⟨List.mem_of_getLast? hlast, fun number hnumber => ?_⟩
  obtain ⟨init, rfl⟩ := List.getLast?_eq_some_iff.mp hlast
  obtain ⟨-, -, hbelow⟩ := List.pairwise_append.mp hascending
  rcases List.mem_append.mp hnumber with hinit | hnumber
  · exact Nat.le_of_lt (hbelow number hinit last (List.mem_singleton_self last))
  · exact Nat.le_of_eq (List.mem_singleton.mp hnumber)

namespace Node

variable {L σ : Type} {node : Node L σ} {leadership : Leadership}
  {index : Nat}

/-! ### Who holds an entry -/

/-- The peers that a leader believes to hold its log up to an index. -/
def reached (leadership : Leadership) (index : Nat) : Finset NodeId :=
  ((leadership.matchIndex.rows.filter
    (fun row => decide (index ≤ row.2))).map Prod.fst).toFinset

theorem mem_reached {peer : NodeId} : peer ∈ reached leadership index ↔
    ∃ matched, leadership.matchIndex.get? peer = some matched ∧
      index ≤ matched := by
  simp only [reached, List.mem_toFinset, List.mem_map, List.mem_filter,
    decide_eq_true_eq, Prod.exists, exists_and_right, exists_eq_right,
    Table.get?_eq_some_iff]

theorem replicas_eq_card (leadership : Leadership) (index : Nat) :
    replicas leadership index = (reached leadership index).card + 1 := by
  have hnodup : ((leadership.matchIndex.rows.filter
      (fun row => decide (index ≤ row.2))).map Prod.fst).Nodup := by
    apply List.Pairwise.map _ (fun left right hlt => Nat.ne_of_lt hlt)
    exact leadership.matchIndex.ascending.sublist List.filter_sublist
  rw [reached, List.toFinset_card_of_nodup hnodup, List.length_map, replicas,
    Table.values, List.countP_map, List.countP_eq_length_filter, Nat.add_comm]
  rfl

/-- No fewer replicas are counted of less, or by a leader that believes no
less. -/
theorem replicas_le {other : Leadership} {lower upper : Nat}
    (hle : lower ≤ upper) (hgrows : ∀ peer matched,
      leadership.matchIndex.get? peer = some matched →
      ∃ more, other.matchIndex.get? peer = some more ∧ matched ≤ more) :
    replicas leadership upper ≤ replicas other lower := by
  rw [replicas_eq_card, replicas_eq_card]
  refine Nat.succ_le_succ (Finset.card_le_card (fun peer hpeer => ?_))
  obtain ⟨matched, hget, habove⟩ := mem_reached.mp hpeer
  obtain ⟨more, hmore, hmatched⟩ := hgrows peer matched hget
  exact mem_reached.mpr ⟨more, hmore, by omega⟩

theorem replicas_antitone (leadership : Leadership) {lower upper : Nat}
    (hle : lower ≤ upper) :
    replicas leadership upper ≤ replicas leadership lower :=
  replicas_le hle (fun _ matched hget => ⟨matched, hget, Nat.le_refl _⟩)

/-- The members that hold the log up to an index as far as the leader knows:
the leader itself, and the peers it believes to have come so far. -/
def holders (node : Node L σ) (leadership : Leadership) (index : Nat) :
    Finset NodeId :=
  insert node.id (node.peers.toFinset.filter
    (fun peer => index ≤ leadership.matchIndex.getD peer 0))

/-- A leader that takes note of its peers only counts the members that hold
an entry. -/
theorem card_holders (hpeers : ∀ peer matched,
      leadership.matchIndex.get? peer = some matched → peer ∈ node.peers)
    (hpos : 0 < index) :
    (node.holders leadership index).card = replicas leadership index := by
  have hsame : node.peers.toFinset.filter
      (fun peer => index ≤ leadership.matchIndex.getD peer 0) =
      reached leadership index := by
    ext peer
    rw [Finset.mem_filter, List.mem_toFinset, mem_reached, Table.getD]
    constructor
    · rintro ⟨-, hle⟩
      cases hget : leadership.matchIndex.get? peer with
      | none =>
          rw [hget, Option.getD_none] at hle
          omega
      | some matched =>
          rw [hget, Option.getD_some] at hle
          exact ⟨matched, rfl, hle⟩
    · rintro ⟨matched, hget, hle⟩
      rw [hget, Option.getD_some]
      exact ⟨hpeers peer matched hget, hle⟩
  have hself : node.id ∉ node.peers.toFinset.filter
      (fun peer => index ≤ leadership.matchIndex.getD peer 0) := by
    simp [peers]
  rw [holders, Finset.card_insert_of_notMem hself, hsame, replicas_eq_card]

/-! ### The index to commit -/

variable [LogStore L]

/-- A leader may commit an entry of its own term that enough members hold. -/
structure Ripe (node : Node L σ) (leadership : Leadership) (index : Nat) :
    Prop where
  last : index ≤ LogStore.lastIndex node.log
  term : LogStore.termAt node.log index = node.term
  quorum : node.quorum ≤ replicas leadership index

theorem mem_replicated : index ∈ node.replicated leadership ↔
    node.commitIndex < index ∧ index ≤ LogStore.lastIndex node.log ∧
      node.quorum ≤ replicas leadership index := by
  have hfilter : node.replicated leadership = (List.range'
      (node.commitIndex + 1)
      (LogStore.lastIndex node.log - node.commitIndex)).filter
      (fun index => decide (node.quorum ≤ replicas leadership index)) :=
    takeWhile_eq_filter (List.pairwise_lt_range' _) (fun hle habove => by
      have hfewer := replicas_antitone leadership hle
      simp only [decide_eq_true_eq] at habove ⊢
      omega)
  rw [hfilter, List.mem_filter, List.mem_range'_1, decide_eq_true_eq]
  omega

theorem mem_replicated_filter : index ∈ (node.replicated leadership).filter
      (fun index => LogStore.termAt node.log index = node.term) ↔
    node.commitIndex < index ∧ node.Ripe leadership index := by
  rw [List.mem_filter, mem_replicated, decide_eq_true_eq]
  exact ⟨fun ⟨⟨hlt, hle, hquorum⟩, hterm⟩ => ⟨hlt, hle, hterm, hquorum⟩,
    fun ⟨hlt, hripe⟩ => ⟨⟨hlt, hripe.last, hripe.quorum⟩, hripe.term⟩⟩

/-- The index to commit is the greatest of those that may be committed. -/
theorem commitTarget?_isGreatest {target : Nat}
    (htarget : node.commitTarget? leadership = some target) :
    IsGreatest { index | node.commitIndex < index ∧
      node.Ripe leadership index } target := by
  have hascending : ((node.replicated leadership).filter (fun index =>
      LogStore.termAt node.log index = node.term)).Pairwise
        (fun left right => left < right) :=
    (List.pairwise_lt_range' _).sublist
      (List.filter_sublist.trans (List.takeWhile_sublist _))
  have hgreatest := isGreatest_of_getLast? hascending htarget
  simpa only [mem_replicated_filter] using hgreatest

theorem commitTarget?_eq_none_iff :
    node.commitTarget? leadership = none ↔
      ∀ index, node.commitIndex < index → ¬node.Ripe leadership index := by
  rw [commitTarget?, List.getLast?_eq_none_iff,
    List.eq_nil_iff_forall_not_mem]
  simp only [mem_replicated_filter, not_and]

/-- The index that a leader has committed once it has committed what it
may. -/
def commitGoal (node : Node L σ) (leadership : Leadership) : Nat :=
  (node.commitTarget? leadership).getD node.commitIndex

/-- That index is the highest of all that are committed or may be. -/
theorem commitGoal_isGreatest (node : Node L σ) (leadership : Leadership) :
    IsGreatest (insert node.commitIndex { index |
      node.commitIndex < index ∧ node.Ripe leadership index })
      (node.commitGoal leadership) := by
  unfold commitGoal
  cases htarget : node.commitTarget? leadership with
  | none =>
      rw [commitTarget?_eq_none_iff] at htarget
      refine ⟨Set.mem_insert _ _, ?_⟩
      rintro index (rfl | ⟨hlt, hripe⟩)
      · exact Nat.le_refl _
      · exact absurd hripe (htarget index hlt)
  | some target =>
      obtain ⟨⟨hlt, hripe⟩, hupper⟩ := commitTarget?_isGreatest htarget
      refine ⟨Set.mem_insert_of_mem _ ⟨hlt, hripe⟩, ?_⟩
      rintro index (rfl | hindex)
      · exact Nat.le_of_lt hlt
      · exact hupper hindex

/-- What a leader may commit it commits at once. -/
theorem advanceCommit_eq [StateMachine σ]
    (hleadership : node.leadership = some leadership) :
    node.advanceCommit =
      (decide (node.commitIndex < node.commitGoal leadership),
        node.followCommit (node.commitGoal leadership)) := by
  unfold advanceCommit followCommit commitGoal
  rw [hleadership, Option.bind_some]
  cases htarget : node.commitTarget? leadership with
  | none => simp
  | some target =>
      obtain ⟨⟨hlt, -⟩, -⟩ := commitTarget?_isGreatest htarget
      simp [hlt]

/-! ### The rule -/

/-- An index past what is committed, with an entry of the leader's own term,
that the leader holds together with enough peers. -/
structure Committable (node : Node L σ) (leadership : Leadership)
    (index : Nat) : Prop where
  fresh : node.commitIndex < index
  last : index ≤ LogStore.lastIndex node.log
  term : LogStore.termAt node.log index = node.term
  quorum : node.quorum ≤ (node.holders leadership index).card

theorem committable_iff (hpeers : ∀ peer matched,
      leadership.matchIndex.get? peer = some matched → peer ∈ node.peers) :
    node.Committable leadership index ↔
      node.commitIndex < index ∧ node.Ripe leadership index := by
  constructor
  · rintro ⟨hlt, hle, hterm, hquorum⟩
    rw [card_holders hpeers (Nat.zero_lt_of_lt hlt)] at hquorum
    exact ⟨hlt, hle, hterm, hquorum⟩
  · rintro ⟨hlt, hle, hterm, hquorum⟩
    rw [← card_holders hpeers (Nat.zero_lt_of_lt hlt)] at hquorum
    exact ⟨hlt, hle, hterm, hquorum⟩

/-- A leader commits up to the greatest index that may be committed, and if
there is none it does nothing.  Whatever it commits enough members hold, and
at or above it an entry of the leader's own term is committed too. -/
theorem commits_greatest [StateMachine σ]
    (hleadership : node.leadership = some leadership)
    (hpeers : ∀ peer matched,
      leadership.matchIndex.get? peer = some matched → peer ∈ node.peers) :
    ((∃ index, node.Committable leadership index) →
      ∃ target, IsGreatest { index | node.Committable leadership index } target ∧
        node.advanceCommit =
          (true, { node with commitIndex := target }.applyCommitted) ∧
        node.advanceCommit.2.commitIndex = target) ∧
    ((¬∃ index, node.Committable leadership index) →
      node.advanceCommit = (false, node)) ∧
    ∀ index, node.commitIndex < index →
      index ≤ node.advanceCommit.2.commitIndex →
      node.quorum ≤ (node.holders leadership index).card ∧
      ∃ later, index ≤ later ∧ later ≤ node.advanceCommit.2.commitIndex ∧
        LogStore.termAt node.log later = node.term := by
  have hgoal := commitGoal_isGreatest node leadership
  simp only [committable_iff hpeers]
  refine ⟨fun ⟨index, hlt, hripe⟩ => ?_, fun hnone => ?_,
    fun index hlt hle => ?_⟩
  · cases htarget : node.commitTarget? leadership with
    | none => exact absurd hripe (commitTarget?_eq_none_iff.mp htarget index hlt)
    | some target =>
        have hcommits : node.advanceCommit =
            (true, { node with commitIndex := target }.applyCommitted) := by
          rw [advanceCommit, hleadership, Option.bind_some, htarget]
        refine ⟨target, commitTarget?_isGreatest htarget, hcommits, ?_⟩
        rw [hcommits]
        exact congrArg Frame.commitIndex
          (applyCommitted_frame { node with commitIndex := target })
  · have htarget : node.commitTarget? leadership = none :=
      commitTarget?_eq_none_iff.mpr
        (fun index hlt hripe => hnone ⟨index, hlt, hripe⟩)
    rw [advanceCommit, hleadership, Option.bind_some, htarget]
  · rw [advanceCommit_eq hleadership, followCommit_commitIndex] at hle ⊢
    obtain ⟨heq | ⟨hpast, hripe⟩, -⟩ := hgoal
    · omega
    · rw [Nat.max_eq_right (Nat.le_of_lt hpast)] at hle ⊢
      have hmore := replicas_antitone leadership hle
      rw [card_holders hpeers (Nat.zero_lt_of_lt hlt)]
      exact ⟨Nat.le_trans hripe.quorum hmore, _, hle, Nat.le_refl _,
        hripe.term⟩

end Node

/-! ### Of whom a leader takes note -/

namespace Standing

variable {σ : Type} [StateMachine σ] {steady : Prop} {input : Input}
  {before after : Standing σ}

/-- A leader tries its peers and nobody else. -/
def TriesPeers (standing : Standing σ) : Prop :=
  ∀ leadership, standing.leadership = some leadership → ∀ peer,
    (leadership.nextIndex.get? peer).isSome = true ↔ peer ∈ standing.peers

theorem TriesPeers.move (htries : before.TriesPeers)
    (hmove : Move steady input before after) : after.TriesPeers := by
  intro leadership hleadership peer
  cases hmove with
  | adopt _ _ _ | yield _ | retire _ => simp at hleadership
  | lead _ _ =>
      obtain rfl := Option.some.inj hleadership
      rw [newLeadership, Table.get?_ofKeys]
      change _ ↔ peer ∈ before.peers
      split <;> simp_all
  | heed _ _ _ hsome hnext =>
      obtain rfl := Option.some.inj hleadership
      refine Iff.trans ?_ (htries _ hsome peer)
      unfold Leadership.heed
      dsimp only
      split <;>
        simp only [Node.Leadership.progress, Node.Leadership.retreat,
          Node.Leadership.acknowledge, Table.get?_insert]
      all_goals
        split
        · rename_i heq
          rw [heq, hnext]
          rfl
        · rfl
  | round hsome =>
      obtain rfl := Option.some.inj hleadership
      exact htries _ hsome peer
  | _ => exact htries leadership hleadership peer

theorem TriesPeers.moves (htries : before.TriesPeers)
    (hmoves : Moves steady input before after) : after.TriesPeers := by
  induction hmoves with
  | refl => exact htries
  | tail _ hmove ih => exact ih.move hmove

end Standing

/-- At all times a leader takes note of its peers and of nobody else. -/
theorem Life.Valid.matches_peers {L σ : Type} [LogStore L] [FaithfulLog L]
    [StateMachine σ] {life : Life L σ} (hvalid : life.Valid) (time : Nat)
    {leadership : Leadership}
    (hleadership : (life.node time).leadership = some leadership)
    (peer : NodeId) : (leadership.matchIndex.get? peer).isSome = true ↔
      peer ∈ (life.node time).peers := by
  have htries : (life.node time).standing.TriesPeers :=
    hvalid.always_standing
      (fun _ _ _ _ _ _ hsome => by simp [Standing.start] at hsome)
      Standing.TriesPeers.moves (fun _ htries => htries) time
  rw [(hvalid.within time hleadership).paired peer]
  exact htries leadership.bare (by simp [Node.standing, hleadership]) peer

namespace Witness

/-- One peer holds three entries, the other one. -/
def tally : Leadership where
  nextIndex := (Table.ofKeys [2] 4).insert 3 2
  matchIndex := (Table.ofKeys [2] 3).insert 3 1
  noopIndex := 3
  round := 1
  ackedRound := .empty
  sequencer := .start
  publisher := .start

/-- A leader of the third term over entries of the first and the third. -/
def tallying : Node MemoryLog Tally :=
  { member (L := MemoryLog) ⟨[⟨1, 1, .noOp⟩, ⟨1, 2, .noOp⟩, ⟨3, 3, .noOp⟩,
      ⟨3, 4, .noOp⟩], 3, some 1⟩ Tally.start 1 with
    role := .leader
    term := 3
    leadership := some tally }

theorem tally_peers (peer matched : Nat)
    (hget : tally.matchIndex.get? peer = some matched) :
    peer ∈ tallying.peers := by
  simp only [tally, Table.get?_insert, Table.get?_ofKeys,
    List.mem_singleton] at hget
  by_cases hfirst : peer = 3
  · exact hfirst ▸ by decide
  · by_cases hsecond : peer = 2
    · exact hsecond ▸ by decide
    · simp [hfirst, hsecond] at hget

/-- The first entry of its term commits, and with it those of the first term;
the last entry, which nobody else holds, does not. -/
theorem commits_greatest_tallying : tallying.leadership = some tally ∧
    tallying.advanceCommit.1 = true ∧
    tallying.advanceCommit.2.commitIndex = 3 ∧
    LogStore.termAt tallying.log 2 = 1 ∧
    tallying.quorum ≤ (tallying.holders tally 2).card := by
  obtain ⟨hcommits, -, hheld⟩ := Node.commits_greatest
    (show tallying.leadership = some tally from rfl) tally_peers
  obtain ⟨target, ⟨htarget, hupper⟩, hadvance, hcommit⟩ :=
    hcommits ⟨3, by decide, by decide, by decide, by decide⟩
  have hfew : target ≠ 4 := by
    rintro rfl
    exact absurd htarget.quorum (by decide)
  have hle : target ≤ 4 := htarget.last
  have hge : 3 ≤ target := hupper ⟨by decide, by decide, by decide, by decide⟩
  rw [hcommit] at hheld
  exact ⟨rfl, by rw [hadvance], by omega, rfl,
    (hheld 2 (by decide) (by omega)).1⟩

end Witness

end SessionRaft
