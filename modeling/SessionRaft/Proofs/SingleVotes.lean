/-
A node votes once in a term, for another or for itself.  The stored vote is
what carries that over a stop: as long as the present term is stored, the
stored vote is the present one, and where storing the term has failed, no vote
was cast in it.
-/
import SessionRaft.ByteProgram
import SessionRaft.Proofs.DurableTerms

namespace SessionRaft

open FaithfulLog

section Standings

variable {σ : Type} [StateMachine σ] {steady : Prop} {input : Input}
  {before after : Standing σ} {term : Nat} {candidate : NodeId}

/-- The stored vote is the present one, unless the present term is not
stored; then no vote was cast in it. -/
structure Standing.Truthful (standing : Standing σ) : Prop where
  stored_le : standing.stored.1 ≤ standing.term
  recorded : standing.stored.1 = standing.term →
    standing.stored.2 = standing.votedFor
  unrecorded : standing.stored.1 < standing.term → standing.votedFor = none

/-- A vote is stored, or the term in which it was cast is over. -/
def Standing.Abides (standing : Standing σ) (term : Nat)
    (candidate : NodeId) : Prop :=
  standing.stored = (term, some candidate) ∨ term < standing.stored.1

omit [StateMachine σ] in
/-- The vote that abides in the present term is the present one. -/
theorem Standing.Abides.votedFor (htruthful : before.Truthful)
    (habides : before.Abides before.term candidate) :
    before.stored = (before.term, some candidate) ∧
      before.votedFor = some candidate := by
  rcases habides with hstored | hlt
  · have hrecorded := htruthful.recorded (congrArg Prod.fst hstored)
    exact ⟨hstored, hrecorded.symm.trans (congrArg Prod.snd hstored)⟩
  · exact absurd hlt (Nat.not_lt_of_le htruthful.stored_le)

theorem Move.truthful (htruthful : before.Truthful)
    (hmove : Move steady input before after) : after.Truthful := by
  cases hmove with
  | adopt hterm hstored _ =>
      have hlt := Nat.lt_of_le_of_lt htruthful.stored_le hterm
      rcases hstored with rfl | ⟨-, rfl⟩
      · exact ⟨Nat.le_refl _, fun _ => rfl, fun _ => rfl⟩
      · exact ⟨Nat.le_of_lt hlt, fun heq => absurd heq (Nat.ne_of_lt hlt),
          fun _ => rfl⟩
  | stand _ =>
      exact ⟨Nat.le_refl _, fun _ => rfl,
        fun hlt => absurd hlt (Nat.lt_irrefl _)⟩
  | grant _ _ _ _ =>
      exact ⟨Nat.le_refl _, fun _ => rfl,
        fun hlt => absurd hlt (Nat.lt_irrefl _)⟩
  | _ => exact ⟨htruthful.stored_le, htruthful.recorded,
      htruthful.unrecorded⟩

/-- A vote that was cast is not cast again for another in its term. -/
theorem Move.abides (htruthful : before.Truthful)
    (habides : before.Abides term candidate)
    (hmove : Move steady input before after) :
    after.Abides term candidate := by
  have hle : term ≤ before.term := by
    refine Nat.le_trans ?_ htruthful.stored_le
    rcases habides with hstored | hlt
    · exact Nat.le_of_eq (congrArg Prod.fst hstored).symm
    · exact Nat.le_of_lt hlt
  cases hmove with
  | adopt hterm hstored _ =>
      rcases hstored with rfl | ⟨-, rfl⟩
      · exact Or.inr (Nat.lt_of_le_of_lt hle hterm)
      · exact habides
  | stand _ => exact Or.inr (Nat.lt_succ_of_le hle)
  | @grant request _ _ hfree _ =>
      rcases Nat.lt_or_eq_of_le hle with hlt | rfl
      · exact Or.inr hlt
      · obtain ⟨-, hvoted⟩ := habides.votedFor htruthful
        have hsame : candidate = request.candidate := by
          simpa [hvoted] using hfree
        exact Or.inl (by rw [hsame])
  | _ => exact habides

theorem Moves.truthful (htruthful : before.Truthful)
    (hmoves : Moves steady input before after) : after.Truthful := by
  induction hmoves with
  | refl => exact htruthful
  | tail _ hmove ih => exact hmove.truthful ih

theorem Moves.abides (htruthful : before.Truthful)
    (habides : before.Abides term candidate)
    (hmoves : Moves steady input before after) :
    after.Abides term candidate := by
  induction hmoves with
  | refl => exact habides
  | tail hmoves hmove ih =>
      exact hmove.abides (Moves.truthful htruthful hmoves) ih

end Standings

namespace Node

variable {L σ : Type} [LogStore L]

/-- The node once a term that it is told is adopted, if that is newer. -/
def entered (node : Node L σ) (term : Nat) : Node L σ :=
  if node.term < term then node.becomeFollower term else node

variable [FaithfulLog L] [StateMachine σ] {node after : Node L σ}

/-- Of a vote that could not be stored nothing is left but the term of the
request. -/
theorem handleVote_failed {request : VoteRequest} {kind : ErrorKind}
    {restart : Bool} (hlog : Sound node.log)
    (hvote : node.handleVote request = ((.error kind, restart), after)) :
    LogStore.loadVote after.log =
        LogStore.loadVote (node.entered request.term).log ∧
      after.votedFor = (node.entered request.term).votedFor := by
  have hentered : Proceeds False (.vote request) node
      (node.entered request.term) := by
    unfold entered
    split
    · exact proceeds_becomeFollower node _
    · exact Proceeds.refl _ node
  have hfit := (hentered (.of_sound hlog)).1
  unfold handleVote at hvote
  unfold entered at hfit ⊢
  dsimp only at hvote
  generalize (if node.term < request.term then
    node.becomeFollower request.term else node) = voter at hvote hfit ⊢
  split at hvote
  · rcases hsave : LogStore.saveVote voter.log voter.term
      (some request.candidate) with ⟨outcome, log⟩
    simp only [persistVote, hsave] at hvote
    rcases outcome with fault | ⟨⟩
    · obtain ⟨-, rfl⟩ := Prod.mk.inj hvote
      obtain ⟨hafter, -, hstored⟩ := saveVote_failed hfit hsave
      refine ⟨?_, rfl⟩
      rw [loadVote_eq hfit.sound]
      exact (loadVote_eq hafter.sound).trans (congrArg Except.ok hstored)
    · simp [Except.isOk, Except.toBool] at hvote
  · simp at hvote

/-- An election that is started begins with the node's own vote, which is
stored. -/
theorem campaign_stored {request : VoteRequest} (hlog : Sound node.log)
    (hcandid : node.standing.Candid) (htruthful : node.standing.Truthful)
    (hleadership : node.leadership = none)
    (hcampaign : node.campaign (node.term + 1) = (some request, after)) :
    stored after.log = (request.term, some node.id) := by
  obtain ⟨hasked, hterm, -⟩ :=
    (campaign_records hlog hcandid hleadership).1 request (by rw [hcampaign])
  rw [hcampaign] at hterm
  unfold campaign at hcampaign
  rcases hsave : LogStore.saveVote node.log (node.term + 1) (some node.id) with
    ⟨outcome, log⟩
  rw [hsave] at hcampaign
  rcases outcome with fault | ⟨⟩
  · simp at hcampaign
  · obtain ⟨-, hafter⟩ := Prod.mk.inj hcampaign
    have hproceeds : Proceeds False .electionTimeout node
        (node.candidacy log (node.term + 1)) :=
      proceeds_candidacy hleadership hsave
    obtain ⟨hfit, hstands⟩ := hproceeds (.of_sound hlog)
    have hvoted : (node.candidacy log (node.term + 1)).standing.Abides
        (node.term + 1) node.id :=
      Or.inl (saveVote_done (Fit.of_sound hlog) hsave).2.2
    have hmoves : Moves False .electionTimeout
        (node.candidacy log (node.term + 1)).standing after.standing := by
      rw [← hafter]
      split
      · rename_i hquorum
        exact (wins_becomeLeader (Proceeds.refl _ _) rfl hquorum hfit).2.moves
      · exact .refl
    have hcandidacy := hstands.truthful htruthful
    have habides := hmoves.abides hcandidacy hvoted
    rw [hasked]
    rw [← hterm] at habides ⊢
    exact (habides.votedFor (hmoves.truthful hcandidacy)).1

theorem startElection_stored {request : VoteRequest}
    (hproper : node.Proper) (hcandid : node.standing.Candid)
    (htruthful : node.standing.Truthful)
    (hstart : node.startElection = .ok (some request, after)) :
    stored after.log = (request.term, some node.id) := by
  obtain ⟨hresigned, hmoves⟩ : Fit False node.resigned.log ∧
      Moves False .electionTimeout node.standing node.resigned.standing :=
    proceeds_resigned node (.of_sound hproper.sound)
  have hid : node.resigned.id = node.id := hmoves.id_eq
  rw [startElection_eq] at hstart
  simp only [successor] at hstart
  split at hstart
  · simp [Except.map] at hstart
  · simp only [Except.map, Except.ok.injEq] at hstart
    rw [← hid]
    exact campaign_stored hresigned.sound (hmoves.candid hcandid).1
      (hmoves.truthful htruthful) (resigned_leadership node) hstart

omit [StateMachine σ] in
theorem truthful_start {id : NodeId} {members : List NodeId}
    {config : Config} {log : L} {machine : σ} (hlog : Sound log)
    (hstart : Node.start id members config log machine = .ok node) :
    node.standing.Truthful := by
  rw [(Network.start_standing hlog hstart).2]
  exact ⟨Nat.le_refl _, fun _ => rfl, fun hlt => absurd hlt (Nat.lt_irrefl _)⟩

/-- An incident keeps the stored vote true, and takes no vote back. -/
theorem Undergoes.votes {incident : Incident L σ}
    (hundergoes : node.Undergoes incident after) (hproper : node.Proper)
    (htruthful : node.standing.Truthful) :
    after.standing.Truthful ∧ ∀ term candidate,
      node.standing.Abides term candidate →
        after.standing.Abides term candidate := by
  cases hundergoes with
  | overflow _ | unfit => exact ⟨htruthful, fun _ _ habides => habides⟩
  | taken hstep =>
      have hmoves := hproper.moves hstep
      have hafter := hmoves.truthful htruthful
      refine ⟨⟨hafter.stored_le, hafter.recorded, hafter.unrecorded⟩,
        fun _ _ habides => ?_⟩
      exact (hmoves.abides htruthful habides :)
  | refit _ hmemory =>
      rw [(refit_same hmemory).1]
      exact ⟨htruthful, fun _ _ habides => habides⟩
  | restarted hlog hmemory hstart =>
      have hstored : after.standing.stored = node.standing.stored := by
        rw [(Network.start_standing hlog hstart).2]
        exact congrArg (fun memory => (memory.term, memory.votedFor)) hmemory
      refine ⟨truthful_start hlog hstart, fun _ _ habides => ?_⟩
      rwa [Standing.Abides, hstored]

end Node

namespace Life

variable {L σ : Type} [LogStore L] [FaithfulLog L] [StateMachine σ]
  {life : Life L σ}

/-- At a time the node gives its vote in a term, to another or to itself. -/
inductive Votes (life : Life L σ) (time term : Nat) : NodeId → Prop where
  | grants {request : VoteRequest} {restart : Bool} {after : Node L σ}
      (htakes : life.Takes time (.vote request)
        (.vote (.ok ⟨term, true⟩) restart) after) :
      Votes life time term request.candidate
  | stands {request : VoteRequest} {after : Node L σ}
      (hterm : request.term = term)
      (htakes : life.Takes time .electionTimeout (.election (some request))
        after) :
      Votes life time term (life.node time).id

theorem Valid.truthful (hvalid : life.Valid) (time : Nat) :
    (life.node time).standing.Truthful := by
  obtain ⟨_, _, _, _, _, hlog, hbegins⟩ := hvalid.begins
  exact (hvalid.always (fun node => node.Proper ∧ node.standing.Truthful)
    (Nat.zero_le time) ⟨hvalid.proper 0, Node.truthful_start hlog hbegins⟩
    (fun _ _ _ _ _ hholds hundergoes => ⟨hholds.1.undergoes hundergoes,
      (hundergoes.votes hholds.1 hholds.2).1⟩)).2

theorem Valid.abides (hvalid : life.Valid) {first time : Nat}
    (hle : first ≤ time) {term : Nat} {candidate : NodeId}
    (habides : (life.node first).standing.Abides term candidate) :
    (life.node time).standing.Abides term candidate := by
  refine (hvalid.always (fun node => node.Proper ∧ node.standing.Truthful ∧
    node.standing.Abides term candidate) hle
    ⟨hvalid.proper first, hvalid.truthful first, habides⟩ ?_).2.2
  rintro later incident after - - ⟨hproper, htruthful, hholds⟩ hundergoes
  obtain ⟨hafter, hkept⟩ := hundergoes.votes hproper htruthful
  exact ⟨hproper.undergoes hundergoes, hafter, hkept _ _ hholds⟩

/-- The vote is stored when it is told. -/
theorem Votes.stored_eq {time term : Nat} {candidate : NodeId}
    (hvotes : life.Votes time term candidate) (hvalid : life.Valid) :
    stored (life.node (time + 1)).log = (term, some candidate) := by
  have hproper := hvalid.proper time
  cases hvotes with
  | grants htakes =>
      rw [htakes.node_succ]
      exact (Node.step_vouches htakes.2 hproper.sound term rfl).2
  | stands hterm htakes =>
      rw [htakes.node_succ, ← hterm]
      cases Node.stepsTo htakes.2 with
      | electionTimeout hstart =>
          exact (Node.startElection_stored hproper (hvalid.candid time)
            (hvalid.truthful time) hstart :)

/-- Two votes of a term are for the same candidate. -/
theorem Votes.same {first second term : Nat} {candidate other : NodeId}
    (hfirst : life.Votes first term candidate)
    (hsecond : life.Votes second term other) (hvalid : life.Valid)
    (hle : first ≤ second) : candidate = other := by
  have habides := hvalid.abides (Nat.succ_le_succ hle)
    (Or.inl (hfirst.stored_eq hvalid))
  have hstored := hsecond.stored_eq hvalid
  rcases habides with heq | hlt
  · exact Option.some.inj (congrArg Prod.snd (heq.symm.trans hstored))
  · exact absurd hlt (by
      rw [show (life.node (second + 1)).standing.stored = (term, some other)
        from hstored]
      exact Nat.lt_irrefl term)

/-- A node votes for one candidate in a term at most, its vote is stored when
it is told, and of a vote that could not be stored nothing is left but the term
of the request. -/
theorem votes_once (hvalid : life.Valid) :
    (∀ first second term candidate other,
      life.Votes first term candidate → life.Votes second term other →
        candidate = other) ∧
      (∀ time term candidate, life.Votes time term candidate →
        LogStore.loadVote (life.node (time + 1)).log =
          .ok (term, some candidate)) ∧
      ∀ time request kind restart after,
        life.Takes time (.vote request) (.vote (.error kind) restart) after →
          LogStore.loadVote after.log =
            LogStore.loadVote
              ((life.node time).entered request.term).log ∧
          after.votedFor =
            ((life.node time).entered request.term).votedFor := by
  refine ⟨fun first second term candidate other hfirst hsecond => ?_,
    fun time term candidate hvotes => ?_,
    fun time request kind restart after htakes => ?_⟩
  · rcases Nat.le_total first second with hle | hle
    · exact hfirst.same hsecond hvalid hle
    · exact (hsecond.same hfirst hvalid hle).symm
  · rw [loadVote_eq (hvalid.proper (time + 1)).sound]
    exact congrArg Except.ok (hvotes.stored_eq hvalid)
  · cases Node.stepsTo htakes.2 with
    | vote hvote =>
        exact Node.handleVote_failed (hvalid.proper time).sound hvote

end Life

namespace Witness

/-- A node that fails to store a vote when it is asked first, gives it to the
next who asks, and is asked again by both after a stop. -/
def courted : Life (Faulty MemoryLog) Tally where
  start := member ⟨.empty, { vote := some 1 }⟩ .start 1
  incidents := [
    .input (.vote ⟨3, 2, 0, 0⟩),
    .refit ⟨⟨[], 3, none⟩, .none⟩,
    .input (.vote ⟨3, 3, 0, 0⟩),
    .restart {} ⟨⟨[], 3, some 3⟩, .none⟩ .start,
    .input (.vote ⟨3, 2, 0, 0⟩),
    .input (.vote ⟨3, 3, 0, 0⟩)]

theorem courted_valid : courted.Valid where
  begins := ⟨1, [1, 2, 3], {}, ⟨.empty, { vote := some 1 }⟩, .start,
    ⟨rfl, rfl, rfl, numbered_nil⟩, rfl⟩
  possible time incident hincident := by
    rcases time with _ | _ | _ | _ | _ | _ | time
    all_goals simp only [courted, List.getElem?_cons_succ,
      List.getElem?_cons_zero, List.getElem?_nil, Option.some.injEq,
      reduceCtorEq] at hincident
    all_goals subst hincident
    case succ.zero => exact ⟨⟨rfl, rfl, rfl, numbered_nil⟩, rfl⟩
    case succ.succ.succ.zero => exact ⟨⟨rfl, rfl, rfl, numbered_nil⟩, rfl⟩
    all_goals trivial

/-- The vote that failed counts for nothing, and all that are given before and
after the stop are for the same candidate. -/
theorem votes_once_courted : courted.Valid ∧
    (∃ after, courted.Takes 0 (.vote ⟨3, 2, 0, 0⟩)
        (.vote (.error .internalError) false) after ∧
      LogStore.loadVote after.log = .ok (3, none) ∧ after.votedFor = none) ∧
    courted.Votes 2 3 3 ∧ courted.Votes 5 3 3 ∧
    LogStore.loadVote (courted.node 6).log = .ok (3, some 3) ∧
    ∀ time other, courted.Votes time 3 other → other = 3 := by
  obtain ⟨honce, hstored, hfailed⟩ := Life.votes_once courted_valid
  obtain ⟨after, hrefused⟩ : ∃ after, courted.Takes 0 (.vote ⟨3, 2, 0, 0⟩)
      (.vote (.error .internalError) false) after := ⟨_, rfl, rfl⟩
  obtain ⟨_, hfirst⟩ : ∃ after, courted.Takes 2 (.vote ⟨3, 3, 0, 0⟩)
      (.vote (.ok ⟨3, true⟩) true) after := ⟨_, rfl, rfl⟩
  obtain ⟨_, hsecond⟩ : ∃ after, courted.Takes 5 (.vote ⟨3, 3, 0, 0⟩)
      (.vote (.ok ⟨3, true⟩) true) after := ⟨_, rfl, rfl⟩
  have hbefore : courted.Votes 2 3 3 := .grants hfirst
  have hafter : courted.Votes 5 3 3 := .grants hsecond
  exact ⟨courted_valid, ⟨after, hrefused, hfailed 0 _ _ _ after hrefused⟩,
    hbefore, hafter, hstored 5 3 3 hafter,
    fun time other hother => honce time 2 3 other 3 hother hbefore⟩

end Witness

end SessionRaft
