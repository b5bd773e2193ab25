/-
No move of a member puts what may be chosen at risk: whoever comes to lead
holds it, and whoever has taken it over keeps it.
-/
import SessionRaft.Proofs.Commitment

namespace SessionRaft

variable {σ : Type} [StateMachine σ]

/-- A member makes a move where everything is as it should be. -/
structure Noted (members : List NodeId) (chron : Chronicle σ) (steady : Prop)
    (id : NodeId) (input : Input) (after : Standing σ) : Prop where
  elections : Elections members chron
  matching : Matching members chron
  commitment : Commitment members chron
  member : id ∈ members
  brings : chron.scene.Brings id input
  steadily : steady
  move : Move steady input (chron.standing id) after

variable {members : List NodeId} {chron : Chronicle σ} {steady : Prop}
  {id : NodeId} {input : Input} {after : Standing σ}

omit [StateMachine σ] in
/-- A vote is for a term that the voter has reached. -/
theorem Elections.ballot_le (helections : Elections members chron)
    {voter candidate : NodeId} (hvoter : voter ∈ members) {term : Nat}
    (hballot : chron.ballot voter term = some candidate) :
    term ≤ (chron.standing voter).term := by
  have hentitled := helections.entitled voter hvoter
  refine Nat.le_trans ?_ hentitled.stored_le
  by_contra hlt
  rw [hentitled.ballot_above term (by omega)] at hballot
  simp at hballot

omit [StateMachine σ] in
/-- A vote that is stored by a move is new, or it was known. -/
theorem Chronicle.note_ballot_cases {voter candidate : NodeId} {term : Nat}
    (hballot : (chron.note id after).ballot voter term = some candidate) :
    chron.ballot voter term = some candidate ∨
      voter = id ∧ after.stored = (term, some candidate) := by
  rw [Chronicle.note_ballot] at hballot
  by_cases hne : voter = id ∧ term = after.stored.1
  · obtain ⟨rfl, rfl⟩ := hne
    rw [mark_self] at hballot
    exact Or.inr ⟨rfl, Prod.ext rfl hballot⟩
  · rw [mark_of_ne _ _ (Classical.not_and_iff_not_or_not.mp hne)] at hballot
    exact Or.inl hballot

omit [StateMachine σ] in
/-- Only a leader takes over entries by a move, its own. -/
theorem Chronicle.note_taken_cases (chron : Chronicle σ) (id : NodeId)
    (after : Standing σ) (voter : NodeId) (term : Nat) :
    (chron.note id after).taken voter term = chron.taken voter term ∨
      voter = id ∧ after.role = .leader ∧ term = after.term ∧
        (chron.note id after).taken voter term = after.entries.length := by
  rw [Chronicle.note_taken]
  split
  · rename_i hrole
    by_cases hne : voter = id ∧ term = after.term
    · obtain ⟨rfl, rfl⟩ := hne
      exact Or.inr ⟨rfl, hrole, rfl, mark_self _ _⟩
    · exact Or.inl (mark_of_ne _ _ (Classical.not_and_iff_not_or_not.mp hne))
  · exact Or.inl rfl

omit [StateMachine σ] in
theorem Chronicle.note_canon_leader (chron : Chronicle σ) (id : NodeId)
    (hrole : after.role = .leader) :
    (chron.note id after).canon after.term = after.entries := by
  rw [Chronicle.note_canon, if_pos hrole, Function.update_self]

omit [StateMachine σ] in
/-- Only a leader adds to a log that is led, its own. -/
theorem Chronicle.note_canon_cases (chron : Chronicle σ) (id : NodeId)
    (after : Standing σ) (term : Nat) :
    (chron.note id after).canon term = chron.canon term ∨
      after.role = .leader ∧ term = after.term := by
  rw [Chronicle.note_canon]
  split
  · rename_i hrole
    by_cases heq : term = after.term
    · exact Or.inr ⟨hrole, heq⟩
    · exact Or.inl (Function.update_of_ne heq ..)
  · exact Or.inl rfl

namespace Noted

variable (hnoted : Noted members chron steady id input after)

include hnoted

theorem elections_note : Elections members (chron.note id after) :=
  (hnoted.elections.step
    (.move hnoted.member hnoted.brings hnoted.move)).1

theorem matching_note : Matching members (chron.note id after) :=
  hnoted.matching.move hnoted.elections hnoted.member hnoted.brings hnoted.move

theorem grown : chron.Grown (chron.note id after) :=
  hnoted.matching.grown hnoted.elections hnoted.member hnoted.move

theorem entitled : Entitled members chron id (chron.standing id) :=
  hnoted.elections.entitled id hnoted.member

theorem copied : Copied chron id (chron.standing id) :=
  hnoted.matching.copied id hnoted.member

theorem sworn : Sworn members chron id (chron.standing id) :=
  hnoted.commitment.sworn id hnoted.member

theorem term_le (voter : NodeId) :
    (chron.standing voter).term ≤
      ((chron.note id after).standing voter).term := by
  by_cases heq : voter = id
  · subst heq
    rw [Chronicle.note_standing_self]
    exact hnoted.move.term_le
  · exact Nat.le_of_eq
      (congrArg Standing.term (chron.note_standing_of_ne heq after).symm)

theorem taken_le (voter : NodeId) (term : Nat) :
    chron.taken voter term ≤ (chron.note id after).taken voter term := by
  rcases chron.note_taken_cases id after voter term with
    heq | ⟨rfl, hrole, rfl, heq⟩
  · exact Nat.le_of_eq heq.symm
  · rw [heq, ← chron.note_canon_leader voter hrole]
    exact Nat.le_trans (hnoted.commitment.taken_le voter after.term)
      (hnoted.grown.canon after.term).length_le

theorem ages : chron.Ages (chron.note id after) :=
  ⟨hnoted.grown, hnoted.taken_le⟩

/-- The log with which a node stood in a term that it has reached stays. -/
theorem bid_eq {candidate : NodeId} {term : Nat}
    (hterm : term ≤ (chron.standing candidate).term) :
    (chron.note id after).bid candidate term = chron.bid candidate term := by
  rw [Chronicle.note_bid]
  split
  · rename_i hrole
    by_cases hne : candidate = id ∧ term = after.term
    · obtain ⟨rfl, rfl⟩ := hne
      obtain ⟨hentries, ⟨hcandidate, hsame⟩ | hnew⟩ :=
        hnoted.move.candidate_cases hrole
      · rw [mark_self, hentries, hsame]
        exact (hnoted.sworn.bid hcandidate).symm
      · omega
    · exact mark_of_ne _ _ (Classical.not_and_iff_not_or_not.mp hne)
  · rfl

/-- What can be chosen after a move could be chosen before, or was just
appended by the leader and is held by nobody else. -/
theorem choosable_cases {term index : Nat}
    (hchoosable : (chron.note id after).Choosable members term index) :
    (chron.Choosable members term index ∧
        ((chron.note id after).canon term).take index =
          (chron.canon term).take index) ∨
      (after.role = .leader ∧ term = after.term ∧
        ∀ voter, index ≤ (chron.note id after).taken voter term →
          voter = id) := by
  have hgrown := hnoted.grown
  obtain ⟨hpositive, hown, hmajority⟩ := hchoosable
  by_cases hlength : index ≤ (chron.canon term).length
  · have htake := take_eq_of_isPrefix (hgrown.canon term) hlength
    refine Or.inl ⟨⟨hpositive, ?_, hmajority.mono (fun voter _ hvoter => ?_)⟩,
      htake.symm⟩
    · rw [termOf_eq_of_take_eq htake]
      exact hown
    · rcases hvoter with htaken | hterm
      · rcases chron.note_taken_cases id after voter term with
          heq | ⟨rfl, -, rfl, -⟩
        · exact Or.inl (heq ▸ htaken)
        · exact Or.inr hnoted.move.term_le
      · exact Or.inr (Nat.le_trans (hnoted.term_le voter) hterm)
  · apply Or.inr
    rcases chron.note_canon_cases id after term with hsame | ⟨hrole, rfl⟩
    · rw [hsame] at hown
      exact absurd (Chronicle.index_bounds hown hpositive).2 hlength
    · refine ⟨hrole, rfl, fun voter htaken => ?_⟩
      rcases chron.note_taken_cases id after voter after.term with
        heq | ⟨rfl, -⟩
      · rw [heq] at htaken
        exact absurd (Nat.le_trans htaken
          (hnoted.commitment.taken_le voter after.term)) hlength
      · rfl

/-- Nobody has voted in a term later than that of the entries which it takes
over by a move. -/
theorem not_voted {voter candidate : NodeId} {later : Nat}
    (hvoter : voter = id) (hlater : after.term < later) :
    (chron.note id after).ballot voter later ≠ some candidate := by
  subst hvoter
  intro hballot
  have hle := hnoted.elections_note.ballot_le hnoted.member hballot
  rw [Chronicle.note_standing_self] at hle
  omega

/-- Whoever has come to lead holds whatever may have been chosen before. -/
theorem later_of_won {term index later : Nat}
    (hchoosable : chron.Choosable members term index) (hlt : term < later)
    (hwon : (chron.note id after).winner later ≠ none) :
    ((chron.note id after).canon later).take index =
      (chron.canon term).take index := by
  have hlength := (Chronicle.index_bounds hchoosable.own hchoosable.positive).2
  by_cases hknown : chron.winner later = none
  · rw [Chronicle.note_winner] at hwon
    split at hwon
    · rename_i hrole
      by_cases heq : later = after.term
      · subst heq
        rcases hnoted.move.leads hrole with ⟨hleads, hsame⟩ |
          ⟨hcandidate, hquorum, rfl⟩
        · rw [← hsame, hnoted.entitled.leader hleads] at hknown
          simp at hknown
        · -- Somebody who voted for the new leader had taken it over.
          obtain ⟨voter, hvoter, htaken, hballot⟩ := hchoosable.majority.inter
            (hnoted.entitled.majority hcandidate hquorum)
          have hreached := hnoted.elections.ballot_le hvoter hballot
          have hstood := hnoted.commitment.voted term index hchoosable voter
            hvoter _ id hballot hlt
            (htaken.resolve_right (fun hle => by
              exact absurd (Nat.lt_of_lt_of_le hlt hreached)
                (Nat.not_lt_of_le hle)))
          rw [hnoted.sworn.bid hcandidate] at hstood
          rw [chron.note_canon_leader _ hrole]
          exact hstood
      · rw [Function.update_of_ne heq] at hwon
        exact absurd hknown hwon
    · exact absurd hknown hwon
  · have hold := hnoted.commitment.later term index hchoosable later hlt hknown
    rw [← take_eq_of_isPrefix (hnoted.grown.canon later)
      (length_le_of_take_eq hold hlength), hold]

theorem later_note (term index : Nat)
    (hchoosable : (chron.note id after).Choosable members term index)
    (later : Nat) (hlt : term < later)
    (hwon : (chron.note id after).winner later ≠ none) :
    ((chron.note id after).canon later).take index =
      ((chron.note id after).canon term).take index := by
  rcases hnoted.choosable_cases hchoosable with ⟨hold, htake⟩ |
    ⟨hrole, rfl, honly⟩
  · rw [htake]
    exact hnoted.later_of_won hold hlt hwon
  · -- A later election would have had a vote of the leader itself.
    obtain ⟨winner, hwinner⟩ := Option.ne_none_iff_exists'.mp hwon
    obtain ⟨-, hvotes⟩ := hnoted.elections_note.elected _ _ hwinner
    obtain ⟨voter, hvoter, htaken, hballot⟩ :=
      hchoosable.majority.inter hvotes
    have hreached := hnoted.elections_note.ballot_le hvoter hballot
    rcases htaken with htaken | hterm
    · exact absurd hballot (hnoted.not_voted (honly voter htaken) hlt)
    · omega

/-- A member keeps what it has taken over and what may be chosen. -/
theorem entries_kept {term index : Nat}
    (hchoosable : chron.Choosable members term index)
    (htaken : index ≤ chron.taken id term) :
    after.entries.take index = (chron.canon term).take index := by
  obtain ⟨hpositive, hlength⟩ :=
    Chronicle.index_bounds hchoosable.own hchoosable.positive
  have hheld := hnoted.commitment.held term index hchoosable id hnoted.member
    htaken
  have hreached := hnoted.sworn.taken_term term (by omega)
  have hlogLength := length_le_of_take_eq hheld hlength
  have haddressed := hnoted.matching.addressed_of_brings hnoted.brings
  have hcopied := hnoted.copied
  have hmove := hnoted.move
  generalize chron.standing id = before at hheld hreached hlogLength hcopied hmove
  cases hmove with
  | extend operation _ =>
      exact (List.take_append_of_le_length hlogLength).trans hheld
  | merge hinput hterm _ hprevious hjoin hspliced =>
      obtain ⟨sender, hgenuine⟩ := haddressed _ hinput
      have hwon := hgenuine.winner
      have hrejoined := hgenuine.rejoined hcopied.follows
        (hnoted.matching.follows _) hprevious hjoin hspliced
      rw [hterm] at hwon hrejoined
      have hcanon := hnoted.commitment.take_canon hchoosable hreached
        (by rw [hwon]; simp)
      rw [hrejoined.agree (length_le_of_take_eq hcanon hlength)
        (hheld.trans hcanon.symm), hcanon]
  | _ => exact hheld

theorem held_note (term index : Nat)
    (hchoosable : (chron.note id after).Choosable members term index)
    (voter : NodeId) (hvoter : voter ∈ members)
    (htaken : index ≤ (chron.note id after).taken voter term) :
    ((chron.note id after).standing voter).entries.take index =
      ((chron.note id after).canon term).take index := by
  rcases chron.note_taken_cases id after voter term with
    heq | ⟨rfl, hrole, rfl, -⟩
  · rcases hnoted.choosable_cases hchoosable with ⟨hold, htake⟩ |
      ⟨hrole, rfl, honly⟩
    · rw [htake]
      rw [heq] at htaken
      by_cases hself : voter = id
      · subst hself
        rw [Chronicle.note_standing_self]
        exact hnoted.entries_kept hold htaken
      · rw [Chronicle.note_standing_of_ne _ hself]
        exact hnoted.commitment.held term index hold voter hvoter htaken
    · obtain rfl := honly voter htaken
      rw [Chronicle.note_standing_self, chron.note_canon_leader _ hrole]
  · rw [Chronicle.note_standing_self, chron.note_canon_leader _ hrole]

/-- Where a request for votes comes from, and what it tells. -/
theorem honest {request : VoteRequest} (hinput : input = .vote request) :
    chron.Honest request.candidate request := by
  subst hinput
  rcases hnoted.brings with hlocal |
    ⟨⟨sender, receiver, packet⟩, hsent, rfl, heq⟩
  · simp [Input.isLocal] at hlocal
  · cases packet with
    | vote given =>
        obtain rfl := Input.vote.inj heq
        rw [hnoted.elections.asked _ _ _ hsent]
        exact hnoted.commitment.asked _ _ _ hsent
    | voteResponse response => simp [Envelope.input] at heq
    | append request => simp [Envelope.input] at heq
    | appendResponse response => simp [Envelope.input] at heq

/-- A vote that a member stores by a move goes to itself or to somebody who
stands with a log at least as new. -/
theorem voted_cases {term : Nat} {candidate : NodeId}
    (hstored : after.stored = (term, some candidate)) :
    chron.ballot id term = some candidate ∨
      (candidate = id ∧ term = after.term ∧
        (chron.note id after).bid candidate term =
          (chron.standing id).entries) ∨
      ∃ request, chron.Honest candidate request ∧ request.term = term ∧
        (lastTermOf (chron.standing id).entries < request.lastLogTerm ∨
          request.lastLogTerm = lastTermOf (chron.standing id).entries ∧
            (chron.standing id).entries.length ≤ request.lastLogIndex) := by
  rcases hnoted.move.stored_cases with hsame | hnone |
    ⟨hrole, -, hentries, hself⟩ | ⟨request, hinput, hterm, hvote, hnewer⟩
  · have hballot := hnoted.entitled.ballot_stored
    rw [← hsame, hstored] at hballot
    exact Or.inl hballot
  · rw [hstored] at hnone
    simp at hnone
  · rw [hstored, hnoted.entitled.id_eq, Prod.mk.injEq,
      Option.some.injEq] at hself
    obtain ⟨rfl, rfl⟩ := hself
    refine Or.inr (Or.inl ⟨rfl, rfl, ?_⟩)
    rw [Chronicle.note_bid, if_pos hrole, mark_self, hentries]
  · rw [hstored, Prod.mk.injEq, Option.some.injEq] at hvote
    obtain ⟨rfl, rfl⟩ := hvote
    exact Or.inr (Or.inr ⟨request, hnoted.honest hinput, hterm, hnewer⟩)

theorem voted_note (term index : Nat)
    (hchoosable : (chron.note id after).Choosable members term index)
    (voter : NodeId) (hvoter : voter ∈ members) (later : Nat)
    (candidate : NodeId)
    (hballot : (chron.note id after).ballot voter later = some candidate)
    (hlt : term < later)
    (htaken : index ≤ (chron.note id after).taken voter term) :
    ((chron.note id after).bid candidate later).take index =
      ((chron.note id after).canon term).take index := by
  rcases chron.note_taken_cases id after voter term with
    heq | ⟨rfl, -, rfl, -⟩
  · rcases hnoted.choosable_cases hchoosable with ⟨hold, htake⟩ |
      ⟨-, rfl, honly⟩
    · rw [htake]
      rw [heq] at htaken
      have hpositive := (Chronicle.index_bounds hold.own hold.positive).1
      have hknown : chron.ballot voter later = some candidate →
          ((chron.note id after).bid candidate later).take index =
            (chron.canon term).take index := by
        intro hballot
        rw [hnoted.bid_eq (hnoted.commitment.stood voter hvoter term later
          candidate hballot hlt (by omega))]
        exact hnoted.commitment.voted term index hold voter hvoter later
          candidate hballot hlt htaken
      rcases Chronicle.note_ballot_cases hballot with hballot | ⟨rfl, hstored⟩
      · exact hknown hballot
      · have hheld := hnoted.commitment.held term index hold voter hvoter htaken
        rcases hnoted.voted_cases hstored with hballot | ⟨-, -, hbid⟩ |
          ⟨request, hhonest, rfl, hnewer⟩
        · exact hknown hballot
        · rw [hbid]
          exact hheld
        · rw [hnoted.bid_eq hhonest.reached]
          rw [hhonest.index, hhonest.term] at hnewer
          exact hnoted.commitment.take_of_newer hold hnoted.copied.follows
            (hnoted.commitment.bids _ _) hheld hnewer
    · exact absurd hballot (hnoted.not_voted (honly voter htaken) hlt)
  · exact absurd hballot (hnoted.not_voted rfl hlt)

theorem stood_note (voter : NodeId) (hvoter : voter ∈ members)
    (term later : Nat) (candidate : NodeId)
    (hballot : (chron.note id after).ballot voter later = some candidate)
    (hlt : term < later)
    (htaken : 0 < (chron.note id after).taken voter term) :
    later ≤ ((chron.note id after).standing candidate).term := by
  rcases chron.note_taken_cases id after voter term with
    heq | ⟨rfl, -, rfl, -⟩
  · rw [heq] at htaken
    have hknown : chron.ballot voter later = some candidate →
        later ≤ ((chron.note id after).standing candidate).term :=
      fun hballot => Nat.le_trans (hnoted.commitment.stood voter hvoter term
        later candidate hballot hlt htaken) (hnoted.term_le candidate)
    rcases Chronicle.note_ballot_cases hballot with hballot | ⟨rfl, hstored⟩
    · exact hknown hballot
    · rcases hnoted.voted_cases hstored with hballot | ⟨rfl, rfl, -⟩ |
        ⟨request, hhonest, rfl, -⟩
      · exact hknown hballot
      · exact Nat.le_of_eq
          (congrArg Standing.term (chron.note_standing_self _ after).symm)
      · exact Nat.le_trans hhonest.reached (hnoted.term_le candidate)
  · exact absurd hballot (hnoted.not_voted rfl hlt)

theorem canon_le_note (term : Nat) (hafter : ∀ entry ∈ after.entries,
    entry.term ≤ after.term) (entry : LogEntry)
    (hentry : entry ∈ (chron.note id after).canon term) :
    entry.term ≤ term := by
  rcases chron.note_canon_cases id after term with heq | ⟨hrole, rfl⟩
  · rw [heq] at hentry
    exact hnoted.commitment.canon_le term entry hentry
  · rw [chron.note_canon_leader _ hrole] at hentry
    exact hafter entry hentry

theorem taken_le_note (voter : NodeId) (term : Nat) :
    (chron.note id after).taken voter term ≤
      ((chron.note id after).canon term).length := by
  rcases chron.note_taken_cases id after voter term with
    heq | ⟨rfl, hrole, rfl, heq⟩
  · rw [heq]
    exact Nat.le_trans (hnoted.commitment.taken_le voter term)
      (hnoted.grown.canon term).length_le
  · apply Nat.le_of_eq
    rw [heq, chron.note_canon_leader _ hrole]

theorem bids_note (candidate : NodeId) (term : Nat) :
    (chron.note id after).Follows
      ((chron.note id after).bid candidate term) := by
  have hold := (hnoted.commitment.bids candidate term).mono hnoted.grown
  rw [Chronicle.note_bid]
  split
  · by_cases hne : candidate = id ∧ term = after.term
    · obtain ⟨rfl, rfl⟩ := hne
      rw [mark_self]
      have hcopied := hnoted.matching_note.copied candidate hnoted.member
      rw [Chronicle.note_standing_self] at hcopied
      exact hcopied.follows
    · rwa [mark_of_ne _ _ (Classical.not_and_iff_not_or_not.mp hne)]
  · exact hold

theorem asked_note {sender : NodeId} {request : VoteRequest}
    (hhonest : chron.Honest sender request) :
    (chron.note id after).Honest sender request where
  reached := Nat.le_trans hhonest.reached (hnoted.term_le sender)
  index := by
    rw [hnoted.bid_eq hhonest.reached]
    exact hhonest.index
  term := by
    rw [hnoted.bid_eq hhonest.reached]
    exact hhonest.term

end Noted

end SessionRaft
