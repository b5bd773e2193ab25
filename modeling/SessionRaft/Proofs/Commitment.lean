/-
What a majority has taken over from a leader is in the log of every later
leader.  So what is committed at one node is never contradicted at another.
-/
import SessionRaft.Proofs.LogMatching
import SessionRaft.Proofs.Replay

namespace SessionRaft

variable {σ : Type}

namespace Chronicle

/-- An entry of a leader's own term that a majority has taken over. -/
structure Chosen (members : List NodeId) (chron : Chronicle σ)
    (term index : Nat) : Prop where
  positive : 0 < term
  own : termOf (chron.canon term) index = term
  majority : Majority members (fun voter => index ≤ chron.taken voter term)

/-- An entry of a leader's own term that a majority has taken over, or may
still take over because it has not gone on to a later term. -/
structure Choosable (members : List NodeId) (chron : Chronicle σ)
    (term index : Nat) : Prop where
  positive : 0 < term
  own : termOf (chron.canon term) index = term
  majority : Majority members (fun voter => index ≤ chron.taken voter term ∨
    (chron.standing voter).term ≤ term)

/-- A commit index told in a term: up to it everything was chosen. -/
def Backed (members : List NodeId) (chron : Chronicle σ)
    (term index : Nat) : Prop :=
  index = 0 ∨ ∃ origin last, origin ≤ term ∧ chron.Chosen members origin last ∧
    index ≤ last

/-- Up to an index a log is what was chosen by a term. -/
def Certified (members : List NodeId) (chron : Chronicle σ) (term : Nat)
    (log : List LogEntry) (index : Nat) : Prop :=
  index = 0 ∨ ∃ origin last, origin ≤ term ∧ chron.Chosen members origin last ∧
    index ≤ last ∧ log.take index = (chron.canon origin).take index

/-- A request for votes tells of the log with which its sender stands. -/
structure Honest (chron : Chronicle σ) (sender : NodeId)
    (request : VoteRequest) : Prop where
  reached : request.term ≤ (chron.standing sender).term
  index : request.lastLogIndex = (chron.bid sender request.term).length
  term : request.lastLogTerm = lastTermOf (chron.bid sender request.term)

/-- Victories stand, the logs of leaders only grow, and members only take over
more of them. -/
structure Ages (before after : Chronicle σ) : Prop
    extends Grown before after where
  taken : ∀ voter term, before.taken voter term ≤ after.taken voter term

theorem Ages.refl (chron : Chronicle σ) : chron.Ages chron :=
  ⟨.refl chron, fun _ _ => Nat.le_refl _⟩

theorem Ages.of_eq {before after : Chronicle σ}
    (hwinner : after.winner = before.winner)
    (hcanon : after.canon = before.canon)
    (htaken : after.taken = before.taken) : before.Ages after :=
  ⟨.of_eq hwinner hcanon, fun _ _ => htaken ▸ Nat.le_refl _⟩

theorem Ages.trans {before middle after : Chronicle σ}
    (hfirst : before.Ages middle) (hsecond : middle.Ages after) :
    before.Ages after :=
  ⟨hfirst.toGrown.trans hsecond.toGrown, fun voter term =>
    Nat.le_trans (hfirst.taken voter term) (hsecond.taken voter term)⟩

variable {members : List NodeId} {chron next : Chronicle σ}
  {term index : Nat}

/-- The term of an entry tells that the entry is there. -/
theorem exists_of_termOf {log : List LogEntry} {index term : Nat}
    (hterm : termOf log index = term) (hpositive : 0 < term) :
    ∃ place entry, index = place + 1 ∧ log[place]? = some entry ∧
      entry.term = term := by
  cases index with
  | zero =>
      rw [termOf_zero] at hterm
      omega
  | succ place =>
      rw [termOf_succ] at hterm
      cases hget : log[place]? with
      | none =>
          rw [hget] at hterm
          simp only [Option.map_none, Option.getD_none] at hterm
          omega
      | some entry =>
          rw [hget] at hterm
          exact ⟨place, entry, rfl, hget, hterm⟩

theorem index_bounds {log : List LogEntry} {index term : Nat}
    (hterm : termOf log index = term) (hpositive : 0 < term) :
    0 < index ∧ index ≤ log.length := by
  obtain ⟨place, entry, rfl, hget, -⟩ := exists_of_termOf hterm hpositive
  obtain ⟨hplace, -⟩ := List.getElem?_eq_some_iff.mp hget
  exact ⟨Nat.succ_pos _, hplace⟩

theorem Chosen.choosable (hchosen : chron.Chosen members term index) :
    chron.Choosable members term index :=
  ⟨hchosen.positive, hchosen.own,
    hchosen.majority.mono (fun _ _ hle => Or.inl hle)⟩

theorem Chosen.length_le (hchosen : chron.Chosen members term index) :
    index ≤ (chron.canon term).length :=
  (index_bounds hchosen.own hchosen.positive).2

/-- What was chosen stays chosen. -/
theorem Chosen.mono (hchosen : chron.Chosen members term index)
    (hages : chron.Ages next) :
    next.Chosen members term index := by
  have htake := take_eq_of_isPrefix (hages.canon term) hchosen.length_le
  refine ⟨hchosen.positive, ?_, hchosen.majority.mono (fun voter _ hle =>
    Nat.le_trans hle (hages.taken voter term))⟩
  rw [← termOf_eq_of_take_eq htake]
  exact hchosen.own

theorem Backed.mono (hbacked : chron.Backed members term index)
    (hages : chron.Ages next) :
    next.Backed members term index :=
  hbacked.imp_right (fun ⟨origin, last, hle, hchosen, hindex⟩ =>
    ⟨origin, last, hle, hchosen.mono hages, hindex⟩)

theorem Certified.mono {log : List LogEntry}
    (hcertified : chron.Certified members term log index)
    (hages : chron.Ages next)
    {later : Nat} (hlater : term ≤ later) {other : List LogEntry}
    (hkept : other.take index = log.take index) :
    next.Certified members later other index := by
  refine hcertified.imp_right (fun ⟨origin, last, hle, hchosen, hindex, htake⟩ =>
    ⟨origin, last, Nat.le_trans hle hlater, hchosen.mono hages, hindex,
      ?_⟩)
  rw [hkept, htake]
  exact take_eq_of_isPrefix (hages.canon origin)
    (Nat.le_trans hindex hchosen.length_le)

theorem Certified.le {log : List LogEntry}
    (hcertified : chron.Certified members term log index) {count : Nat}
    (hcount : count ≤ index) : chron.Certified members term log count := by
  rcases hcertified with rfl | ⟨origin, last, hle, hchosen, hindex, htake⟩
  · exact Or.inl (Nat.le_zero.mp hcount)
  · exact Or.inr ⟨origin, last, hle, hchosen, Nat.le_trans hcount hindex,
      take_eq_of_take_eq htake hcount⟩

theorem Certified.backed {log : List LogEntry}
    (hcertified : chron.Certified members term log index) :
    chron.Backed members term index :=
  hcertified.imp_right (fun ⟨origin, last, hle, hchosen, hindex, _⟩ =>
    ⟨origin, last, hle, hchosen, hindex⟩)

end Chronicle

/-- What is remembered of the terms agrees with what a member holds and
sends. -/
structure Sworn (members : List NodeId) (chron : Chronicle σ) (id : NodeId)
    (standing : Standing σ) : Prop where
  stored_term : standing.stored.1 = standing.term
  entries_le : ∀ entry ∈ standing.entries, entry.term ≤ standing.term
  taken_term : ∀ term, 0 < chron.taken id term → term ≤ standing.term
  bid : standing.role = .candidate →
    chron.bid id standing.term = standing.entries
  led : standing.role = .leader →
    chron.taken id standing.term = standing.entries.length
  matched : ∀ leadership, standing.leadership = some leadership →
    ∀ peer index, leadership.matchIndex.get? peer = some index →
      index ≤ chron.taken peer standing.term
  asks : ∀ peer request, .vote peer request ∈ standing.mail →
    request.term ≤ standing.term ∧
      request.lastLogIndex = (chron.bid id request.term).length ∧
      request.lastLogTerm = lastTermOf (chron.bid id request.term)
  commit : chron.Certified members standing.term standing.entries
    standing.commitIndex
  settled : standing.Settled
  posts : ∀ peer request, .append peer request ∈ standing.mail →
    chron.Backed members request.term request.commitIndex

/-- What may be chosen is held by whoever took it over, is in the log of
whoever they vote for, and is in the log of every later leader. -/
structure Commitment (members : List NodeId) (chron : Chronicle σ) : Prop where
  sworn : ∀ id ∈ members, Sworn members chron id (chron.standing id)
  canon_le : ∀ term, ∀ entry ∈ chron.canon term, entry.term ≤ term
  taken_le : ∀ voter term,
    chron.taken voter term ≤ (chron.canon term).length
  later : ∀ term index, chron.Choosable members term index →
    ∀ next, term < next → chron.winner next ≠ none →
      (chron.canon next).take index = (chron.canon term).take index
  held : ∀ term index, chron.Choosable members term index →
    ∀ voter ∈ members, index ≤ chron.taken voter term →
      (chron.standing voter).entries.take index =
        (chron.canon term).take index
  voted : ∀ term index, chron.Choosable members term index →
    ∀ voter ∈ members, ∀ next candidate,
      chron.ballot voter next = some candidate → term < next →
      index ≤ chron.taken voter term →
        (chron.bid candidate next).take index =
          (chron.canon term).take index
  bids : ∀ id term, chron.Follows (chron.bid id term)
  stood : ∀ voter ∈ members, ∀ term next candidate,
    chron.ballot voter next = some candidate → term < next →
    0 < chron.taken voter term → next ≤ (chron.standing candidate).term
  asked : ∀ sender receiver request,
    ⟨sender, receiver, .vote request⟩ ∈ chron.scene.sent →
      chron.Honest sender request
  confirmed : ∀ voter receiver appended,
    ⟨voter, receiver, .appendResponse (.ok appended)⟩ ∈ chron.scene.sent →
      appended.succeeded = true →
        appended.lastLogIndex ≤ chron.taken voter appended.term
  backed : ∀ sender receiver request,
    ⟨sender, receiver, .append request⟩ ∈ chron.scene.sent →
      chron.Backed members request.term request.commitIndex

section Static

variable {members : List NodeId} {chron : Chronicle σ} {term index : Nat}

/-- A log that is not empty begins the log that was led in the term of its last
entry. -/
theorem Chronicle.Follows.last {log : List LogEntry}
    (hfollows : chron.Follows log) (hlength : 0 < log.length) :
    chron.winner (lastTermOf log) ≠ none ∧
      log <+: chron.canon (lastTermOf log) ∧
      ∃ entry, log[log.length - 1]? = some entry ∧
        entry.term = lastTermOf log := by
  have hplace : log.length - 1 + 1 = log.length := Nat.sub_add_cancel hlength
  obtain ⟨entry, hentry⟩ : ∃ entry, log[log.length - 1]? = some entry :=
    ⟨_, List.getElem?_eq_getElem (by omega)⟩
  have hterm : entry.term = lastTermOf log := by
    rw [lastTermOf, ← hplace, termOf_succ_of_getElem? hentry]
  obtain ⟨hwon, hinit⟩ := hfollows _ entry hentry
  rw [hplace, List.take_length] at hinit
  rw [← hterm]
  exact ⟨hwon, hinit, entry, hentry, rfl⟩

/-- Whatever may be chosen is in the log of its own term's leader and of all
later ones. -/
theorem Commitment.take_canon (hcommitment : Commitment members chron)
    (hchoosable : chron.Choosable members term index) {later : Nat}
    (hle : term ≤ later) (hwon : chron.winner later ≠ none) :
    (chron.canon later).take index = (chron.canon term).take index := by
  rcases Nat.lt_or_eq_of_le hle with hlt | rfl
  · exact hcommitment.later term index hchoosable later hlt hwon
  · rfl

/-- A log that is at least as new as one that holds what may be chosen holds it
as well. -/
theorem Commitment.take_of_newer (hcommitment : Commitment members chron)
    (hchoosable : chron.Choosable members term index)
    {log newer : List LogEntry} (hlog : chron.Follows log)
    (hnewer : chron.Follows newer)
    (hheld : log.take index = (chron.canon term).take index)
    (hcompared : lastTermOf log < lastTermOf newer ∨
      lastTermOf newer = lastTermOf log ∧ log.length ≤ newer.length) :
    newer.take index = (chron.canon term).take index := by
  obtain ⟨hpositive, hcanonLength⟩ :=
    Chronicle.index_bounds hchoosable.own hchoosable.positive
  have hlogLength := length_le_of_take_eq hheld hcanonLength
  obtain ⟨-, hlogInit, -⟩ := hlog.last (by omega)
  have hreached : term ≤ lastTermOf log := by
    obtain ⟨place, entry, rfl, hentry, rfl⟩ :=
      Chronicle.exists_of_termOf hchoosable.own hchoosable.positive
    rw [← getElem?_eq_of_take_eq hheld (Nat.lt_succ_self place)] at hentry
    exact hcommitment.canon_le _ entry
      (List.mem_of_getElem? (getElem?_of_isPrefix hlogInit hentry))
  have hnonempty : 0 < newer.length := by
    by_contra hempty
    have hzero : lastTermOf newer = 0 := by
      rw [lastTermOf, Nat.eq_zero_of_not_pos hempty, termOf_zero]
    have hterm := hchoosable.positive
    omega
  obtain ⟨hwon, hinit, last, hlast, hlastTerm⟩ := hnewer.last hnonempty
  have hle : term ≤ lastTermOf newer := by omega
  have hcanon := hcommitment.take_canon hchoosable hle hwon
  have hlength : index ≤ newer.length := by
    rcases hcompared with hlt | ⟨-, hle⟩
    · -- Were the newer log too short, its last entry would be one of the
      -- leader's and so of a term that is too early.
      by_contra hshort
      have hearly := getElem?_of_isPrefix hinit hlast
      rw [getElem?_eq_of_take_eq hcanon (by omega)] at hearly
      have hle := hcommitment.canon_le term last (List.mem_of_getElem? hearly)
      omega
    · omega
  rw [take_eq_of_isPrefix hinit hlength, hcanon]

end Static

namespace Move

variable [StateMachine σ] {before after : Standing σ} {steady : Prop}
  {input : Input}

/-- How a vote comes to be stored. -/
theorem stored_cases (hmove : Move steady input before after) :
    after.stored = before.stored ∨ after.stored.2 = none ∨
      (after.role = .candidate ∧ after.term = before.term + 1 ∧
        after.entries = before.entries ∧
        after.stored = (after.term, some before.id)) ∨
      ∃ request, input = .vote request ∧ request.term = before.term ∧
        after.stored = (before.term, some request.candidate) ∧
        (lastTermOf before.entries < request.lastLogTerm ∨
          request.lastLogTerm = lastTermOf before.entries ∧
            before.entries.length ≤ request.lastLogIndex) := by
  cases hmove with
  | adopt _ hstored _ =>
      rcases hstored with rfl | ⟨-, rfl⟩
      · exact Or.inr (Or.inl rfl)
      · exact Or.inl rfl
  | stand _ => exact Or.inr (Or.inr (Or.inl ⟨rfl, rfl, rfl, rfl⟩))
  | grant hinput hterm _ hlog =>
      exact Or.inr (Or.inr (Or.inr ⟨_, hinput, hterm, rfl, hlog⟩))
  | _ => exact Or.inl rfl

/-- A candidate stands with the log it has. -/
theorem candidate_cases (hmove : Move steady input before after)
    (hrole : after.role = .candidate) :
    after.entries = before.entries ∧
      (before.role = .candidate ∧ after.term = before.term ∨
        after.term = before.term + 1) := by
  cases hmove with
  | adopt _ _ _ => simp at hrole
  | yield _ => simp at hrole
  | stand _ => exact ⟨rfl, Or.inr rfl⟩
  | lead _ _ => simp [Standing.led] at hrole
  | extend _ hleads =>
      simp only at hrole
      simp [hleads] at hrole
  | merge _ _ hfollows _ _ _ =>
      simp only at hrole
      simp [hfollows] at hrole
  | _ => exact ⟨rfl, Or.inl ⟨hrole, rfl⟩⟩

end Move

end SessionRaft
