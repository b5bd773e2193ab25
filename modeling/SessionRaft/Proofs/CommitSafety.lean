/-
What a member commits was chosen, whatever happens in the cluster.
-/
import SessionRaft.Proofs.LeaderCompleteness

namespace SessionRaft

variable {σ : Type}

namespace Chronicle

variable {members : List NodeId} {chron : Chronicle σ}

/-- Logs that are certified agree as far as both are. -/
theorem Certified.agree (hcommitment : Commitment members chron)
    (hmatching : Matching members chron) {first second : Nat}
    {left right : List LogEntry} {index other count : Nat}
    (hleft : chron.Certified members first left index)
    (hright : chron.Certified members second right other)
    (hindex : count ≤ index) (hother : count ≤ other) :
    left.take count = right.take count := by
  rcases hleft with rfl | ⟨origin, last, -, hchosen, hlast, htake⟩
  · simp [Nat.le_zero.mp hindex]
  rcases hright with rfl | ⟨source, final, -, hselected, hfinal, hsame⟩
  · simp [Nat.le_zero.mp hother]
  have hwon : ∀ {term last}, chron.Chosen members term last →
      chron.winner term ≠ none := by
    intro term last hchosen hnobody
    have hown := hchosen.own
    have hbounds := index_bounds hown hchosen.positive
    rw [hmatching.unwon term hnobody, List.length_nil] at hbounds
    omega
  rw [take_eq_of_take_eq htake hindex, take_eq_of_take_eq hsame hother]
  rcases Nat.le_total origin source with hle | hle
  · exact (take_eq_of_take_eq (hcommitment.take_canon hchosen.choosable hle
      (hwon hselected)) (by omega)).symm
  · exact take_eq_of_take_eq (hcommitment.take_canon hselected.choosable hle
      (hwon hchosen)) (by omega)

end Chronicle

variable [StateMachine σ] {members : List NodeId} {chron : Chronicle σ}
  {steady : Prop} {id : NodeId} {input : Input} {after : Standing σ}

namespace Noted

variable (hnoted : Noted members chron steady id input after)

include hnoted

theorem stored_term_move : after.stored.1 = after.term := by
  have hstored := hnoted.sworn.stored_term
  have hmove := hnoted.move
  cases hmove with
  | adopt _ hnew _ =>
      rcases hnew with rfl | ⟨hunsteady, -⟩
      · rfl
      · exact absurd hnoted.steadily hunsteady
  | stand _ => rfl
  | grant _ _ _ _ => rfl
  | _ => exact hstored

theorem entries_le_move (entry : LogEntry) (hentry : entry ∈ after.entries) :
    entry.term ≤ after.term := by
  have hold := hnoted.sworn.entries_le
  have haddressed := hnoted.matching.addressed_of_brings hnoted.brings
  have hcopied := hnoted.copied
  have hmove := hnoted.move
  cases hmove with
  | adopt hterm _ _ => exact Nat.le_trans (hold entry hentry) (Nat.le_of_lt hterm)
  | stand _ => exact Nat.le_succ_of_le (hold entry hentry)
  | extend operation _ =>
      rcases List.mem_append.mp hentry with hentry | hnew
      · exact hold entry hentry
      · obtain rfl := List.mem_singleton.mp hnew
        exact Nat.le_refl _
  | merge hinput hterm _ hprevious hjoin hspliced =>
      obtain ⟨sender, hgenuine⟩ := haddressed _ hinput
      rcases hgenuine.rejoined hcopied.follows (hnoted.matching.follows _)
        hprevious hjoin hspliced with rfl | ⟨_, _, _, _, _, hinit⟩
      · exact hold entry hentry
      · rw [hterm] at hinit
        exact hnoted.commitment.canon_le _ entry (hinit.mem hentry)
  | _ => exact hold entry hentry

theorem taken_term_move (term : Nat)
    (htaken : 0 < (chron.note id after).taken id term) : term ≤ after.term := by
  rcases chron.note_taken_cases id after id term with heq | ⟨-, -, rfl, -⟩
  · rw [heq] at htaken
    exact Nat.le_trans (hnoted.sworn.taken_term term htaken)
      hnoted.move.term_le
  · exact Nat.le_refl _

/-- What a peer says that it has taken over it has taken over. -/
theorem confirmed_input {peer : NodeId} {appended : Appended}
    (hinput : input = .appendResponse peer (.ok appended))
    (hsucceeded : appended.succeeded = true) :
    appended.lastLogIndex ≤ chron.taken peer appended.term := by
  subst hinput
  rcases hnoted.brings with hlocal |
    ⟨⟨sender, receiver, packet⟩, hsent, rfl, heq⟩
  · simp [Input.isLocal] at hlocal
  · cases packet with
    | appendResponse response =>
        obtain ⟨rfl, rfl⟩ := Input.appendResponse.inj heq
        exact hnoted.commitment.confirmed _ _ _ hsent hsucceeded
    | vote request => simp [Envelope.input] at heq
    | voteResponse response => simp [Envelope.input] at heq
    | append request => simp [Envelope.input] at heq

theorem matched_move (leadership : Leadership)
    (hleadership : after.leadership = some leadership) (peer : NodeId)
    (index : Nat) (hget : leadership.matchIndex.get? peer = some index) :
    index ≤ (chron.note id after).taken peer after.term := by
  refine Nat.le_trans ?_ (hnoted.taken_le peer after.term)
  have hold := hnoted.sworn.matched
  have hconfirmed := @hnoted.confirmed_input
  have hmove := hnoted.move
  cases hmove with
  | adopt _ _ _ => simp at hleadership
  | yield _ => simp at hleadership
  | retire _ => simp at hleadership
  | stand hnone =>
      simp only at hleadership
      rw [hnone] at hleadership
      simp at hleadership
  | lead _ _ =>
      obtain rfl := Option.some.inj hleadership
      simp only [Standing.newLeadership, Table.get?_ofKeys] at hget
      split at hget
      · exact (Option.some.inj hget) ▸ Nat.zero_le _
      · simp at hget
  | heed hinput hterm _ hsome _ =>
      obtain rfl := Option.some.inj hleadership
      rcases Leadership.heed_matchIndex hget with hold' | ⟨rfl, hsucceeded, rfl⟩
      · exact hold _ hsome peer index hold'
      · rw [← hterm]
        exact Nat.le_trans (Nat.min_le_left _ _) (hconfirmed hinput hsucceeded)
  | @round begun hsome =>
      obtain rfl := Option.some.inj hleadership
      exact hold begun hsome peer index hget
  | _ => exact hold leadership hleadership peer index hget

theorem asks_move (peer : NodeId) (request : VoteRequest)
    (hmail : .vote peer request ∈ after.mail) :
    request.term ≤ after.term ∧
      request.lastLogIndex =
        ((chron.note id after).bid id request.term).length ∧
      request.lastLogTerm =
        lastTermOf ((chron.note id after).bid id request.term) := by
  have hold : .vote peer request ∈ (chron.standing id).mail →
      request.term ≤ after.term ∧
        request.lastLogIndex =
          ((chron.note id after).bid id request.term).length ∧
        request.lastLogTerm =
          lastTermOf ((chron.note id after).bid id request.term) := by
    intro hmail
    obtain ⟨hreached, hindex, hterm⟩ := hnoted.sworn.asks peer request hmail
    rw [hnoted.bid_eq hreached]
    exact ⟨Nat.le_trans hreached hnoted.move.term_le, hindex, hterm⟩
  have hmove := hnoted.move
  cases hmove with
  | stand _ =>
      rcases List.mem_append.mp hmail with hmail | hmail
      · exact hold hmail
      · obtain ⟨other, -, heq⟩ := List.mem_map.mp hmail
        obtain ⟨-, rfl⟩ := Outbound.vote.inj heq
        simp only [Chronicle.note_bid, ↓reduceIte, mark_self]
        exact ⟨Nat.le_refl _, rfl, rfl⟩
  | post other limit _ =>
      rcases List.mem_append.mp hmail with hmail | hmail
      · exact hold hmail
      · simp at hmail
  | _ => exact hold hmail

/-- What enough peers hold by a leader's own account a majority has taken
over. -/
theorem majority_of_replicas {leadership : Leadership} {target : Nat}
    (hleadership : (chron.standing id).leadership = some leadership)
    (hle : target ≤ (chron.standing id).entries.length)
    (hquorum : (chron.standing id).quorum ≤
      Node.replicas leadership target) :
    Majority members (fun voter =>
      target ≤ chron.taken voter (chron.standing id).term) := by
  have hentitled := hnoted.entitled
  have hsworn := hnoted.sworn
  have hrole := hentitled.led (by rw [hleadership]; rfl)
  have hrow : ∀ row ∈ leadership.matchIndex.rows, row.1 ∈ members ∧
      row.1 ≠ id ∧ row.2 ≤ chron.taken row.1 (chron.standing id).term := by
    intro row hrow
    have hget := (Table.get?_eq_some_iff _ row.1 row.2).mpr hrow
    obtain ⟨hpeer, -⟩ := hnoted.copied.matched _ hleadership _ _ hget
    simp only [Standing.peers, hentitled.members_eq, hentitled.id_eq,
      List.mem_filter, bne_iff_ne] at hpeer
    exact ⟨hpeer.1, hpeer.2, hsworn.matched _ hleadership _ _ hget⟩
  let reached := leadership.matchIndex.rows.filter
    (fun row => decide (target ≤ row.2))
  have hreached : ∀ row ∈ reached, row ∈ leadership.matchIndex.rows ∧
      target ≤ row.2 := fun row hmem => by
    simpa [reached] using hmem
  refine ⟨id :: reached.map Prod.fst, ?_, ?_, ?_, ?_⟩
  · refine List.nodup_cons.mpr ⟨fun hmem => ?_, ?_⟩
    · obtain ⟨row, hmem, heq⟩ := List.mem_map.mp hmem
      exact (hrow row (hreached row hmem).1).2.1 heq
    · apply List.Pairwise.map _ (fun left right hlt => Nat.ne_of_lt hlt)
      exact leadership.matchIndex.ascending.sublist List.filter_sublist
  · intro voter hvoter
    rcases List.mem_cons.mp hvoter with rfl | hvoter
    · exact hnoted.member
    · obtain ⟨row, hmem, rfl⟩ := List.mem_map.mp hvoter
      exact (hrow row (hreached row hmem).1).1
  · rw [Standing.quorum, hentitled.members_eq, Node.replicas, Table.values,
      List.countP_map, List.countP_eq_length_filter] at hquorum
    rw [List.length_cons, List.length_map, Nat.add_comm reached.length]
    exact hquorum
  · intro voter hvoter
    rcases List.mem_cons.mp hvoter with rfl | hvoter
    · rw [hsworn.led hrole]
      exact hle
    · obtain ⟨row, hmem, rfl⟩ := List.mem_map.mp hvoter
      obtain ⟨hrows, htarget⟩ := hreached row hmem
      exact Nat.le_trans htarget (hrow row hrows).2.2

/-- A leader that commits an entry of its own term has had it chosen. -/
theorem chosen_of_commit {leadership : Leadership} {target : Nat}
    (hleadership : (chron.standing id).leadership = some leadership)
    (hle : target ≤ (chron.standing id).entries.length)
    (hterm : termOf (chron.standing id).entries target =
      (chron.standing id).term)
    (hquorum : (chron.standing id).quorum ≤
      Node.replicas leadership target) :
    chron.Certified members (chron.standing id).term
      (chron.standing id).entries target := by
  have hrole := hnoted.entitled.led (by rw [hleadership]; rfl)
  have hcanon := hnoted.copied.leader hrole
  refine Or.inr ⟨_, target, Nat.le_refl _, ⟨?_, ?_,
    hnoted.majority_of_replicas hleadership hle hquorum⟩, Nat.le_refl _, ?_⟩
  · exact hnoted.copied.risen (by simp [hrole])
  · rw [hcanon]
    exact hterm
  · rw [hcanon]

/-- What a leader tells to be committed, and what a member holds of it, was
chosen. -/
theorem certified_of_hear {request : AppendRequest} {target : Nat}
    (hinput : input = .append request)
    (hterm : request.term = (chron.standing id).term)
    (hjoined : (chron.standing id).Joined request)
    (htarget : target ≤ request.commitIndex)
    (hmatched : target ≤ request.prevLogIndex + request.entries.length) :
    chron.Certified members (chron.standing id).term
      (chron.standing id).entries target := by
  subst hinput
  have hbacked : chron.Backed members request.term request.commitIndex := by
    rcases hnoted.brings with hlocal |
      ⟨⟨sender, receiver, packet⟩, hsent, rfl, heq⟩
    · simp [Input.isLocal] at hlocal
    · cases packet with
      | append given =>
          obtain rfl := Input.append.inj heq
          exact hnoted.commitment.backed _ _ _ hsent
      | vote given => simp [Envelope.input] at heq
      | voteResponse response => simp [Envelope.input] at heq
      | appendResponse response => simp [Envelope.input] at heq
  obtain ⟨sender, hgenuine⟩ :=
    hnoted.matching.addressed_of_brings hnoted.brings request rfl
  obtain ⟨-, -, hagree⟩ := hgenuine.joined hnoted.copied.follows
    (hnoted.matching.follows _) hjoined.1 hjoined.2.1 List.prefix_rfl
    hjoined.2.2
  rcases hbacked with hzero | ⟨origin, last, hle, hchosen, hlast⟩
  · exact Or.inl (by omega)
  · have hcanon := hnoted.commitment.take_canon hchosen.choosable hle
      (by rw [hgenuine.winner]; simp)
    refine Or.inr ⟨origin, last, hterm ▸ hle, hchosen, by omega, ?_⟩
    exact (take_eq_of_take_eq hagree hmatched).trans
      (take_eq_of_take_eq hcanon (by omega))

theorem commit_move : (chron.note id after).Certified members after.term
    after.entries after.commitIndex := by
  have hkept : chron.Certified members (chron.standing id).term
      (chron.standing id).entries (chron.standing id).commitIndex →
      after.entries.take (chron.standing id).commitIndex =
        (chron.standing id).entries.take (chron.standing id).commitIndex →
      (chron.note id after).Certified members after.term after.entries
        (chron.standing id).commitIndex := fun hcertified htake =>
    hcertified.mono hnoted.ages hnoted.move.term_le htake
  have hsame := hkept hnoted.sworn.commit
    (hnoted.move.settled hnoted.sworn.settled).2.kept
  have hages := hnoted.ages
  have hchosen := @hnoted.chosen_of_commit
  have hheard := @hnoted.certified_of_hear
  have hmove := hnoted.move
  cases hmove with
  | hear hinput hterm hjoined htarget hmatched _ =>
      exact (hheard hinput hterm hjoined htarget hmatched).mono hages
        (Nat.le_refl _) rfl
  | commit hleadership _ hle hterm hquorum =>
      exact (hchosen hleadership hle hterm hquorum).mono hages
        (Nat.le_refl _) rfl
  | _ => exact hsame

theorem posts_move (peer : NodeId) (request : AppendRequest)
    (hmail : .append peer request ∈ after.mail) :
    (chron.note id after).Backed members request.term request.commitIndex := by
  refine Chronicle.Backed.mono ?_ hnoted.ages
  have hold := hnoted.sworn.posts peer request
  have hcommit := hnoted.sworn.commit
  have hmove := hnoted.move
  cases hmove with
  | stand _ =>
      rcases List.mem_append.mp hmail with hmail | hmail
      · exact hold hmail
      · obtain ⟨_, -, heq⟩ := List.mem_map.mp hmail
        simp at heq
  | post other limit hleadership =>
      rcases List.mem_append.mp hmail with hmail | hmail
      · exact hold hmail
      · rw [List.mem_singleton] at hmail
        obtain ⟨-, rfl⟩ := Outbound.append.inj hmail
        exact hcommit.backed
  | _ => exact hold hmail

theorem sworn_move : Sworn members (chron.note id after) id after where
  stored_term := hnoted.stored_term_move
  entries_le := hnoted.entries_le_move
  taken_term := hnoted.taken_term_move
  bid hrole := by rw [Chronicle.note_bid, if_pos hrole, mark_self]
  led hrole := by rw [Chronicle.note_taken, if_pos hrole, mark_self]
  matched := hnoted.matched_move
  asks := hnoted.asks_move
  commit := hnoted.commit_move
  settled := (hnoted.move.settled hnoted.sworn.settled).1
  posts := hnoted.posts_move

end Noted

end SessionRaft
