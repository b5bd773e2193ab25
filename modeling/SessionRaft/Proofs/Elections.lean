/-
Nobody votes twice in a term, so no two elections of a term are won: any two
majorities share a member.
-/
import SessionRaft.Proofs.Chronicle

namespace SessionRaft

variable {σ : Type}

/-- A majority of the members, each of which satisfies a property. -/
def Majority (members : List NodeId) (property : NodeId → Prop) : Prop :=
  ∃ voters : List NodeId, voters.Nodup ∧ voters ⊆ members ∧
    members.length / 2 + 1 ≤ voters.length ∧ ∀ voter ∈ voters, property voter

theorem Majority.mono {members : List NodeId} {first second : NodeId → Prop}
    (hfirst : Majority members first)
    (himp : ∀ voter ∈ members, first voter → second voter) :
    Majority members second := by
  obtain ⟨voters, hdistinct, hmembers, hcount, hall⟩ := hfirst
  exact ⟨voters, hdistinct, hmembers, hcount, fun voter hvoter =>
    himp voter (hmembers hvoter) (hall voter hvoter)⟩

/-- Two majorities share a member. -/
theorem Majority.inter {members : List NodeId} {first second : NodeId → Prop}
    (hfirst : Majority members first) (hsecond : Majority members second) :
    ∃ voter ∈ members, first voter ∧ second voter := by
  obtain ⟨left, hleft, hleftMembers, hleftCount, hleftAll⟩ := hfirst
  obtain ⟨right, hright, hrightMembers, hrightCount, hrightAll⟩ := hsecond
  by_contra hnone
  have hboth : (left ++ right).Nodup := by
    refine List.nodup_append.mpr ⟨hleft, hright, fun voter hl other hr heq => ?_⟩
    subst heq
    exact hnone ⟨voter, hleftMembers hl, hleftAll voter hl, hrightAll voter hr⟩
  have hle := hboth.length_le_of_subset
    (List.append_subset.mpr ⟨hleftMembers, hrightMembers⟩)
  rw [List.length_append] at hle
  omega

/-- What is remembered of the elections agrees with what a member has
stored. -/
structure Entitled (members : List NodeId) (chron : Chronicle σ) (id : NodeId)
    (standing : Standing σ) : Prop where
  id_eq : standing.id = id
  members_eq : standing.members = members
  stored_le : standing.stored.1 ≤ standing.term
  stored_eq : standing.stored.1 = standing.term →
    standing.stored.2 = standing.votedFor
  stored_lt : standing.stored.1 < standing.term → standing.votedFor = none
  ballot_stored : chron.ballot id standing.stored.1 = standing.stored.2
  ballot_above : ∀ term, standing.stored.1 < term → chron.ballot id term = none
  winner_le : ∀ term, chron.winner term = some id → term ≤ standing.stored.1
  candidate : standing.role = .candidate →
    standing.stored = (standing.term, some id) ∧
      chron.winner standing.term ≠ some id
  votes : standing.role = .candidate → standing.votes.Nodup ∧
    ∀ voter ∈ standing.votes,
      voter ∈ members ∧ chron.ballot voter standing.term = some id
  leader : standing.role = .leader → chron.winner standing.term = some id
  led : standing.leadership.isSome = true → standing.role = .leader
  asks : ∀ peer request, .vote peer request ∈ standing.mail →
    request.candidate = id

/-- What is remembered of the elections is true of all members and of all
messages. -/
structure Elections (members : List NodeId) (chron : Chronicle σ) : Prop where
  entitled : ∀ id ∈ members, Entitled members chron id (chron.standing id)
  elected : ∀ term id, chron.winner term = some id → id ∈ members ∧
    Majority members (fun voter => chron.ballot voter term = some id)
  granted : ∀ voter id term,
    ⟨voter, id, .voteResponse (.ok ⟨term, true⟩)⟩ ∈ chron.scene.sent →
      chron.ballot voter term = some id
  asked : ∀ sender receiver request,
    ⟨sender, receiver, .vote request⟩ ∈ chron.scene.sent →
      request.candidate = sender

/-- No vote and no victory is forgotten. -/
structure Chronicle.Kept (before after : Chronicle σ) : Prop where
  ballot : ∀ voter term id, before.ballot voter term = some id →
    after.ballot voter term = some id
  winner : ∀ term id, before.winner term = some id →
    after.winner term = some id

theorem Chronicle.Kept.refl (chron : Chronicle σ) : chron.Kept chron :=
  ⟨fun _ _ _ h => h, fun _ _ h => h⟩

theorem Chronicle.Kept.trans {before middle after : Chronicle σ}
    (hfirst : before.Kept middle) (hsecond : middle.Kept after) :
    before.Kept after :=
  ⟨fun voter term id h => hsecond.ballot voter term id
      (hfirst.ballot voter term id h),
    fun term id h => hsecond.winner term id (hfirst.winner term id h)⟩

variable [StateMachine σ] {members : List NodeId} {chron : Chronicle σ}
  {id : NodeId} {before after : Standing σ} {steady : Prop} {input : Input}

/-- The input that a member takes, if it is a vote, was given. -/
def Granted (chron : Chronicle σ) (id : NodeId) (input : Input) : Prop :=
  ∀ member term, input = .voteResponse member (.ok ⟨term, true⟩) →
    chron.ballot member term = some id

/-- A stored vote stands. -/
theorem Entitled.ballot_kept (hentitled : Entitled members chron id before)
    (hmove : Move steady input before after) {vote : NodeId}
    (hballot : chron.ballot id after.stored.1 = some vote) :
    after.stored.2 = some vote := by
  have hkept : chron.ballot id before.stored.1 = some vote →
      before.stored.2 = some vote := fun h => hentitled.ballot_stored ▸ h
  cases hmove with
  | @adopt term stored hterm hstored _ =>
      have hle := hentitled.stored_le
      rcases hstored with rfl | ⟨-, rfl⟩
      · rw [hentitled.ballot_above term (by omega)] at hballot
        simp at hballot
      · exact hkept hballot
  | stand _ =>
      have hle := hentitled.stored_le
      simp only at hballot
      rw [hentitled.ballot_above _ (by omega)] at hballot
      simp at hballot
  | grant _ _ hfree _ =>
      simp only at hballot
      rcases Nat.lt_or_eq_of_le hentitled.stored_le with hlt | heq
      · rw [hentitled.ballot_above _ hlt] at hballot
        simp at hballot
      · rw [← heq, hentitled.ballot_stored, hentitled.stored_eq heq] at hballot
        rcases hfree with hnone | hsome
        · rw [hnone] at hballot
          simp at hballot
        · exact hsome.symm.trans hballot
  | _ => exact hkept hballot

omit [StateMachine σ] in
/-- A candidate that can win has the votes of a majority. -/
theorem Entitled.majority (hentitled : Entitled members chron id before)
    (hrole : before.role = .candidate)
    (hquorum : before.quorum ≤ before.votes.length) :
    Majority members (fun voter =>
      chron.ballot voter before.term = some id) := by
  obtain ⟨hdistinct, hgiven⟩ := hentitled.votes hrole
  rw [Standing.quorum, hentitled.members_eq] at hquorum
  exact ⟨before.votes, hdistinct, fun voter hvoter => (hgiven voter hvoter).1,
    hquorum, fun voter hvoter => (hgiven voter hvoter).2⟩

/-- Whoever comes to lead a term is the only one to have won it. -/
theorem Entitled.winner_kept (helections : Elections members chron)
    (hentitled : Entitled members chron id before)
    (hmove : Move steady input before after) (hrole : after.role = .leader)
    {other : NodeId} (hwinner : chron.winner after.term = some other) :
    other = id := by
  rcases hmove.leads hrole with ⟨hleads, hterm⟩ |
    ⟨hcandidate, hquorum, rfl⟩
  · rw [← hterm, hentitled.leader hleads] at hwinner
    exact (Option.some.inj hwinner).symm
  · obtain ⟨-, hvotes⟩ := helections.elected _ _ hwinner
    obtain ⟨voter, -, hfirst, hsecond⟩ :=
      hvotes.inter (hentitled.majority hcandidate hquorum)
    exact Option.some.inj (hfirst.symm.trans hsecond)

/-- Nobody has won a term before a candidate can win it. -/
theorem Entitled.unwon (helections : Elections members chron)
    (hentitled : Entitled members chron id before)
    (hrole : before.role = .candidate)
    (hquorum : before.quorum ≤ before.votes.length) :
    chron.winner before.term = none := by
  by_contra hsome
  obtain ⟨winner, hwinner⟩ := Option.ne_none_iff_exists'.mp hsome
  have hlead : Move True .heartbeat before before.led := .lead hrole hquorum
  obtain rfl := hentitled.winner_kept helections hlead rfl hwinner
  exact (hentitled.candidate hrole).2 hwinner

/-- A move forgets nothing. -/
theorem Entitled.kept (helections : Elections members chron)
    (hentitled : Entitled members chron id before)
    (hmove : Move steady input before after) : chron.Kept (chron.note id after) := by
  refine ⟨fun voter term vote hballot => ?_, fun term winner hwinner => ?_⟩
  · by_cases hne : voter = id ∧ term = after.stored.1
    · obtain ⟨rfl, rfl⟩ := hne
      simpa [Chronicle.note] using hentitled.ballot_kept hmove hballot
    · rwa [Chronicle.note_ballot,
        mark_of_ne _ _ (Classical.not_and_iff_not_or_not.mp hne)]
  · rw [Chronicle.note_winner]
    split
    · rename_i hrole
      by_cases hterm : term = after.term
      · subst hterm
        rw [Function.update_self,
          hentitled.winner_kept helections hmove hrole hwinner]
      · rwa [Function.update_of_ne hterm]
    · exact hwinner

omit [StateMachine σ] in
theorem Entitled.congr {next : Chronicle σ}
    (hentitled : Entitled members chron id before)
    (hballot : next.ballot = chron.ballot)
    (hwinner : next.winner = chron.winner) :
    Entitled members next id before := by
  exact { hentitled with
    ballot_stored := hballot ▸ hentitled.ballot_stored
    ballot_above := hballot ▸ hentitled.ballot_above
    winner_le := hwinner ▸ hentitled.winner_le
    candidate := hwinner ▸ hentitled.candidate
    votes := hballot ▸ hentitled.votes
    leader := hwinner ▸ hentitled.leader }

omit [StateMachine σ] in
/-- A move that neither stores a vote nor wins an election changes nothing of
what is remembered of the elections. -/
theorem Entitled.note_same (hentitled : Entitled members chron id before)
    (hstored : after.stored = before.stored)
    (hleads : after.role = .leader →
      before.role = .leader ∧ after.term = before.term) :
    (chron.note id after).ballot = chron.ballot ∧
      (chron.note id after).winner = chron.winner := by
  constructor
  · rw [Chronicle.note_ballot, hstored]
    exact mark_eq_self _ _ hentitled.ballot_stored
  · rw [Chronicle.note_winner]
    split
    · rename_i hrole
      obtain ⟨hled, hterm⟩ := hleads hrole
      rw [hterm, ← hentitled.leader hled, Function.update_eq_self]
    · rfl

omit [StateMachine σ] in
theorem Entitled.adopt (hentitled : Entitled members chron id before)
    {term : Nat} {stored : Nat × Option NodeId} (hterm : before.term < term)
    (hstored : stored = (term, none) ∨ stored = before.stored) :
    Entitled members chron id { before with
      term := term
      votedFor := none
      role := .follower
      votes := []
      stored := stored
      leadership := none } := by
  have hle := hentitled.stored_le
  have hbetween : before.stored.1 ≤ stored.1 ∧ stored.1 ≤ term := by
    rcases hstored with rfl | rfl <;> constructor <;> omega
  exact { hentitled with
    stored_le := hbetween.2
    stored_eq := fun heq => by
      rcases hstored with rfl | rfl
      · rfl
      · exact absurd heq (by simp only; omega)
    stored_lt := fun _ => rfl
    ballot_stored := by
      rcases hstored with rfl | rfl
      · exact hentitled.ballot_above term (by omega)
      · exact hentitled.ballot_stored
    ballot_above := fun later hlater =>
      hentitled.ballot_above later (Nat.lt_of_le_of_lt hbetween.1 hlater)
    winner_le := fun won hwon =>
      Nat.le_trans (hentitled.winner_le won hwon) hbetween.1
    candidate := by simp
    votes := by simp
    leader := by simp
    led := by simp }

omit [StateMachine σ] in
theorem Entitled.stand (hentitled : Entitled members chron id before)
    (hid : id ∈ members) (hleadership : before.leadership = none)
    (hafter : after = { before with
      term := before.term + 1
      votedFor := some before.id
      role := .candidate
      votes := [before.id]
      stored := (before.term + 1, some before.id)
      mail := before.mail ++ before.peers.map (fun peer =>
        .vote peer { before.voteRequest with term := before.term + 1 }) }) :
    Entitled members (chron.note id after) id after := by
  have hle := hentitled.stored_le
  have hname := hentitled.id_eq
  have hballot : (chron.note id after).ballot =
      mark chron.ballot id (before.term + 1) (some id) := by
    rw [Chronicle.note_ballot, hafter, hname]
  have hwinner : (chron.note id after).winner = chron.winner := by
    rw [Chronicle.note_winner, hafter]
    rfl
  have hnotYet : chron.winner (before.term + 1) ≠ some id := fun hwon => by
    have := hentitled.winner_le _ hwon
    omega
  subst hafter
  exact { hentitled with
    stored_le := Nat.le_refl _
    stored_eq := fun _ => rfl
    stored_lt := fun hlt => absurd hlt (Nat.lt_irrefl _)
    ballot_stored := by rw [hballot, mark_self, hname]
    ballot_above := fun later hlater => by
      simp only at hlater
      rw [hballot, mark_of_ne _ _ (Or.inr (by omega))]
      exact hentitled.ballot_above later (by omega)
    winner_le := fun won hwon => by
      rw [hwinner] at hwon
      have := hentitled.winner_le won hwon
      simp only
      omega
    candidate := fun _ => ⟨by rw [hname], hwinner ▸ hnotYet⟩
    votes := fun _ => by
      refine ⟨by simp, fun voter hvoter => ?_⟩
      rw [List.mem_singleton, hname] at hvoter
      subst hvoter
      exact ⟨hid, by rw [hballot, mark_self]⟩
    leader := by simp
    led := by simp [hleadership]
    asks := fun peer request hmail => by
      rcases List.mem_append.mp hmail with hmail | hmail
      · exact hentitled.asks peer request hmail
      · obtain ⟨other, -, heq⟩ := List.mem_map.mp hmail
        obtain ⟨-, rfl⟩ := Outbound.vote.inj heq
        exact hname }

omit [StateMachine σ] in
theorem Entitled.grant (hentitled : Entitled members chron id before)
    {vote : NodeId}
    (hfree : before.votedFor = none ∨ before.votedFor = some vote)
    (hafter : after = { before with
      votedFor := some vote
      stored := (before.term, some vote) })
    (hkept : chron.Kept (chron.note id after)) :
    Entitled members (chron.note id after) id after := by
  have hle := hentitled.stored_le
  have hballot : (chron.note id after).ballot =
      mark chron.ballot id before.term (some vote) := by
    rw [Chronicle.note_ballot, hafter]
  have hwinner : (chron.note id after).winner = chron.winner := by
    rw [Chronicle.note_winner, hafter]
    by_cases hrole : before.role = .leader
    · simp only [hrole, ↓reduceIte]
      rw [← hentitled.leader hrole, Function.update_eq_self]
    · simp only [hrole, ↓reduceIte]
  subst hafter
  exact { hentitled with
    stored_le := Nat.le_refl _
    stored_eq := fun _ => rfl
    stored_lt := fun hlt => absurd hlt (Nat.lt_irrefl _)
    ballot_stored := by rw [hballot, mark_self]
    ballot_above := fun later hlater => by
      simp only at hlater
      rw [hballot, mark_of_ne _ _ (Or.inr (by omega))]
      exact hentitled.ballot_above later (by omega)
    winner_le := fun won hwon => by
      rw [hwinner] at hwon
      exact Nat.le_trans (hentitled.winner_le won hwon) hle
    candidate := fun hrole => by
      obtain ⟨hstored, hnotYet⟩ := hentitled.candidate hrole
      have hvoted := hentitled.stored_eq (by rw [hstored])
      rw [hstored] at hvoted
      simp only at hvoted
      rw [← hvoted] at hfree
      obtain rfl : id = vote := by simpa using hfree
      exact ⟨rfl, hwinner ▸ hnotYet⟩
    votes := fun hrole => by
      obtain ⟨hdistinct, hgiven⟩ := hentitled.votes hrole
      exact ⟨hdistinct, fun voter hvoter => ⟨(hgiven voter hvoter).1,
        hkept.ballot _ _ _ (hgiven voter hvoter).2⟩⟩
    leader := fun hrole => by
      rw [hwinner]
      exact hentitled.leader hrole }

omit [StateMachine σ] in
theorem Entitled.lead (hentitled : Entitled members chron id before)
    (hrole : before.role = .candidate)
    (hafter : after = before.led) :
    Entitled members (chron.note id after) id after := by
  obtain ⟨hstored, -⟩ := hentitled.candidate hrole
  have hballot : (chron.note id after).ballot = chron.ballot := by
    rw [Chronicle.note_ballot, hafter]
    exact mark_eq_self _ _ hentitled.ballot_stored
  have hwinner : (chron.note id after).winner =
      Function.update chron.winner before.term (some id) := by
    rw [Chronicle.note_winner, hafter]
    rfl
  subst hafter
  exact { hentitled with
    ballot_stored := hballot ▸ hentitled.ballot_stored
    ballot_above := hballot ▸ hentitled.ballot_above
    winner_le := fun won hwon => by
      by_cases heq : won = before.term
      · subst heq
        simp only [Standing.led, hstored]
        exact Nat.le_refl _
      · rw [hwinner, Function.update_of_ne heq] at hwon
        exact hentitled.winner_le won hwon
    candidate := by simp [Standing.led]
    votes := by simp [Standing.led]
    leader := fun _ => by
      rw [hwinner]
      exact Function.update_self ..
    led := fun _ => rfl }

theorem Entitled.move (helections : Elections members chron)
    (hid : id ∈ members) (hentitled : Entitled members chron id before)
    (hgranted : Granted chron id input)
    (hmove : Move steady input before after) :
    Entitled members (chron.note id after) id after := by
  have hkept := hentitled.kept helections hmove
  have hquiet : after.stored = before.stored →
      (after.role = .leader →
        before.role = .leader ∧ after.term = before.term) →
      Entitled members chron id after →
      Entitled members (chron.note id after) id after := by
    intro hstored hleads hafter
    obtain ⟨hballot, hwinner⟩ := hentitled.note_same hstored hleads
    exact hafter.congr hballot hwinner
  cases hmove with
  | adopt hterm hstored _ =>
      have hafter := hentitled.adopt hterm (hstored.imp_right (fun h => h.2))
      exact hafter.congr (mark_eq_self _ _ hafter.ballot_stored) rfl
  | yield _ =>
      exact hquiet rfl (by simp) { hentitled with
        candidate := by simp
        votes := by simp
        leader := by simp
        led := by simp }
  | retire _ =>
      exact hquiet rfl (fun hrole => ⟨hrole, rfl⟩)
        { hentitled with led := by simp }
  | stand hleadership => exact hentitled.stand hid hleadership rfl
  | grant _ _ hfree _ => exact hentitled.grant hfree rfl hkept
  | count hinput hrole hmember hnew =>
      rename_i member
      refine hquiet rfl (fun hrole => ⟨hrole, rfl⟩) { hentitled with
        votes := fun _ => ?_ }
      obtain ⟨hdistinct, hgiven⟩ := hentitled.votes hrole
      refine ⟨List.nodup_append.mpr ⟨hdistinct, by simp, ?_⟩, ?_⟩
      · intro voter hvoter other hother heq
        rw [List.mem_singleton] at hother
        exact hnew (hother ▸ heq ▸ hvoter)
      · intro voter hvoter
        rcases List.mem_append.mp hvoter with hvoter | hvoter
        · exact hgiven voter hvoter
        · rw [List.mem_singleton] at hvoter
          subst hvoter
          exact ⟨hentitled.members_eq ▸ hmember, hgranted _ _ hinput⟩
  | lead hrole _ => exact hentitled.lead hrole rfl
  | extend _ _ =>
      exact hquiet rfl (fun hrole => ⟨hrole, rfl⟩) { hentitled with }
  | merge _ _ _ _ _ _ =>
      exact hquiet rfl (fun hrole => ⟨hrole, rfl⟩) { hentitled with }
  | hear _ _ _ _ _ _ =>
      exact hquiet rfl (fun hrole => ⟨hrole, rfl⟩) { hentitled with }
  | commit _ _ _ _ _ =>
      exact hquiet rfl (fun hrole => ⟨hrole, rfl⟩) { hentitled with }
  | apply _ _ =>
      exact hquiet rfl (fun hrole => ⟨hrole, rfl⟩) { hentitled with }
  | acknowledge _ _ =>
      exact hquiet rfl (fun hrole => ⟨hrole, rfl⟩) { hentitled with }
  | heed _ _ hrole _ _ =>
      exact hquiet rfl (fun hrole => ⟨hrole, rfl⟩)
        { hentitled with led := fun _ => hrole }
  | round hleadership =>
      exact hquiet rfl (fun hrole => ⟨hrole, rfl⟩) { hentitled with
        led := fun _ => hentitled.led (by rw [hleadership]; rfl) }
  | post peer limit _ =>
      exact hquiet rfl (fun hrole => ⟨hrole, rfl⟩) { hentitled with
        asks := fun other request hmail => hentitled.asks other request
          (by simpa using hmail) }
  | ask _ _ _ _ =>
      exact hquiet rfl (fun hrole => ⟨hrole, rfl⟩) { hentitled with }
  | forgo _ =>
      exact hquiet rfl (fun hrole => ⟨hrole, rfl⟩) { hentitled with }
  | serve _ _ =>
      exact hquiet rfl (fun hrole => ⟨hrole, rfl⟩) { hentitled with }

omit [StateMachine σ] in
/-- What another member does leaves a member's own votes alone. -/
theorem Entitled.other {other : NodeId}
    (hentitled : Entitled members chron other before) (hne : other ≠ id)
    (hkept : chron.Kept (chron.note id after)) :
    Entitled members (chron.note id after) other before := by
  have hballot : ∀ term, (chron.note id after).ballot other term =
      chron.ballot other term := fun term =>
    mark_of_ne _ _ (Or.inl hne)
  have hwinner : ∀ term, (chron.note id after).winner term = some other →
      chron.winner term = some other := by
    intro term hwon
    rw [Chronicle.note_winner] at hwon
    split at hwon
    · by_cases heq : term = after.term
      · subst heq
        rw [Function.update_self] at hwon
        exact absurd (Option.some.inj hwon).symm hne
      · rwa [Function.update_of_ne heq] at hwon
    · exact hwon
  exact { hentitled with
    ballot_stored := (hballot _).trans hentitled.ballot_stored
    ballot_above := fun term hterm =>
      (hballot term).trans (hentitled.ballot_above term hterm)
    winner_le := fun term hwon => hentitled.winner_le term (hwinner term hwon)
    candidate := fun hrole => ⟨(hentitled.candidate hrole).1,
      fun hwon => (hentitled.candidate hrole).2 (hwinner _ hwon)⟩
    votes := fun hrole => ⟨(hentitled.votes hrole).1, fun voter hvoter =>
      ⟨((hentitled.votes hrole).2 voter hvoter).1,
        hkept.ballot _ _ _ ((hentitled.votes hrole).2 voter hvoter).2⟩⟩
    leader := fun hrole => hkept.winner _ _ (hentitled.leader hrole) }

omit [StateMachine σ] in
/-- A vote that a member takes was sent to it. -/
theorem Elections.granted_of_brings (helections : Elections members chron)
    (hbrings : chron.scene.Brings id input) : Granted chron id input := by
  rintro member term rfl
  rcases hbrings with hlocal | ⟨⟨sender, receiver, packet⟩, hsent, rfl, heq⟩
  · simp [Input.isLocal] at hlocal
  · cases packet with
    | voteResponse response =>
        obtain ⟨rfl, rfl⟩ := Input.voteResponse.inj heq
        exact helections.granted _ _ _ hsent
    | vote request => simp [Envelope.input] at heq
    | append request => simp [Envelope.input] at heq
    | appendResponse response => simp [Envelope.input] at heq

/-- Whoever wins a term has the votes of a majority. -/
theorem Elections.elected_move (helections : Elections members chron)
    (hid : id ∈ members)
    (hmove : Move steady input (chron.standing id) after) {term : Nat}
    {winner : NodeId} (hwinner : (chron.note id after).winner term = some winner) :
    winner ∈ members ∧ Majority members (fun voter =>
      (chron.note id after).ballot voter term = some winner) := by
  have hentitled := helections.entitled id hid
  have hkept := hentitled.kept helections hmove
  have hold : chron.winner term = some winner → winner ∈ members ∧
      Majority members (fun voter =>
        (chron.note id after).ballot voter term = some winner) := by
    intro hwon
    obtain ⟨hmember, hmajority⟩ := helections.elected _ _ hwon
    exact ⟨hmember, hmajority.mono (fun voter _ h => hkept.ballot _ _ _ h)⟩
  rw [Chronicle.note_winner] at hwinner
  split at hwinner
  · rename_i hrole
    by_cases heq : term = after.term
    · subst heq
      rw [Function.update_self] at hwinner
      obtain rfl := Option.some.inj hwinner
      rcases hmove.leads hrole with ⟨hleads, hterm⟩ | ⟨hcandidate, hquorum, rfl⟩
      · exact hold (hterm ▸ hentitled.leader hleads)
      · exact ⟨hid, (hentitled.majority hcandidate hquorum).mono
          (fun voter _ hvote => hkept.ballot _ _ _ hvote)⟩
    · rw [Function.update_of_ne heq] at hwinner
      exact hold hwinner
  · exact hold hwinner

theorem Elections.step (helections : Elections members chron)
    {next : Chronicle σ} (hstep : Chronicle.Step steady members chron next) :
    Elections members next ∧ chron.Kept next := by
  cases hstep with
  | @move id input after hid hbrings hmove =>
      have hentitled := helections.entitled id hid
      have hkept := hentitled.kept helections hmove
      refine ⟨⟨fun other hother => ?_, fun term winner hwinner =>
        helections.elected_move hid hmove hwinner, fun voter other term hsent =>
        hkept.ballot _ _ _ (helections.granted _ _ _ hsent), helections.asked⟩,
        hkept⟩
      by_cases heq : other = id
      · subst heq
        rw [Chronicle.note_standing_self]
        exact hentitled.move helections hid
          (helections.granted_of_brings hbrings) hmove
      · rw [Chronicle.note_standing_of_ne _ heq]
        exact (helections.entitled other hother).other heq hkept
  | @mail id hid =>
      have hentitled := helections.entitled id hid
      refine ⟨⟨fun other hother => ?_, helections.elected,
        fun voter candidate term hgranted => ?_,
        fun asker receiver asked hasked => ?_⟩, ⟨fun _ _ _ h => h, fun _ _ h => h⟩⟩
      · refine Entitled.congr (?_ : Entitled members chron other _) rfl rfl
        by_cases heq : other = id
        · subst heq
          simp only [Chronicle.standing, Scene.send_standings, Scene.put_self]
          exact { hentitled with asks := by simp [Standing.emptied] }
        · simp only [Chronicle.standing, Scene.send_standings,
            Scene.put_of_ne heq]
          exact helections.entitled other hother
      · rcases List.mem_append.mp hgranted with hold | hnew
        · exact helections.granted _ _ _ hold
        · obtain ⟨message, -, heq⟩ := List.mem_filterMap.mp hnew
          cases message <;> simp [Outbound.envelope?] at heq
      · rcases List.mem_append.mp hasked with hold | hnew
        · exact helections.asked _ _ _ hold
        · obtain ⟨message, hmessage, heq⟩ := List.mem_filterMap.mp hnew
          cases message with
          | vote peer request =>
              simp only [Outbound.envelope?, Option.some.injEq,
                Envelope.mk.injEq, Packet.vote.injEq] at heq
              obtain ⟨rfl, rfl, rfl⟩ := heq
              rw [hentitled.id_eq]
              exact hentitled.asks _ _ hmessage
          | append peer request => simp [Outbound.envelope?] at heq
          | publish session event recipient =>
              simp [Outbound.envelope?] at heq
  | @vouch id sender request response hid hsent hvouches =>
      refine ⟨⟨fun other hother => (helections.entitled other hother).congr rfl rfl,
        helections.elected, fun voter candidate term hgranted => ?_,
        fun asker receiver asked hasked => ?_⟩, ⟨fun _ _ _ h => h, fun _ _ h => h⟩⟩
      · rcases List.mem_append.mp hgranted with hold | hnew
        · exact helections.granted _ _ _ hold
        · rw [List.mem_singleton] at hnew
          obtain ⟨rfl, rfl, hresponse⟩ := Envelope.mk.inj hnew
          have hentitled := helections.entitled _ hid
          obtain ⟨rfl, hstored⟩ := hvouches term
            (Packet.voteResponse.inj hresponse).symm
          have hballot := hentitled.ballot_stored
          rw [hstored, helections.asked _ _ _ hsent] at hballot
          exact hballot
      · rcases List.mem_append.mp hasked with hold | hnew
        · exact helections.asked _ _ _ hold
        · simp at hnew
  | @confirm id sender request response hid hsent hconfirms =>
      refine ⟨⟨fun other hother => (helections.entitled other hother).congr rfl rfl,
        helections.elected, fun voter candidate term hgranted => ?_,
        fun asker receiver asked hasked => ?_⟩, ⟨fun _ _ _ h => h, fun _ _ h => h⟩⟩
      · exact helections.granted _ _ _
          ((List.mem_append.mp hgranted).resolve_right (by simp))
      · exact helections.asked _ _ _
          ((List.mem_append.mp hasked).resolve_right (by simp))
  | @restart id machine hid =>
      have hentitled := helections.entitled id hid
      refine ⟨⟨fun other hother => Entitled.congr (?_ : Entitled members chron other _) rfl rfl,
        helections.elected, helections.granted, helections.asked⟩,
        ⟨fun _ _ _ h => h, fun _ _ h => h⟩⟩
      by_cases heq : other = id
      · subst heq
        simp only [Chronicle.standing, Scene.put_self]
        exact { hentitled with
          id_eq := rfl
          stored_le := Nat.le_refl _
          stored_eq := fun _ => rfl
          stored_lt := fun hlt => absurd hlt (Nat.lt_irrefl _)
          candidate := by simp [Standing.start]
          votes := by simp [Standing.start]
          leader := by simp [Standing.start]
          led := by simp [Standing.start]
          asks := by simp [Standing.start] }
      · simp only [Chronicle.standing, Scene.put_of_ne heq]
        exact helections.entitled other hother

theorem Elections.steps (helections : Elections members chron)
    {next : Chronicle σ} (hsteps : chron.Steps steady members next) :
    Elections members next ∧ chron.Kept next := by
  induction hsteps with
  | refl => exact ⟨helections, .refl chron⟩
  | tail _ hstep ih =>
      obtain ⟨hnext, hkept⟩ := ih.1.step hstep
      exact ⟨hnext, ih.2.trans hkept⟩

omit [StateMachine σ] in
theorem Elections.first {scene : Scene σ} (hbegins : scene.Begins members) :
    Elections members (Chronicle.first scene) where
  entitled id hid := by
    obtain ⟨stored, entries, machine, hstanding⟩ := hbegins.begins id hid
    have hballot : ∀ term, (Chronicle.first scene).ballot id term =
        if term = stored.1 then stored.2 else none := by
      intro term
      simp only [Chronicle.first, hstanding]
      rfl
    rw [Chronicle.standing, Chronicle.first, hstanding]
    exact {
      id_eq := rfl
      members_eq := rfl
      stored_le := Nat.le_refl _
      stored_eq := fun _ => rfl
      stored_lt := fun hlt => absurd hlt (Nat.lt_irrefl _)
      ballot_stored := by
        apply (hballot _).trans
        simp [Standing.start]
      ballot_above := fun term hterm => by
        apply (hballot _).trans
        simp only [Standing.start] at hterm
        rw [if_neg (by omega)]
      winner_le := by simp
      candidate := by simp [Standing.start]
      votes := by simp [Standing.start]
      leader := by simp [Standing.start]
      led := by simp [Standing.start]
      asks := by simp [Standing.start] }
  elected := by simp [Chronicle.first]
  granted := by simp [Chronicle.first, hbegins.silent]
  asked := by simp [Chronicle.first, hbegins.silent]

/-- Winning an election is remembered, and nobody has won that term before. -/
theorem Elections.wins (helections : Elections members chron)
    (hid : id ∈ members) (hbrings : chron.scene.Brings id input)
    (hwins : Wins steady input (chron.standing id) after) :
    ∃ next, chron.Steps steady members next ∧
      next.scene = chron.scene.put id after ∧
      chron.winner after.term = none ∧
      next.winner after.term = some id := by
  obtain ⟨candidate, hbefore, hrole, hquorum, hterm, hafter⟩ := hwins
  obtain ⟨middle, hmiddle, hmiddleScene⟩ := chron.exists_steps
    (Scene.steps_of_moves hid hbrings hbefore)
  obtain ⟨hmiddleElections, hkept⟩ := helections.steps hmiddle
  have hcandidate : middle.standing id = candidate := by
    rw [Chronicle.standing, hmiddleScene, Scene.put_self]
  have hentitled := hmiddleElections.entitled id hid
  rw [hcandidate] at hentitled
  have hlead : Move steady input candidate candidate.led :=
    .lead hrole hquorum
  have hnobody : chron.winner after.term = none := by
    by_contra hsome
    obtain ⟨winner, hwinner⟩ := Option.ne_none_iff_exists'.mp hsome
    have hstill := hkept.winner _ _ hwinner
    rw [← hterm, hentitled.unwon hmiddleElections hrole hquorum] at hstill
    simp at hstill
  have hbrought : middle.scene.Brings id input := by
    rw [hmiddleScene]
    exact hbrings
  have hled : Chronicle.Step steady members middle
      (middle.note id candidate.led) :=
    .move hid hbrought (by rw [hcandidate]; exact hlead)
  obtain ⟨hledElections, -⟩ := hmiddleElections.step hled
  have hrest : Moves steady input
      ((middle.note id candidate.led).standing id) after := by
    rwa [Chronicle.note_standing_self]
  obtain ⟨next, hnext, hnextScene⟩ := (middle.note id
    candidate.led).exists_steps (Scene.steps_of_moves hid hbrought hrest)
  refine ⟨next, (hmiddle.tail hled).trans hnext, ?_, hnobody, ?_⟩
  · rw [hnextScene]
    change (middle.scene.put id candidate.led).put id after = _
    rw [Scene.put_put, hmiddleScene, Scene.put_put]
  · apply (hledElections.steps hnext).2.winner _ _
    rw [Chronicle.note_winner, ← hterm]
    simp [Standing.led]

end SessionRaft
