/-
At most one node leads a term, and no node comes to lead a term twice, in every
run and however often storing a vote or an entry fails.
-/
import SessionRaft.ByteProgram
import SessionRaft.Log.Faulty
import SessionRaft.Proofs.Elections

namespace SessionRaft

/-- The last leader in a chain of moves has led the term all the time, or has
won it. -/
theorem Moves.leads {σ : Type} [StateMachine σ] {steady : Prop} {input : Input}
    {before after : Standing σ} (hmoves : Moves steady input before after)
    (hrole : after.role = .leader) :
    (before.role = .leader ∧ before.term = after.term) ∨
      Wins steady input before after := by
  induction hmoves with
  | refl => exact Or.inl ⟨hrole, rfl⟩
  | tail hbefore hmove ih =>
      rcases hmove.leads hrole with ⟨hleads, hterm⟩ |
        ⟨hcandidate, hquorum, rfl⟩
      · rcases ih hleads with ⟨hled, hsame⟩ | ⟨candidate, hstood, hstands,
          hvotes, hsame, hafter⟩
        · exact Or.inl ⟨hled, hsame.trans hterm⟩
        · exact Or.inr ⟨candidate, hstood, hstands, hvotes, hsame.trans hterm,
            hafter.tail hmove⟩
      · exact Or.inr ⟨_, hbefore, hcandidate, hquorum, rfl, .refl⟩

namespace Run

open FaithfulLog

variable {L σ : Type} [LogStore L] [FaithfulLog L] [StateMachine σ]
  {run : Run L σ}

/-- At a time a node is elected in a term: it comes to lead, or it is told that
it won, though it steps down at once if its first entry cannot be stored. -/
def Elects (run : Run L σ) (time : Nat) (id : NodeId) (term : Nat) : Prop :=
  ∃ input output after, run.Takes time id input output after ∧
    after.term = term ∧
    ((after.role = .leader ∧
        ((run.node time id).role = .leader →
          (run.node time id).term ≠ term)) ∨
      output = .won true ∨
      (∃ request, output = .election (some request)) ∧ after.quorum ≤ 1)

/-- A node that takes an input is a member to which the input was brought. -/
theorem Valid.takes (hvalid : run.Valid) {time : Nat} {id : NodeId}
    {input : Input} {output : Output} {after : Node L σ}
    (htakes : run.Takes time id input output after) :
    ∃ happening, run.happenings[time]? = some happening ∧
      happening.input? = some (id, input) ∧
      happening.Possible run.members (run.network time) ∧
      id ∈ run.members ∧ (run.network time).scene.Brings id input := by
  obtain ⟨hinput, -⟩ := htakes
  obtain ⟨happening, hhappening, hinput⟩ := Option.bind_eq_some_iff.mp hinput
  have hpossible := hvalid.possible time happening hhappening
  obtain ⟨hid, hbrings⟩ := Network.brings_of_possible hpossible hinput
  exact ⟨happening, hhappening, hinput, hpossible, hid, hbrings⟩

/-- What comes after the moves of a node that takes an input. -/
theorem Valid.steps_after {steady : Prop} (hvalid : run.Valid)
    (hstores : run.Stores steady) {time : Nat} {id : NodeId} {input : Input}
    {output : Output} {after : Node L σ}
    (htakes : run.Takes time id input output after) :
    Scene.Steps steady run.members
      ((run.network time).scene.put id after.standing)
      (run.network (time + 1)).scene := by
  obtain ⟨happening, hhappening, hinput, hpossible, -⟩ := hvalid.takes htakes
  rw [network_succ hhappening]
  exact (Network.steps_after_taken (hvalid.sane time) (hstores time)
    hpossible hinput
    htakes.2).1

theorem Elects.wins (hvalid : run.Valid) {time : Nat} {id : NodeId}
    {term : Nat} (helects : run.Elects time id term) :
    ∃ input output after, run.Takes time id input output after ∧
      after.term = term ∧
      Wins False input (run.standing time id) after.standing := by
  obtain ⟨input, output, after, htakes, hterm, hwon⟩ := helects
  obtain ⟨-, -, -, -, hid, -⟩ := hvalid.takes htakes
  obtain ⟨-, -, hmoves⟩ := Network.taken (hvalid.sane time)
    (run.stores_false time) hid htakes.2
  refine ⟨input, output, after, htakes, hterm, ?_⟩
  rcases hwon with ⟨hrole, hnew⟩ | hwon
  · apply (hmoves.leads hrole).resolve_left
    rintro ⟨hled, hsame⟩
    exact hnew hled (hsame.trans hterm)
  · exact Node.step_wins htakes.2 (.of_sound (hvalid.sane time id hid).1) hwon

/-- What is remembered of the elections at a time. -/
theorem Valid.elections (hvalid : run.Valid) (time : Nat) :
    ∃ chron : Chronicle σ, chron.scene = (run.network time).scene ∧
      Elections run.members chron := by
  obtain ⟨chron, hsteps, hscene⟩ := hvalid.chronicled run.stores_false time
  exact ⟨chron, hscene,
    ((Elections.first hvalid.scene_begins).steps hsteps).1⟩

/-- What is remembered can be carried on, and nothing is forgotten. -/
theorem Valid.elections_later (hvalid : run.Valid) {first second : Nat}
    (hle : first ≤ second) {chron : Chronicle σ}
    (hscene : chron.scene = (run.network first).scene)
    (helections : Elections run.members chron) :
    ∃ later : Chronicle σ, later.scene = (run.network second).scene ∧
      Elections run.members later ∧ chron.Kept later := by
  obtain ⟨later, hsteps, hlater⟩ := hvalid.carried run.stores_false hle hscene
  obtain ⟨hlaterElections, hkept⟩ := helections.steps hsteps
  exact ⟨later, hlater, hlaterElections, hkept⟩

/-- An election is remembered, and nobody has won its term before. -/
theorem Elects.remembered (hvalid : run.Valid) {time : Nat} {id : NodeId}
    {term : Nat} (helects : run.Elects time id term) {chron : Chronicle σ}
    (hscene : chron.scene = (run.network time).scene)
    (helections : Elections run.members chron) :
    chron.winner term = none ∧
      ∃ later : Chronicle σ, later.scene = (run.network (time + 1)).scene ∧
        Elections run.members later ∧ later.winner term = some id := by
  obtain ⟨input, output, after, htakes, rfl, hwins⟩ := helects.wins hvalid
  obtain ⟨-, -, -, -, hid, hbrings⟩ := hvalid.takes htakes
  have hstanding : chron.standing id = run.standing time id := by
    rw [Chronicle.standing, hscene]
    rfl
  rw [← hstanding] at hwins
  rw [← hscene] at hbrings
  obtain ⟨middle, hmiddle, hmiddleScene, hnobody, hwon⟩ :=
    helections.wins hid hbrings hwins
  have hrest := hvalid.steps_after run.stores_false htakes
  rw [← hscene, ← hmiddleScene] at hrest
  obtain ⟨later, hlater, hlaterScene⟩ := middle.exists_steps hrest
  obtain ⟨hmiddleElections, -⟩ := helections.steps hmiddle
  obtain ⟨hlaterElections, hkept⟩ := hmiddleElections.steps hlater
  exact ⟨hnobody, later, hlaterScene, hlaterElections,
    hkept.winner _ _ hwon⟩

/-- No term is won again once it was won. -/
theorem Elects.not_lt (hvalid : run.Valid) {first second : Nat}
    {id other : NodeId} {term : Nat} (hfirst : run.Elects first id term)
    (hsecond : run.Elects second other term) : ¬first < second := by
  intro hlt
  obtain ⟨chron, hscene, helections⟩ := hvalid.elections first
  obtain ⟨-, next, hnext, hnextElections, hwon⟩ :=
    hfirst.remembered hvalid hscene helections
  obtain ⟨later, hlater, hlaterElections, hkept⟩ :=
    hvalid.elections_later hlt hnext hnextElections
  obtain ⟨hnobody, -⟩ := hsecond.remembered hvalid hlater hlaterElections
  rw [hkept.winner _ _ hwon] at hnobody
  simp at hnobody

/-- Two nodes that lead the same term, the second no earlier than the first,
are one. -/
theorem Valid.leader_unique (hvalid : run.Valid) {first second : Nat}
    {id other : NodeId} (hle : first ≤ second) (hid : id ∈ run.members)
    (hother : other ∈ run.members)
    (hfirst : (run.node first id).role = .leader)
    (hsecond : (run.node second other).role = .leader)
    (hterm : (run.node first id).term = (run.node second other).term) :
    id = other := by
  obtain ⟨chron, hscene, helections⟩ := hvalid.elections first
  obtain ⟨later, hlater, hlaterElections, hkept⟩ :=
    hvalid.elections_later hle hscene helections
  have hwon := (helections.entitled id hid).leader (by
    rw [Chronicle.standing, hscene]
    exact hfirst)
  have hwonLater := (hlaterElections.entitled other hother).leader (by
    rw [Chronicle.standing, hlater]
    exact hsecond)
  rw [Chronicle.standing, hscene] at hwon
  rw [Chronicle.standing, hlater] at hwonLater
  have hkeptWon := hkept.winner _ _ hwon
  change later.winner (run.node first id).term = some id at hkeptWon
  rw [hterm] at hkeptWon
  exact Option.some.inj (hkeptWon.symm.trans hwonLater)

/-- Election safety. -/
theorem election_safety (hvalid : run.Valid) :
    (∀ first second id other, id ∈ run.members → other ∈ run.members →
      (run.node first id).role = .leader →
      (run.node second other).role = .leader →
      (run.node first id).term = (run.node second other).term →
      id = other) ∧
    ∀ first second id other term, run.Elects first id term →
      run.Elects second other term → first = second ∧ id = other := by
  constructor
  · intro first second id other hid hother hfirst hsecond hterm
    rcases Nat.le_total first second with hle | hle
    · exact hvalid.leader_unique hle hid hother hfirst hsecond hterm
    · exact (hvalid.leader_unique hle hother hid hsecond hfirst
        hterm.symm).symm
  · intro first second id other term hfirst hsecond
    obtain rfl : first = second := Nat.le_antisymm
      (Nat.le_of_not_lt (hsecond.not_lt hvalid hfirst))
      (Nat.le_of_not_lt (hfirst.not_lt hvalid hsecond))
    obtain ⟨_, _, _, ⟨hinput, _⟩, _⟩ := hfirst
    obtain ⟨_, _, _, ⟨hagain, _⟩, _⟩ := hsecond
    rw [hinput] at hagain
    exact ⟨rfl, (Prod.mk.inj (Option.some.inj hagain)).1⟩

end Run

namespace Witness

open FaithfulLog

/-- An election in which one of three members cannot store its vote. -/
def contested : Run (Faulty MemoryLog) Tally where
  members := [1, 2, 3]
  start :=
    { nodes := fun id => member
        ⟨.empty, if id = 2 then { vote := some 0 } else .none⟩ .start id
      sent := [] }
  happenings := [
    .input 1 .electionTimeout,
    .delivery ⟨1, 2, .vote ⟨1, 1, 0, 0⟩⟩,
    .delivery ⟨1, 3, .vote ⟨1, 1, 0, 0⟩⟩,
    .delivery ⟨3, 1, .voteResponse (.ok ⟨1, true⟩)⟩]

theorem contested_valid : contested.Valid where
  distinct := by decide
  begins id hid := by
    have hcases : id = 1 ∨ id = 2 ∨ id = 3 := by simpa [contested] using hid
    refine ⟨{}, ⟨.empty, if id = 2 then { vote := some 0 } else .none⟩, .start,
      ?_, ?_⟩
    · rcases hcases with rfl | rfl | rfl <;> exact ⟨rfl, rfl, rfl, numbered_nil⟩
    · rcases hcases with rfl | rfl | rfl <;> rfl
  silent := rfl
  possible time happening hhappening := by
    rcases time with _ | _ | _ | _ | time
    all_goals simp only [contested, List.getElem?_cons_succ, List.getElem?_cons_zero,
        List.getElem?_nil, Option.some.injEq, reduceCtorEq] at hhappening
    all_goals subst hhappening
    all_goals exact ⟨by decide, by decide⟩

/-- The first node is elected although one vote could not be stored, and no
other node is elected in that term. -/
theorem election_safety_contested : contested.Elects 3 1 1 ∧
    ∀ time id, contested.Elects time id 1 → 3 = time ∧ 1 = id := by
  have helected : contested.Elects 3 1 1 :=
    ⟨_, _, _, ⟨rfl, rfl⟩, rfl, Or.inr (Or.inl rfl)⟩
  exact ⟨helected, fun time id =>
    (Run.election_safety contested_valid).2 3 time 1 id 1 helected⟩

end Witness

end SessionRaft
