/-
Which terms a node speaks of, and which it would remember after a stop.  What
a node sends, asks for or promises carries a term that is stored.  Only where a
newer term that it was told could not be stored does it answer with a term that
it would forget.
-/
import SessionRaft.ByteProgram
import SessionRaft.Proofs.Lives

namespace SessionRaft

open FaithfulLog

def Outbound.term? : Outbound → Option Nat
  | .vote _ request => some request.term
  | .append _ request => some request.term
  | .publish _ _ _ => none

namespace Output

/-- The term that a node tells at once. -/
def term? : Output → Option Nat
  | .election (some request) => some request.term
  | .vote (.ok given) _ => some given.term
  | .append (.ok appended) _ => some appended.term
  | _ => .none

/-- Whether a node asks for votes or gives its own. -/
def isPledge : Output → Bool
  | .election (some _) => true
  | .vote (.ok given) _ => given.voted
  | _ => false

end Output

/-- The term that a restart finds is no smaller. -/
def Remembers {L : Type} [LogStore L] (log : L) (term : Nat) : Prop :=
  ∃ saved votedFor, LogStore.loadVote log = .ok (saved, votedFor) ∧
    term ≤ saved

/-- A newer term that a node is told cannot be stored. -/
def Node.Misses {L σ : Type} [LogStore L] (node : Node L σ) (input : Input)
    (term : Nat) : Prop :=
  input.term? = some term ∧ node.term < term ∧
    (LogStore.saveVote node.log term none).1.isOk = false

section Standings

variable {σ : Type} [StateMachine σ] {steady : Prop} {input : Input}
  {before after : Standing σ}

/-- Only a follower may be in a term that it has not stored, and no message
carries a term beyond the stored one. -/
structure Standing.Candid (standing : Standing σ) : Prop where
  stored_le : standing.stored.1 ≤ standing.term
  active : standing.role ≠ .follower → standing.stored.1 = standing.term
  led : standing.Led
  mail : ∀ message ∈ standing.mail, ∀ term,
    message.term? = some term → term ≤ standing.stored.1

/-- At every move the messages that wait carry stored terms, and no stored term
is taken back. -/
theorem Move.candid (hcandid : before.Candid)
    (hmove : Move steady input before after) :
    after.Candid ∧ before.stored.1 ≤ after.stored.1 := by
  obtain ⟨hle, hactive, hled, hmail⟩ := hcandid
  have hstays := Moves.led hled (.single hmove)
  cases hmove with
  | adopt hterm hstored _ =>
      rcases hstored with rfl | ⟨-, rfl⟩
      · have hgrows := Nat.le_of_lt (Nat.lt_of_le_of_lt hle hterm)
        exact ⟨⟨Nat.le_refl _, fun hrole => absurd rfl hrole, hstays,
          fun message hmessage term hcarries =>
            Nat.le_trans (hmail message hmessage term hcarries) hgrows⟩, hgrows⟩
      · exact ⟨⟨Nat.le_of_lt (Nat.lt_of_le_of_lt hle hterm),
          fun hrole => absurd rfl hrole, hstays, hmail⟩, Nat.le_refl _⟩
  | yield _ =>
      exact ⟨⟨hle, fun hrole => absurd rfl hrole, hstays, hmail⟩,
        Nat.le_refl _⟩
  | stand _ =>
      have hgrows : before.stored.1 ≤ before.term + 1 :=
        Nat.le_succ_of_le hle
      refine ⟨⟨Nat.le_refl _, fun _ => rfl, hstays,
        fun message hmessage term hcarries => ?_⟩, hgrows⟩
      rcases List.mem_append.mp hmessage with hold | hnew
      · exact Nat.le_trans (hmail message hold term hcarries) hgrows
      · obtain ⟨peer, -, rfl⟩ := List.mem_map.mp hnew
        obtain rfl := Option.some.inj hcarries
        exact Nat.le_refl _
  | grant _ _ _ _ =>
      exact ⟨⟨Nat.le_refl _, fun _ => rfl, hstays,
        fun message hmessage term hcarries =>
          Nat.le_trans (hmail message hmessage term hcarries) hle⟩, hle⟩
  | lead hrole _ =>
      have hsame := hactive (by simp [hrole])
      exact ⟨⟨hle, fun _ => hsame, hstays, hmail⟩, Nat.le_refl _⟩
  | post peer limit hleadership =>
      have hrole := hled (by simp [hleadership])
      have hsame := hactive (by simp [hrole])
      refine ⟨⟨hle, hactive, hstays,
        fun message hmessage term hcarries => ?_⟩, Nat.le_refl _⟩
      rcases List.mem_append.mp hmessage with hold | hnew
      · exact hmail message hold term hcarries
      · obtain rfl := List.mem_singleton.mp hnew
        obtain rfl := Option.some.inj hcarries
        exact Nat.le_of_eq hsame.symm
  | _ => exact ⟨⟨hle, hactive, hstays, hmail⟩, Nat.le_refl _⟩

theorem Moves.candid (hcandid : before.Candid)
    (hmoves : Moves steady input before after) :
    after.Candid ∧ before.stored.1 ≤ after.stored.1 := by
  induction hmoves with
  | refl => exact ⟨hcandid, Nat.le_refl _⟩
  | tail _ hmove ih =>
      obtain ⟨hmiddle, hfirst⟩ := ih
      obtain ⟨hlast, hsecond⟩ := hmove.candid hmiddle
      exact ⟨hlast, Nat.le_trans hfirst hsecond⟩

end Standings

/-- Nothing but an election and a newer term that was told takes a node out of
its term. -/
theorem Turns.term_eq {fails : SessionId → Nat → Prop} {input : Input}
    {before after : Desk} (hturns : Turns fails input before after)
    (hinput : input ≠ .electionTimeout)
    (hterm : ∀ term, input.term? = some term → term ≤ before.term) :
    after.term = before.term := by
  induction hturns with
  | refl => rfl
  | tail _ hturn ih =>
      cases hturn with
      | submit _ _ _ _ hissues => exact hissues.extends.term.trans ih
      | rise hgiven _ => exact absurd hgiven hinput
      | leave hleave =>
          rcases hleave with rfl | ⟨hlt, htold⟩
          · exact ih
          · have hle := hterm _ htold
            omega
      | _ => exact ih

namespace Node

variable {L σ : Type} [LogStore L] [FaithfulLog L]

variable {input : Input} {output : Output} {node after : Node L σ}

/-- The present term is stored, or else there is a reason for which it is
not. -/
def Records (reason : Nat → Prop) (node : Node L σ) : Prop :=
  (stored node.log).1 = node.term ∨ reason node.term

/-- A node that is told a newer term stores it or misses it. -/
theorem stored_becomeFollower (hlog : Sound node.log) {term : Nat}
    (htold : input.term? = some term) (hlt : node.term < term) :
    (stored (node.becomeFollower term).log).1 = term ∨
      node.Misses input term := by
  rw [becomeFollower_eq, stepDown_log]
  simp only [adoptTerm, hlt, ↓reduceIte, persistVote]
  rcases hsave : LogStore.saveVote node.log term none with ⟨outcome, log⟩
  obtain ⟨-, -, ⟨-, hstored⟩ | ⟨fault, rfl, -⟩⟩ :=
    saveVote_cases (Fit.of_sound hlog) hsave
  · exact Or.inl (congrArg Prod.fst hstored)
  · exact Or.inr ⟨htold, hlt, by rw [hsave]; rfl⟩

variable [StateMachine σ]

/-- A newer term is entered before anything else is done about an input. -/
theorem step_of_newer {term : Nat} (htold : input.term? = some term)
    (hlt : node.term < term) :
    node.step input = (node.becomeFollower term).step input := by
  have hterm : (node.becomeFollower term).term = term :=
    (becomeFollower_term node term).trans
      (Nat.max_eq_right (Nat.le_of_lt hlt))
  have hrole := becomeFollower_role node term
  cases input with
  | vote request =>
      obtain rfl := Option.some.inj htold
      simp only [step, handleVote, hlt, hterm, Nat.lt_irrefl, ↓reduceIte]
  | voteResponse sender response =>
      cases response with
      | error kind => simp [Input.term?] at htold
      | ok vote =>
          obtain rfl := Option.some.inj htold
          simp [step, handleVoteResponse, hlt, hterm, hrole]
  | append request =>
      obtain rfl := Option.some.inj htold
      simp only [step, handleAppend_eq, receptive, hlt, hterm, hrole,
        Nat.lt_irrefl, Nat.not_lt_of_lt hlt, true_or, ↓reduceIte,
        ne_eq, not_true_eq_false, or_self]
  | appendResponse sender response =>
      cases response with
      | error kind => simp [Input.term?] at htold
      | ok appended =>
          obtain rfl := Option.some.inj htold
          simp [step, handleAppendResponse, hlt, hterm, hrole]
  | _ => simp [Input.term?] at htold

/-- A step that is told no newer term and starts no election stays in its
term. -/
theorem step_stays (hproper : node.Proper) (hcandid : node.standing.Candid)
    (hstep : node.step input = .ok (output, after))
    (hinput : input ≠ .electionTimeout)
    (hterm : ∀ term, input.term? = some term → term ≤ node.term) :
    after.term = node.term ∧
      (stored node.log).1 ≤ (stored after.log).1 := by
  have hturns : Turns (fun _ _ => True) input node.desk after.desk :=
    hproper.turns hstep (fun _ _ _ _ _ => trivial)
  exact ⟨hturns.term_eq hinput hterm,
    ((hproper.moves hstep).candid hcandid).2⟩

/-- An election that is started is in the next term, which is stored; any other
leaves term and store alone. -/
theorem campaign_records (hlog : Sound node.log)
    (hcandid : node.standing.Candid) (hleadership : node.leadership = none) :
    (∀ request, (node.campaign (node.term + 1)).1 = some request →
      request.term = node.term + 1 ∧
        (node.campaign (node.term + 1)).2.term = node.term + 1 ∧
        (stored (node.campaign (node.term + 1)).2.log).1 = node.term + 1) ∧
      ((node.campaign (node.term + 1)).1 = none →
        (node.campaign (node.term + 1)).2.term = node.term ∧
        stored (node.campaign (node.term + 1)).2.log = stored node.log) := by
  unfold campaign
  rcases hsave : LogStore.saveVote node.log (node.term + 1) (some node.id) with
    ⟨outcome, log⟩
  rcases outcome with fault | ⟨⟩
  · exact ⟨by simp, fun _ => ⟨rfl, (saveVote_failed (.of_sound hlog) hsave).2.2⟩⟩
  · have hcandidacy : Proceeds False .electionTimeout node
        (node.candidacy log (node.term + 1)) :=
      proceeds_candidacy hleadership hsave
    obtain ⟨hafter, -, hstored⟩ := saveVote_done (Fit.of_sound hlog) hsave
    refine ⟨fun request hrequest => ?_, by simp⟩
    obtain rfl := Option.some.inj hrequest
    by_cases hquorum : (node.candidacy log (node.term + 1)).hasQuorum = true
    · simp only [hquorum, ↓reduceIte]
      have hbegins : Proceeds False .electionTimeout
          (node.candidacy log (node.term + 1)).crowned
          (node.candidacy log (node.term + 1)).crowned.beginTerm ∧
          (node.candidacy log (node.term + 1)).becomeLeader.term =
            node.term + 1 := proceeds_beginTerm rfl
      have hterm := hbegins.2
      have hself : Proceeds False .electionTimeout
          (node.candidacy log (node.term + 1))
          (node.candidacy log (node.term + 1)) := .refl _ _
      obtain ⟨-, hmoves⟩ := hcandidacy (.of_sound hlog)
      obtain ⟨-, hwins⟩ := wins_becomeLeader hself rfl hquorum hafter
      obtain ⟨hstands, -⟩ := hmoves.candid hcandid
      obtain ⟨hleads, hkept⟩ := hwins.moves.candid hstands
      refine ⟨rfl, hterm, Nat.le_antisymm ?_ ?_⟩
      · exact Nat.le_trans hleads.stored_le (Nat.le_of_eq hterm)
      · refine Nat.le_trans (Nat.le_of_eq ?_) hkept
        exact (congrArg Prod.fst hstored).symm
    · simp only [hquorum]
      exact ⟨rfl, rfl, congrArg Prod.fst hstored⟩

omit [StateMachine σ] in
theorem stored_start {id : NodeId} {members : List NodeId} {config : Config}
    {log : L} {machine : σ} (hlog : Sound log)
    (hstart : Node.start id members config log machine = .ok node) :
    (stored node.log).1 = node.term := by
  have hstanding := (Network.start_standing hlog hstart).2
  exact (congrArg (fun standing => standing.stored.1) hstanding).trans
    (congrArg Standing.term hstanding).symm

theorem Records.startElection {reason : Nat → Prop}
    (hrecords : node.Records reason) (hproper : node.Proper)
    (hcandid : node.standing.Candid) {asked : Option VoteRequest}
    (hstart : node.startElection = .ok (asked, after)) :
    after.Records reason ∧ ∀ request, asked = some request →
      request.term = (stored after.log).1 := by
  obtain ⟨hresigned, hmoves⟩ : Fit False node.resigned.log ∧
      Moves False .electionTimeout node.standing node.resigned.standing :=
    proceeds_resigned node (.of_sound hproper.sound)
  obtain ⟨hlog, hdesk⟩ := resigned_desk node
  have hterm : node.resigned.term = node.term := congrArg Desk.term hdesk
  rw [startElection_eq] at hstart
  simp only [successor] at hstart
  split at hstart
  · simp [Except.map] at hstart
  · simp only [Except.map, Except.ok.injEq] at hstart
    obtain ⟨hstarts, hfails⟩ := campaign_records hresigned.sound
      (hmoves.candid hcandid).1 (resigned_leadership node)
    rw [hstart, hterm] at hstarts hfails
    cases asked with
    | none =>
        obtain ⟨hsame, hstored⟩ := hfails rfl
        refine ⟨?_, by simp⟩
        rw [Records, hsame, hstored, hlog]
        exact hrecords
    | some request =>
        obtain ⟨hasked, hnext, hstored⟩ := hstarts request rfl
        refine ⟨Or.inl (hstored.trans hnext.symm), fun other hother => ?_⟩
        obtain rfl := Option.some.inj hother
        exact hasked.trans hstored.symm

/-- A step leaves the term stored, or there is a reason for which it is not. -/
theorem Records.step {reason : Nat → Prop} (hrecords : node.Records reason)
    (hproper : node.Proper) (hcandid : node.standing.Candid)
    (hstep : node.step input = .ok (output, after))
    (hreason : ∀ term, node.Misses input term → reason term) :
    after.Records reason ∧ ∀ request, output = .election (some request) →
      request.term = (stored after.log).1 := by
  by_cases helection : input = .electionTimeout
  · subst helection
    cases stepsTo hstep with
    | electionTimeout hstart =>
        obtain ⟨hafter, hasked⟩ :=
          hrecords.startElection hproper hcandid hstart
        exact ⟨hafter, fun request hrequest =>
          hasked request (Output.election.inj hrequest)⟩
  · have hle : (stored after.log).1 ≤ after.term :=
      ((hproper.moves hstep).candid hcandid).1.stored_le
    have hnone : ∀ request, output = .election (some request) →
        request.term = (stored after.log).1 := by
      rintro request rfl
      cases stepsTo hstep with
      | electionTimeout _ => exact absurd rfl helection
    refine ⟨?_, hnone⟩
    by_cases hnewer : ∃ term, input.term? = some term ∧ node.term < term
    -- Once the newer term is entered, the rest of the step stays in it.
    · obtain ⟨term, htold, hlt⟩ := hnewer
      have hfollows : Proceeds False input node (node.becomeFollower term) :=
        proceeds_becomeFollower node term
      have hturnsTo : TurnsTo (fun _ _ => True) input node
          (node.becomeFollower term) :=
        turnsTo_becomeFollower node (Or.inr htold)
      have hterm : (node.becomeFollower term).term = term :=
        (becomeFollower_term node term).trans
          (Nat.max_eq_right (Nat.le_of_lt hlt))
      obtain ⟨hsame, hkept⟩ := step_stays (hproper.turned hfollows hturnsTo)
        ((hfollows (.of_sound hproper.sound)).2.candid hcandid).1
        (step_of_newer htold hlt ▸ hstep) helection (fun other hother => by
          rw [htold, Option.some.injEq] at hother
          exact Nat.le_of_eq (hother.symm.trans hterm.symm))
      rw [Records]
      rw [hsame, hterm] at hle ⊢
      refine (stored_becomeFollower hproper.sound htold hlt).imp
        (fun hstored => ?_) (hreason term)
      exact Nat.le_antisymm hle (hstored ▸ hkept)
    · obtain ⟨hsame, hkept⟩ := step_stays hproper hcandid hstep helection
        (fun term htold => Nat.le_of_not_lt (fun hlt =>
          hnewer ⟨term, htold, hlt⟩))
      rw [Records]
      rw [hsame] at hle ⊢
      refine hrecords.imp (fun hstored => ?_) (fun hmissed => hmissed)
      exact Nat.le_antisymm hle (hstored ▸ hkept)

omit [FaithfulLog L] [StateMachine σ] in
theorem handleVote_term {request : VoteRequest} {given : Vote}
    {restart : Bool} (hvote : node.handleVote request =
      ((.ok given, restart), after)) : given.term = after.term := by
  unfold handleVote at hvote
  dsimp only at hvote
  generalize (if node.term < request.term then
    node.becomeFollower request.term else node) = voter at hvote
  split at hvote
  · split at hvote
    · simp at hvote
    · obtain ⟨hgiven, rfl⟩ := Prod.mk.inj hvote
      rw [← Response.ok.inj (Prod.mk.inj hgiven).1]
  · obtain ⟨hgiven, rfl⟩ := Prod.mk.inj hvote
    rw [← Response.ok.inj (Prod.mk.inj hgiven).1]

/-- The term that a step tells at once is the one it leaves the node in. -/
theorem output_term (hlog : Sound node.log)
    (hstep : node.step input = .ok (output, after)) {term : Nat}
    (htells : output.term? = some term) :
    (∃ request, output = .election (some request) ∧ term = request.term) ∨
      term = after.term ∧
        (output.isPledge = true → (stored after.log).1 = term) := by
  cases stepsTo hstep with
  | @electionTimeout asked _ _ =>
      cases asked with
      | none => simp [Output.term?] at htells
      | some request =>
          exact Or.inl ⟨request, rfl, (Option.some.inj htells).symm⟩
  | @vote request response _ _ hvote =>
      cases response with
      | error kind => simp [Output.term?] at htells
      | ok given =>
          obtain rfl := Option.some.inj htells
          refine Or.inr ⟨handleVote_term hvote, fun hpledge => ?_⟩
          have hvoted : given = ⟨given.term, true⟩ := by
            rw [← show given.voted = true from hpledge]
          have hvouches := step_vouches hstep hlog given.term
            (congrArg Response.ok hvoted)
          exact congrArg Prod.fst hvouches.2
  | @append request response _ _ _ =>
      cases response with
      | error kind => simp [Output.term?] at htells
      | ok appended =>
          obtain rfl := Option.some.inj htells
          obtain ⟨hterm, -⟩ := step_confirms hstep hlog appended rfl
          exact Or.inr ⟨hterm, by simp [Output.isPledge]⟩
  | _ => simp [Output.term?] at htells

end Node

namespace Life

variable {L σ : Type} [LogStore L] [FaithfulLog L] [StateMachine σ]
  {life : Life L σ}

/-- At a time the node is told a newer term and cannot store it. -/
def Forgets (life : Life L σ) (time term : Nat) : Prop :=
  ∃ input output after, life.Takes time input output after ∧
    (life.node time).Misses input term

theorem Valid.candid (hvalid : life.Valid) (time : Nat) :
    (life.node time).standing.Candid :=
  hvalid.always_standing
    (fun _ _ _ _ _ => ⟨Nat.le_refl _, fun hrole => absurd rfl hrole,
      fun hsome => by simp [Standing.start] at hsome,
      fun _ hmail => by simp [Standing.start] at hmail⟩)
    (fun hcandid hmoves => (hmoves.candid hcandid).1)
    (fun _ hcandid => ⟨hcandid.stored_le, hcandid.active, hcandid.led,
      fun _ hmail => by simp [Standing.emptied] at hmail⟩) time

/-- The present term is stored unless it was missed when it was told. -/
theorem Valid.records (hvalid : life.Valid) (time : Nat) :
    (life.node time).Records
      (fun term => ∃ earlier < time, life.Forgets earlier term) := by
  induction time with
  | zero =>
      obtain ⟨_, _, _, _, _, hlog, hstart⟩ := hvalid.begins
      exact Or.inl (Node.stored_start hlog hstart)
  | succ time ih =>
      have hrecords : (life.node time).Records
          (fun term => ∃ earlier < time + 1, life.Forgets earlier term) :=
        ih.imp_right (fun ⟨earlier, hlt, hforgets⟩ =>
          ⟨earlier, Nat.lt_succ_of_lt hlt, hforgets⟩)
      cases hincident : life.incidents[time]? with
      | none =>
          rw [node_succ_of_end hincident]
          exact hrecords
      | some incident =>
          have hundergoes := (life.node time).undergoes
            (hvalid.possible time incident hincident)
          rw [node_succ hincident]
          generalize (life.node time).undergo incident = next at hundergoes ⊢
          cases hundergoes with
          | overflow _ => exact hrecords
          | taken hstep =>
              exact (hrecords.step (hvalid.proper time) (hvalid.candid time)
                hstep (fun term hmisses => ⟨time, Nat.lt_succ_self time, _, _,
                  _, ⟨hincident, hstep⟩, hmisses⟩)).1
          | refit _ hmemory =>
              rw [Node.Records, stored, hmemory]
              exact hrecords
          | unfit => exact hrecords
          | restarted hlog _ hstart =>
              exact Or.inl (Node.stored_start hlog hstart)

/-- Messages carry stored terms, and so does what a node asks for or promises
at once.  An answer that does not, carries a term that could not be stored when
it was told. -/
theorem terms_durable (hvalid : life.Valid) {time : Nat} {input : Input}
    {output : Output} {after : Node L σ}
    (htakes : life.Takes time input output after) :
    (∀ message ∈ after.outbox, ∀ term, message.term? = some term →
      Remembers after.log term) ∧
      ∀ term, output.term? = some term →
        Remembers after.log term ∨
          output.isPledge = false ∧
            ∃ earlier ≤ time, life.Forgets earlier term := by
  have hproper := hvalid.proper time
  have hcandid := hvalid.candid time
  obtain ⟨hafter, hmoves⟩ : Fit False after.log ∧
      Moves False input (life.node time).standing after.standing :=
    Node.step_proceeds htakes.2 (.of_sound hproper.sound)
  have hremembers : ∀ term, term ≤ (stored after.log).1 →
      Remembers after.log term :=
    fun _ hle => ⟨_, _, loadVote_eq hafter.sound, hle⟩
  refine ⟨fun message hmessage term hcarries => hremembers term ?_,
    fun term htells => ?_⟩
  · refine (hmoves.candid hcandid).1.mail message
      (List.mem_filter.mpr ⟨hmessage, ?_⟩) term hcarries
    cases message with
    | publish _ _ _ => simp [Outbound.term?] at hcarries
    | _ => rfl
  · have hbefore : (life.node time).Records
        (fun term => ∃ earlier ≤ time, life.Forgets earlier term) :=
      (hvalid.records time).imp_right (fun ⟨earlier, hlt, hforgets⟩ =>
        ⟨earlier, Nat.le_of_lt hlt, hforgets⟩)
    obtain ⟨hrecords, hasked⟩ := hbefore.step hproper hcandid htakes.2
      (fun term hmisses =>
        ⟨time, Nat.le_refl time, _, _, _, htakes, hmisses⟩)
    rcases Node.output_term hproper.sound htakes.2 htells with
      ⟨request, rfl, rfl⟩ | ⟨rfl, hpledge⟩
    · exact Or.inl (hremembers _ (Nat.le_of_eq (hasked request rfl)))
    · rcases hrecords with hstored | hforgets
      · exact Or.inl (hremembers _ (Nat.le_of_eq hstored.symm))
      · cases hbinds : output.isPledge with
        | true =>
            exact Or.inl (hremembers _ (Nat.le_of_eq (hpledge hbinds).symm))
        | false => exact Or.inr ⟨rfl, hforgets⟩

end Life

namespace Witness

/-- A node that hears of a newer term and then asks for votes in the next. -/
def asking : Life MemoryLog Tally where
  start := member .empty .start 1
  incidents := [
    .input (.append ⟨5, 2, 0, 0, [], 0, 1⟩),
    .input .electionTimeout]

theorem asking_valid : asking.Valid where
  begins := ⟨1, [1, 2, 3], {}, .empty, .start, numbered_nil, rfl⟩
  possible := Life.possible_of_inputs (by simp [asking])

/-- The term in which the node asks for votes is stored when it asks. -/
theorem terms_durable_asking : asking.Valid ∧ ∃ after,
    asking.Takes 1 .electionTimeout (.election (some ⟨6, 1, 0, 0⟩)) after ∧
      after.outbox = [.vote 2 ⟨6, 1, 0, 0⟩, .vote 3 ⟨6, 1, 0, 0⟩] ∧
      Remembers after.log 6 := by
  obtain ⟨after, htakes, houtbox⟩ : ∃ after,
      asking.Takes 1 .electionTimeout (.election (some ⟨6, 1, 0, 0⟩)) after ∧
        after.outbox = [.vote 2 ⟨6, 1, 0, 0⟩, .vote 3 ⟨6, 1, 0, 0⟩] :=
    ⟨_, ⟨rfl, rfl⟩, rfl⟩
  have hdurable := Life.terms_durable asking_valid htakes
  exact ⟨asking_valid, after, htakes, houtbox,
    hdurable.1 (.vote 2 ⟨6, 1, 0, 0⟩) (by simp [houtbox]) 6 rfl⟩

/-- A node that cannot store votes and hears of a newer term. -/
def forgetful : Life (Faulty MemoryLog) Tally where
  start := member ⟨.empty, { vote := some 0 }⟩ .start 1
  incidents := [.input (.append ⟨5, 2, 0, 0, [], 0, 1⟩)]

theorem forgetful_valid : forgetful.Valid where
  begins := ⟨1, [1, 2, 3], {}, ⟨.empty, { vote := some 0 }⟩, .start,
    ⟨rfl, rfl, rfl, numbered_nil⟩, rfl⟩
  possible := Life.possible_of_inputs (by simp [forgetful])

/-- The node answers with the newer term, which it would forget. -/
theorem terms_durable_forgetful : forgetful.Valid ∧ ∃ after,
    forgetful.Takes 0 (.append ⟨5, 2, 0, 0, [], 0, 1⟩)
        (.append (.ok ⟨5, true, 0, 1⟩) true) after ∧
      LogStore.loadVote after.log = .ok (0, none) ∧
      ¬Remembers after.log 5 := by
  obtain ⟨after, htakes, hload⟩ : ∃ after,
      forgetful.Takes 0 (.append ⟨5, 2, 0, 0, [], 0, 1⟩)
        (.append (.ok ⟨5, true, 0, 1⟩) true) after ∧
        LogStore.loadVote after.log = .ok (0, none) := ⟨_, ⟨rfl, rfl⟩, rfl⟩
  refine ⟨forgetful_valid, after, htakes, hload, ?_⟩
  rintro ⟨saved, votedFor, hsaved, hle⟩
  obtain ⟨rfl, -⟩ := Prod.mk.inj (Except.ok.inj (hload.symm.trans hsaved))
  omega

end Witness

end SessionRaft
