/-
The turns of a node that gives up leading, appends, begins to lead with the
commands that it finds in its log, or asks for votes.
-/
import SessionRaft.Proofs.DeskFrames

namespace SessionRaft

namespace Node

open FaithfulLog

variable {L σ : Type} [LogStore L] [FaithfulLog L]

section Leading

variable {fails : SessionId → Nat → Prop} {input : Input}
  {node before middle after : Node L σ}

theorem stepDown_desk (node : Node L σ) :
    node.stepDown.desk = { node.desk with lanes := none } := by
  unfold stepDown
  cases hleadership : node.leadership with
  | none =>
      simp only [Option.isSome_none, Bool.false_eq_true, ↓reduceIte]
      simp only [desk, hleadership, Option.map_none]
  | some leadership =>
      simp only [Option.isSome_some, ↓reduceIte, dropLeadership, hleadership]
      rfl

theorem turnsTo_becomeFollower (node : Node L σ) {term : Nat}
    (hterm : term ≤ node.term ∨ input.term? = some term) :
    TurnsTo fails input node (node.becomeFollower term) := by
  intro hlog
  rw [becomeFollower_eq, stepDown_desk, stepDown_log]
  by_cases hlt : node.term < term
  · simp only [adoptTerm, hlt, ↓reduceIte, persistVote]
    rcases hsave : LogStore.saveVote node.log term none with ⟨outcome, after⟩
    obtain ⟨hafter, hentries, -⟩ := saveVote_cases (Fit.of_sound hlog) hsave
    refine ⟨hafter.sound, .single ?_⟩
    have hleave : Turn fails input node.desk
        { node.desk with term := term, lanes := none } :=
      .leave (Or.inr ⟨hlt, hterm.resolve_left (Nat.not_le_of_lt hlt)⟩)
    simp only [desk, hentries] at hleave ⊢
    exact hleave
  · simp only [adoptTerm, hlt, ↓reduceIte]
    exact ⟨hlog, .single (.leave (Or.inl rfl))⟩

theorem turnsTo_shutdown (node : Node L σ) :
    TurnsTo fails input node node.shutdown := by
  have hdesk : node.shutdown.desk = { node.desk with lanes := none } := by
    unfold shutdown dropLeadership
    cases hleadership : node.leadership with
    | none =>
        simp only [desk, failQueries, answerAll, failWaiters, hleadership,
          Option.map_none]
    | some leadership => rfl
  refine turnsTo_of_turn (dropAll_log node _) (fun _ => ?_)
  rw [hdesk]
  exact .leave (Or.inl rfl)

/-- Appending an entry that is no command, unless that fails. -/
theorem turnsTo_append {log : L} {operation : Operation}
    {outcome : Except LogFault Nat}
    (hnone : ∀ term index session,
      LogEntry.sequence? session ⟨term, index, operation⟩ = none)
    (happend : LogStore.append node.log node.term operation = (outcome, log)) :
    TurnsTo fails input node { node with log := log } := by
  intro hlog
  obtain ⟨hafter, -, hcases⟩ := append_cases (Fit.of_sound hlog) happend
  refine ⟨hafter.sound, ?_⟩
  rcases hcases with ⟨-, hentries⟩ | ⟨_, -, hentries⟩
  · have hwrite : Turn fails input node.desk (node.desk.write operation) :=
      .write hnone
    simp only [desk, Desk.write] at hwrite
    simp only [desk, hentries]
    exact .single hwrite
  · simp only [desk, hentries]
    exact .refl

omit [FaithfulLog L] in
theorem seedCommands_append (log : L) (sequencer : Sequencer)
    (first second : List Nat) :
    seedCommands log sequencer (first ++ second) =
      seedCommands log (seedCommands log sequencer first) second := by
  induction first generalizing sequencer with
  | nil => rfl
  | cons index first ih => exact ih _

theorem index_le_of_mem_take {log : List LogEntry} (hlog : Numbered log)
    {applied count : Nat} {found : LogEntry}
    (hfound : found ∈ (log.drop applied).take count) :
    found.index ≤ applied + count := by
  obtain ⟨offset, hoffset⟩ := List.mem_iff_getElem?.mp hfound
  obtain ⟨hlt, -⟩ := List.getElem?_eq_some_iff.mp hoffset
  simp only [List.length_take] at hlt
  rw [List.getElem?_take_of_lt (by omega), List.getElem?_drop] at hoffset
  rw [hlog _ _ hoffset]
  omega

/-- Seeding notes the commands among as many entries as are looked at. -/
theorem seeded_seedCommands {log : L} (hlog : Sound log) (applied count : Nat)
    (hcount : applied + count ≤ (entries log).length) (session : SessionId) :
    ((seedCommands log .start
      (List.range' (applied + 1) count)).lane session).Seeded
      (backlogOf session (((entries log).drop applied).take count)) := by
  induction count with
  | zero => exact Lane.seeded_empty
  | succ count ih =>
      have hplace : applied + count < (entries log).length := by omega
      have hentry := List.getElem?_eq_getElem hplace
      generalize (entries log)[applied + count] = entry at hentry
      have hindex := numbered hlog _ _ hentry
      have htake : ((entries log).drop applied).take (count + 1) =
          ((entries log).drop applied).take count ++ [entry] := by
        rw [List.take_add_one, List.getElem?_drop, hentry]
        rfl
      have hread : LogStore.get? log (applied + 1 + count) = some entry := by
        rw [Nat.add_right_comm, get?_succ hlog, hentry]
      have hbound : ∀ found ∈ ((entries log).drop applied).take count,
          found.index ≤ applied + count + 1 :=
        fun _ hfound => Nat.le_succ_of_le
          (index_le_of_mem_take (numbered hlog) hfound)
      have hbefore := ih (by omega)
      rw [List.range'_1_concat, seedCommands_append, htake, backlogOf,
        List.filterMap_append]
      simp only [seedCommands, hread]
      obtain ⟨term, index, operation⟩ := entry
      simp only at hindex
      cases operation with
      | command owner sequence timestamp payload =>
          simp only [LogEntry.sequence?, Sequencer.lane_seed,
            Function.update_apply]
          by_cases heq : session = owner
          · subst heq
            simp only [↓reduceIte, List.filterMap_cons, List.filterMap_nil,
              Option.map_some]
            rw [hindex, Nat.add_right_comm]
            exact hbefore.seed (backlogOf_bound hbound)
          · simp only [heq, Ne.symm heq, ↓reduceIte, List.filterMap_cons,
              List.filterMap_nil, Option.map_none, List.append_nil]
            exact hbefore
      | _ =>
          simp only [LogEntry.sequence?, List.filterMap_cons,
            List.filterMap_nil, Option.map_none, List.append_nil]
          exact hbefore

/-- A leadership begins with the commands that stand in the log and were not
applied. -/
theorem seeded_newLeadership (hlog : Sound node.log) (session : SessionId) :
    (node.newLeadership.sequencer.lane session).Seeded
      (node.desk.backlog session) := by
  rw [newLeadership, unapplied, lastIndex_eq_length hlog]
  by_cases hle : node.lastApplied ≤ (entries node.log).length
  · have hseeded := seeded_seedCommands hlog node.lastApplied
      ((entries node.log).length - node.lastApplied) (by omega) session
    rw [← List.length_drop, List.take_length, List.length_drop] at hseeded
    exact hseeded
  · have hnone : (entries node.log).length - node.lastApplied = 0 := by omega
    have hnil : node.desk.backlog session = [] := by
      simp only [Desk.backlog, desk]
      rw [List.drop_eq_nil_of_le (by omega)]
      rfl
    rw [hnone, hnil]
    exact Lane.seeded_empty

theorem turnsTo_crowned (node : Node L σ) :
    TurnsTo fails input node node.crowned := by
  refine turnsTo_of_turn rfl (fun hlog => ?_)
  have hlead : Turn fails input node.desk { node.desk with
      lanes := some node.newLeadership.sequencer.lane } :=
    .lead (seeded_newLeadership hlog)
  exact hlead

variable [StateMachine σ]

theorem turnsTo_beginTerm (node : Node L σ) :
    TurnsTo fails input node node.beginTerm := by
  unfold beginTerm
  rcases happend : LogStore.append node.log node.term .noOp with
    ⟨outcome, log⟩
  have hextended : TurnsTo fails input node { node with log := log } :=
    turnsTo_append (fun _ _ _ => rfl) happend
  rcases outcome with fault | index
  · exact hextended.trans (turnsTo_becomeFollower _ (Or.inl (Nat.le_refl _)))
  · have hnoop := sameDesk_modifyLeadership { node with log := log }
      (f := fun leadership => { leadership with noopIndex := index })
      (fun _ => rfl)
    exact (hextended.trans hnoop.turnsTo).trans ((turnsTo_replicate _).trans
      (sameDesk_publishEvents _).turnsTo)

theorem turnsTo_becomeLeader (node : Node L σ) :
    TurnsTo fails input node node.becomeLeader :=
  (turnsTo_crowned node).trans (turnsTo_beginTerm node.crowned)

omit [StateMachine σ] in
theorem resigned_desk (node : Node L σ) :
    node.resigned.log = node.log ∧
      node.resigned.desk = { node.desk with lanes := none } := by
  unfold resigned
  cases hleadership : node.leadership with
  | none =>
      refine ⟨rfl, ?_⟩
      simp only [Option.isSome_none, Bool.false_eq_true, ↓reduceIte, desk,
        hleadership, Option.map_none]
  | some leadership =>
      simp only [Option.isSome_some, ↓reduceIte, becomeFollower_eq,
        stepDown_desk, stepDown_log, adoptTerm, Nat.lt_irrefl]
      exact ⟨trivial, rfl⟩

omit [StateMachine σ] in
theorem turnsTo_resigned (node : Node L σ) :
    TurnsTo fails input node node.resigned := by
  unfold resigned
  split
  · exact turnsTo_becomeFollower node (Or.inl (Nat.le_refl _))
  · exact .refl node

omit [StateMachine σ] in
theorem turnsTo_candidacy {log : L} (hleadership : node.leadership = none)
    (hlog : Sound log) (hentries : entries log = entries node.log) :
    TurnsTo fails .electionTimeout node
      (node.candidacy log (node.term + 1)) := by
  refine fun _ => ⟨hlog, .single ?_⟩
  have hrise : Turn fails .electionTimeout node.desk
      { node.desk with term := node.desk.term + 1 } :=
    .rise rfl (by simp only [desk, hleadership, Option.map_none])
  have hasks : ∀ request : VoteRequest,
      (node.peers.map (fun peer => Outbound.vote peer request)).flatMap
        Outbound.entries = [] := by
    intro request
    rw [List.flatMap_eq_nil_iff]
    intro message hmessage
    obtain ⟨peer, -, rfl⟩ := List.mem_map.mp hmessage
    rfl
  have hsame : (node.candidacy log (node.term + 1)).desk =
      { node.desk with term := node.desk.term + 1 } := by
    simp only [desk, candidacy, send, List.flatMap_append, hentries]
    congr 1
    exact (congrArg _ (hasks _)).trans (List.append_nil _)
  rw [hsame]
  exact hrise

theorem turnsTo_campaign (hleadership : node.leadership = none) :
    TurnsTo fails .electionTimeout node
      (node.campaign (node.term + 1)).2 := by
  unfold campaign
  rcases hsave : LogStore.saveVote node.log (node.term + 1) (some node.id) with
    ⟨outcome, log⟩
  rcases outcome with fault | ⟨⟩
  · intro hlog
    obtain ⟨hafter, hentries, -⟩ := saveVote_cases (Fit.of_sound hlog) hsave
    refine ⟨hafter.sound, ?_⟩
    simp only [desk, hentries]
    exact .refl
  · have hcandidacy : TurnsTo fails .electionTimeout node
        (node.candidacy log (node.term + 1)) := by
      intro hlog
      obtain ⟨hafter, hentries, -⟩ := saveVote_cases (Fit.of_sound hlog) hsave
      exact turnsTo_candidacy hleadership hafter.sound hentries hlog
    by_cases hquorum : (node.candidacy log (node.term + 1)).hasQuorum = true
    · simp only [hquorum, ↓reduceIte]
      exact hcandidacy.trans (turnsTo_becomeLeader _)
    · simp only [hquorum]
      exact hcandidacy

theorem turnsTo_startElection {request : Option VoteRequest}
    {after : Node L σ} (hstart : node.startElection = .ok (request, after)) :
    TurnsTo fails .electionTimeout node after := by
  rw [startElection_eq] at hstart
  simp only [successor] at hstart
  split at hstart
  · simp [Except.map] at hstart
  · simp only [Except.map, Except.ok.injEq] at hstart
    have hcampaign : TurnsTo fails .electionTimeout node.resigned
        (node.resigned.campaign (node.resigned.term + 1)).2 :=
      turnsTo_campaign (resigned_leadership node)
    rw [hstart] at hcampaign
    exact (turnsTo_resigned node).trans hcampaign

omit [StateMachine σ] in
theorem turnsTo_handleVote (node : Node L σ) (request : VoteRequest) :
    TurnsTo fails (.vote request) node (node.handleVote request).2 := by
  unfold handleVote
  have hadopted : TurnsTo fails (.vote request) node
      (if node.term < request.term then node.becomeFollower request.term
        else node) := by
    split
    · exact turnsTo_becomeFollower node (Or.inr rfl)
    · exact .refl node
  dsimp only
  generalize (if node.term < request.term then
    node.becomeFollower request.term else node) = voter at hadopted ⊢
  have hsaved : ∀ {outcome : Except LogFault Unit} {log : L}
      {vote : Option NodeId}, LogStore.saveVote voter.log voter.term
        (some request.candidate) = (outcome, log) →
      TurnsTo fails (.vote request) voter
        { voter with log := log, votedFor := vote } := by
    intro outcome log vote hsave hlog
    obtain ⟨hafter, hentries, -⟩ := saveVote_cases (Fit.of_sound hlog) hsave
    refine ⟨hafter.sound, ?_⟩
    simp only [desk, hentries]
    exact .refl
  split
  · simp only [persistVote]
    rcases hsave : LogStore.saveVote voter.log voter.term
      (some request.candidate) with ⟨outcome, log⟩
    rcases outcome with fault | ⟨⟩ <;> exact hadopted.trans (hsaved hsave)
  · exact hadopted

theorem turnsTo_handleVoteResponse (node : Node L σ) (member : NodeId)
    (response : VoteResponse) :
    TurnsTo fails (.voteResponse member response) node
      (node.handleVoteResponse member response).2 := by
  have hcounted : TurnsTo fails (.voteResponse member response) node
      (node.countVote member) := by
    unfold countVote
    split
    · exact .refl node
    · exact SameDesk.turnsTo ⟨rfl, rfl⟩
  unfold handleVoteResponse
  split
  · exact .refl node
  · split
    · exact turnsTo_becomeFollower node (Or.inr rfl)
    · split
      · dsimp only
        split
        · exact hcounted.trans (turnsTo_becomeLeader _)
        · exact hcounted
      · exact .refl node

end Leading

end Node

end SessionRaft
