/-
The moves of broadcasting, committing, applying and stepping down.
-/
import SessionRaft.Proofs.Frames

namespace SessionRaft.Node

open FaithfulLog

variable {L σ : Type} [LogStore L] [FaithfulLog L] [StateMachine σ]

/-- A chain of moves leads from one node to the other. -/
def Proceeds (steady : Prop) (input : Input) (before after : Node L σ) : Prop :=
  Fit steady before.log → Fit steady after.log ∧
    Moves steady input before.standing after.standing

variable {steady : Prop} {input : Input} {node before middle after : Node L σ}

theorem Proceeds.refl (input : Input) (node : Node L σ) :
    Proceeds steady input node node :=
  fun hlog => ⟨hlog, .refl⟩

theorem Proceeds.trans (hfirst : Proceeds steady input before middle)
    (hsecond : Proceeds steady input middle after) : Proceeds steady input before after := by
  intro hlog
  obtain ⟨hmiddle, hmoves⟩ := hfirst hlog
  obtain ⟨hafter, hmore⟩ := hsecond hmiddle
  exact ⟨hafter, hmoves.trans hmore⟩

theorem Lapsed.proceeds (hlapsed : Lapsed before after) :
    Proceeds steady input before after := by
  intro hlog
  refine ⟨hlapsed.log ▸ hlog, ?_⟩
  rw [hlapsed.standing]
  exact .single (.forgo hlapsed.queries)

theorem Quiet.proceeds (hquiet : Quiet before after) :
    Proceeds steady input before after := by
  intro hlog
  refine ⟨hquiet.log ▸ hlog, ?_⟩
  rw [hquiet.standing]
  exact .refl

/-- One move, if the log is not touched. -/
theorem proceeds_of_move {before after : Node L σ}
    (hlog : after.log = before.log)
    (hmove : Fit steady before.log →
      Move steady input before.standing after.standing) :
    Proceeds steady input before after :=
  fun hsound => ⟨hlog ▸ hsound, .single (hmove hsound)⟩

theorem proceeds_sendAppends (node : Node L σ) (peers : List NodeId) :
    Proceeds steady input node (node.sendAppends peers) := by
  intro hlog
  refine ⟨hlog, ?_⟩
  cases hleadership : node.standing.leadership with
  | none =>
      have hnone : peers.filterMap (fun peer =>
          (node.createAppend? peer).map (Outbound.append peer)) = [] := by
        rw [List.filterMap_eq_nil_iff]
        intro peer _
        rw [createAppend?_eq hlog.sound, hleadership]
        rfl
      have hsame : (node.sendAppends peers).standing = node.standing := by
        simp [sendAppends, hnone, send]
      rw [hsame]
      exact .refl
  | some leadership =>
      have hsome : peers.filterMap (fun peer =>
          (node.createAppend? peer).map (Outbound.append peer)) =
          peers.map (fun peer => Outbound.append peer
            (node.standing.appendRequest leadership peer
              node.config.maxEntriesPerAppend)) := by
        rw [← List.filterMap_eq_map]
        congr 1
        funext peer
        rw [createAppend?_eq hlog.sound, hleadership]
        rfl
      have hmail : (node.sendAppends peers).standing = { node.standing with
          mail := node.standing.mail ++ peers.map (fun peer =>
            Outbound.append peer (node.standing.appendRequest leadership peer
              node.config.maxEntriesPerAppend)) } := by
        rw [sendAppends, hsome]
        simp only [standing, send, List.filter_append, List.filter_map]
        congr 2
        exact congrArg _ (List.filter_eq_self.mpr (fun _ _ => rfl))
      rw [hmail]
      -- What is posted does not depend on the mail, so the peers can be
      -- served one after the other.
      generalize node.config.maxEntriesPerAppend = limit
      generalize node.standing = standing at hleadership
      clear hsome hmail hlog
      induction peers generalizing standing with
      | nil =>
          simp only [List.map_nil, List.append_nil]
          exact .refl
      | cons peer peers ih =>
          rw [List.map_cons, List.append_cons]
          refine .head (.post peer limit hleadership) ?_
          exact ih { standing with
            mail := standing.mail ++
              [.append peer (standing.appendRequest leadership peer limit)] }
            hleadership

theorem proceeds_serveQueries (node : Node L σ) :
    Proceeds steady input node node.serveQueries := by
  intro hlog
  refine ⟨hlog, .single ?_⟩
  simp only [serveQueries, List.partition_eq_filter_filter]
  generalize hready : node.queries.filter (fun query =>
    decide (query.readIndex ≤ node.lastApplied ∧
      query.round ≤ node.confirmedRound)) = ready
  have hserved : servedOf (node.answers ++ ready.map (fun query =>
      (query.ticket, Answer.query (node.executor.query
        ⟨query.request.session, node.lastApplied, query.request.query⟩)))) =
      node.standing.served ++ servedOf (ready.map (fun query =>
      (query.ticket, Answer.query (node.executor.query
        ⟨query.request.session, node.lastApplied, query.request.query⟩)))) :=
    servedOf_append _ _
  simp only [standing, hserved]
  refine (Move.serve (fun _ hquery => (List.mem_filter.mp hquery).1) ?_ :
    Move steady input node.standing _)
  intro ticket hticket
  obtain ⟨answer, hanswer, hfound⟩ := List.mem_filterMap.mp hticket
  obtain ⟨query, hquery, rfl⟩ := List.mem_map.mp hanswer
  rw [← hready, List.mem_filter, decide_eq_true_eq] at hquery
  obtain ⟨hmem, -, hround⟩ := hquery
  refine ⟨query, hmem, ?_, confirmedRound_eq node ▸ hround⟩
  split at hfound
  · simpa using hfound
  · simp at hfound

omit [LogStore L] [FaithfulLog L] in
theorem applyEntry_eq (node : Node L σ) (entry : LogEntry) :
    node.applyEntry entry =
      (settle { node.expireBefore entry.operation with
          executor :=
            ((node.expireBefore entry.operation).executor.apply entry).1 }
        entry.operation
        ((node.expireBefore entry.operation).executor.apply entry).2).complete
        entry.index
        ((node.expireBefore entry.operation).executor.apply entry).2 := rfl

/-- Applying an entry is committing it to the executor, but for queries that
are let go. -/
theorem lapsed_applyEntry (node : Node L σ) (entry : LogEntry) :
    Lapsed { node with executor := (node.executor.commit entry).1 }
      (node.applyEntry entry) := by
  have hexpired := lapsed_expireBefore node entry.operation
  have hexecutor : (node.expireBefore entry.operation).executor =
      node.executor.lapse entry.operation :=
    congrArg Standing.executor hexpired.standing
  rw [applyEntry_eq, hexecutor]
  exact (hexpired.with_executor _).trans
    ((lapsed_settle _ _ _).trans (quiet_complete _ _ _).lapsed)

/-- Applying the entry that follows. -/
theorem proceeds_applyEntry {entry : LogEntry}
    (hlt : node.lastApplied < node.commitIndex)
    (hentry : LogStore.get? node.log (node.lastApplied + 1) = some entry) :
    Proceeds steady input node
      (applyEntry { node with lastApplied := node.lastApplied + 1 } entry) := by
  have happly : Proceeds steady input node { node with
      lastApplied := node.lastApplied + 1
      executor := (node.executor.commit entry).1 } := by
    refine proceeds_of_move rfl (fun hlog => ?_)
    rw [get?_succ hlog.sound] at hentry
    exact (Move.apply hlt hentry : Move steady input node.standing _)
  exact happly.trans (lapsed_applyEntry
    { node with lastApplied := node.lastApplied + 1 } entry).proceeds

theorem proceeds_applyNext (node : Node L σ) {count : Nat}
    (hcount : node.lastApplied + count ≤ node.commitIndex) :
    Proceeds steady input node (node.applyNext count) := by
  induction count generalizing node with
  | zero => exact Proceeds.refl input node
  | succ count ih =>
      unfold applyNext
      cases hentry : LogStore.get? node.log (node.lastApplied + 1) with
      | none => exact Proceeds.refl input node
      | some entry =>
          have hlapsed := lapsed_applyEntry
            { node with lastApplied := node.lastApplied + 1 } entry
          have happlied := congrArg Standing.lastApplied hlapsed.standing
          have hcommit := congrArg Standing.commitIndex hlapsed.standing
          simp only [standing] at happlied hcommit
          exact (proceeds_applyEntry (by omega) hentry).trans
            (ih _ (by omega))

theorem proceeds_applyCommitted (node : Node L σ) :
    Proceeds steady input node node.applyCommitted := by
  unfold applyCommitted
  have happly : Proceeds steady input node
      (node.applyNext (node.commitIndex - node.lastApplied)) := by
    by_cases hle : node.lastApplied ≤ node.commitIndex
    · exact proceeds_applyNext node (by omega)
    · have hzero : node.commitIndex - node.lastApplied = 0 := by omega
      rw [hzero]
      exact Proceeds.refl input node
  exact (happly.trans (proceeds_serveQueries _)).trans
    (quiet_publishEvents _).proceeds

theorem proceeds_advanceCommit (node : Node L σ) :
    Proceeds steady input node node.advanceCommit.2 := by
  unfold advanceCommit
  cases htarget : node.leadership.bind node.commitTarget? with
  | none => exact Proceeds.refl input node
  | some target =>
      obtain ⟨leadership, hleadership, htarget⟩ :=
        Option.bind_eq_some_iff.mp htarget
      obtain ⟨hlt, hle, hterm, hquorum⟩ := commitTarget?_spec htarget
      have hmove : Proceeds steady input node { node with commitIndex := target } := by
        refine proceeds_of_move rfl (fun hlog => ?_)
        rw [lastIndex_eq_length hlog.sound] at hle
        rw [termAt_eq_termOf hlog.sound] at hterm
        have hbare : node.standing.leadership = some leadership.bare := by
          simp [standing, hleadership]
        exact (Move.commit hbare hlt hle hterm hquorum :
          Move steady input node.standing _)
      exact hmove.trans (proceeds_applyCommitted _)

theorem proceeds_replicate (node : Node L σ) :
    Proceeds steady input node node.replicate := by
  unfold replicate
  split
  · rename_i hsome
    obtain ⟨leadership, hleadership⟩ := Option.isSome_iff_exists.mp hsome
    have hround : Proceeds steady input node (node.modifyLeadership (fun leadership =>
        { leadership with round := leadership.round + 1 })) := by
      refine proceeds_of_move rfl (fun _ => ?_)
      have hafter : (node.modifyLeadership (fun leadership =>
          { leadership with round := leadership.round + 1 })).standing =
          { node.standing with
            leadership := some { leadership.bare with
              round := leadership.bare.round + 1 } } := by
        simp only [standing, modifyLeadership, hleadership, Option.map_some]
        rfl
      rw [hafter]
      exact .round (by simp [standing, hleadership])
    exact (hround.trans (proceeds_sendAppends _ _)).trans
      (proceeds_advanceCommit _)
  · exact Proceeds.refl input node

theorem proceeds_shutdown (node : Node L σ) :
    Proceeds steady input node node.shutdown := by
  intro hlog
  unfold shutdown
  refine ⟨(dropAll_log node _).symm ▸ hlog, ?_⟩
  rw [dropAll_standing]
  have hnil : node.queries.filter (fun _ => !true) = [] := by simp
  rw [hnil]
  exact .head (.forgo (List.nil_subset _)) (.single (.retire rfl))

theorem proceeds_becomeFollower (node : Node L σ) (term : Nat) :
    Proceeds steady input node (node.becomeFollower term) := by
  intro hlog
  rw [becomeFollower_eq, stepDown_standing, stepDown_log]
  obtain ⟨hqueries, hreleased⟩ := released_filter node.standing rfl
  by_cases hterm : node.term < term
  · simp only [adoptTerm, hterm, ↓reduceIte, persistVote]
    rcases hsave : LogStore.saveVote node.log term none with ⟨outcome, after⟩
    obtain ⟨hafter, hentries, hcases⟩ := saveVote_cases hlog hsave
    refine ⟨hafter, .head (.forgo hqueries) (.single ?_)⟩
    have hstored : stored after = (term, none) ∨
        ¬steady ∧ stored after = stored node.log := by
      rcases hcases with ⟨-, hstored⟩ | ⟨fault, rfl, hstored⟩
      · exact Or.inl hstored
      · exact Or.inr ⟨hlog.not_steady hsave, hstored⟩
    have hmove : Move steady input _ _ := .adopt hterm hstored hreleased
    simp only [standing, hentries] at hmove ⊢
    exact hmove
  · simp only [adoptTerm, hterm, ↓reduceIte]
    exact ⟨hlog, .head (.forgo hqueries) (.single (.yield hreleased))⟩

end SessionRaft.Node
