/-
What a node does about a peer's message or a timer, in machine words.  A number
that does not fit its word leaves no result.  Only the hint of a refusal and
the term can be made so large by what a node is told.
-/
import SessionRaft.Proofs.CheckedCommits
import SessionRaft.Proofs.Exchanges

namespace SessionRaft.Node

open FaithfulLog

variable {L σ : Type} [LogStore L]

/-! ### Sending entries -/

def checkedAppend (log : L) (term : Nat) (operation : Operation) :
    Option (Except LogFault Nat × L) := do
  let _ ← wordAfter? (LogStore.lastIndex log)
  return LogStore.append log term operation

def checkedCreateAppend (node : Node L σ) (peer : NodeId) :
    Option (Option AppendRequest) :=
  match node.leadership with
  | none => some none
  | some leadership => do
      let fallback ← wordAfter? (LogStore.lastIndex node.log)
      let next := max 1 (leadership.nextIndex.getD peer fallback)
      let previous ← wordBefore? next
      return some
        { term := node.term
          leader := node.id
          prevLogIndex := previous
          prevLogTerm := LogStore.termAt node.log previous
          entries :=
            LogStore.entriesFrom node.log next node.config.maxEntriesPerAppend
          commitIndex := node.commitIndex
          round := leadership.round }

def checkedSendAppends (node : Node L σ) : List NodeId → Option (Node L σ)
  | [] => some node
  | peer :: peers => do
      let request ← node.checkedCreateAppend peer
      (node.send (request.map (.append peer)).toList).checkedSendAppends peers

variable {node : Node L σ}

theorem checkedCreateAppend_eq (hlog : LogStore.lastIndex node.log < wordMax)
    (peer : NodeId) :
    node.checkedCreateAppend peer = some (node.createAppend? peer) := by
  unfold checkedCreateAppend createAppend?
  cases node.leadership with
  | none => rfl
  | some leadership =>
      simp only [wordAfter?_eq hlog, wordBefore?_eq (Nat.le_max_left 1 _),
        Option.bind_eq_bind, Option.bind_some]
      rfl

theorem sendAppends_cons (node : Node L σ) (peer : NodeId)
    (peers : List NodeId) : node.sendAppends (peer :: peers) =
      (node.send ((node.createAppend? peer).map
        (Outbound.append peer)).toList).sendAppends peers := by
  unfold sendAppends
  cases hcreate : node.createAppend? peer with
  | none => simp [hcreate, send]
  | some request =>
      simp only [List.filterMap_cons, hcreate, Option.map_some, send,
        Option.toList_some, List.append_assoc, List.singleton_append]
      rfl

theorem checkedSendAppends_eq (node : Node L σ)
    (hlog : LogStore.lastIndex node.log < wordMax) (peers : List NodeId) :
    node.checkedSendAppends peers = some (node.sendAppends peers) := by
  induction peers generalizing node with
  | nil => simp [checkedSendAppends, sendAppends, send]
  | cons peer peers ih =>
      rw [checkedSendAppends, checkedCreateAppend_eq hlog, sendAppends_cons]
      exact ih _ hlog

/-! ### Taking entries -/

def checkedAdopt (log : L) (entry : LogEntry) :
    Option (Except ErrorKind Unit × L) := do
  let (outcome, log) ←
    if entry.index ≤ LogStore.lastIndex log then do
      let last ← wordBefore? entry.index
      pure (LogStore.truncateAfter log last)
    else pure (.ok (), log)
  match outcome with
  | .error _ => return (.error .internalError, log)
  | .ok () =>
      match ← checkedAppend log entry.term entry.operation with
      | (.error _, log) => return (.error .internalError, log)
      | (.ok index, log) =>
          return if index = entry.index then (.ok (), log)
            else (.error .internalError, log)

/-- Merge received entries, of which the next has to carry the expected
index. -/
def checkedMerge (commitIndex : Nat) :
    L → Nat → List LogEntry → Option (Except ErrorKind Nat × L)
  | log, expected, [] => do
      return (.ok (← wordBefore? expected), log)
  | log, expected, entry :: entries =>
      if entry.index ≠ expected then some (.error .protocolError, log)
      else do
        let expected ← wordAfter? expected
        if holds log entry then checkedMerge commitIndex log expected entries
        else if entry.index ≤ LogStore.lastIndex log ∧
            entry.index ≤ commitIndex then
          return (.error .protocolError, log)
        else
          match ← checkedAdopt log entry with
          | (.error kind, log) => return (.error kind, log)
          | (.ok (), log) => checkedMerge commitIndex log expected entries

section Merging

variable {log : L} {previous : Nat}

theorem checkedAppend_eq (hroom : LogStore.lastIndex log < wordMax)
    (term : Nat) (operation : Operation) :
    checkedAppend log term operation =
      some (LogStore.append log term operation) := by
  rw [checkedAppend, wordAfter?_eq hroom]
  rfl

variable [FaithfulLog L]

theorem checkedAdopt_eq (hlog : Sound log)
    (hroom : LogStore.lastIndex log < wordMax) {entry : LogEntry}
    (hindex : 0 < entry.index) :
    checkedAdopt log entry = some (adopt log entry) := by
  unfold checkedAdopt adopt
  by_cases hle : entry.index ≤ LogStore.lastIndex log
  · simp only [if_pos hle, wordBefore?_eq hindex, Option.bind_eq_bind,
      Option.bind_some, Option.pure_def]
    rcases htruncate : LogStore.truncateAfter log (entry.index - 1) with
      ⟨outcome, middle⟩
    obtain ⟨hmiddle, -, hentries⟩ :=
      truncateAfter_cases (Fit.of_sound hlog) htruncate
    rcases outcome with fault | ⟨⟩
    · rfl
    · have hshorter : LogStore.lastIndex middle < wordMax := by
        rw [lastIndex_eq_length hmiddle.sound]
        rw [lastIndex_eq_length hlog] at hroom
        rcases hentries with ⟨-, heq⟩ | ⟨_, -, heq⟩
        · rw [heq, List.length_take]
          omega
        · rwa [heq]
      rw [checkedAppend_eq hshorter]
      rcases LogStore.append middle entry.term entry.operation with
        ⟨_ | index, after⟩ <;> rfl
  · simp only [if_neg hle, Option.bind_eq_bind, Option.bind_some,
      Option.pure_def]
    rw [checkedAppend_eq hroom]
    rcases LogStore.append log entry.term entry.operation with
      ⟨_ | index, after⟩ <;> rfl

/-- A log with the same entries is as long. -/
theorem lastIndex_of_entries {after : L} (hlog : Sound log)
    (hafter : Sound after) (hsame : entries after = entries log) :
    LogStore.lastIndex after = LogStore.lastIndex log := by
  rw [lastIndex_eq_length hafter, hsame, lastIndex_eq_length hlog]

/-- An adopted entry is the last. -/
theorem lastIndex_of_adopt {middle : L} (hlog : Sound log) {entry : LogEntry}
    (hindex : entry.index = previous + 1)
    (hprevious : previous ≤ LogStore.lastIndex log)
    (hadopt : adopt log entry = (.ok (), middle)) :
    Sound middle ∧ LogStore.lastIndex middle = previous + 1 := by
  rw [lastIndex_eq_length hlog] at hprevious
  obtain ⟨hmiddle, -, ⟨-, hentries⟩ | ⟨heq, -⟩⟩ :=
    adopt_cases (Fit.of_sound hlog) hindex hprevious hadopt
  · refine ⟨hmiddle.sound, ?_⟩
    rw [lastIndex_eq_length hmiddle.sound, hentries, List.length_append,
      List.length_take, List.length_singleton]
    omega
  · simp at heq

/-- Merging leaves alone what stands in front of it. -/
theorem le_lastIndex_merge (hlog : Sound log)
    (hprevious : previous ≤ LogStore.lastIndex log) (commitIndex : Nat)
    (received : List LogEntry) : previous ≤
      LogStore.lastIndex (merge commitIndex log previous received).2 := by
  rcases hmerge : merge commitIndex log previous received with ⟨_, after⟩
  rw [lastIndex_eq_length hlog] at hprevious
  obtain ⟨hafter, -, hspliced, -⟩ :=
    merge_cases (Fit.of_sound hlog) hprevious hmerge
  obtain ⟨hkept, -⟩ := spliced_prefix hprevious hspliced
  rwa [lastIndex_eq_length hafter.sound]

/-- Merging counts no further than to the end of the log, and one more. -/
theorem checkedMerge_eq (commitIndex : Nat) (hlog : Sound log) {bound : Nat}
    (hbound : bound < wordMax) {received : List LogEntry}
    (hprevious : previous ≤ LogStore.lastIndex log)
    (hbefore : LogStore.lastIndex log < bound)
    (hafter : LogStore.lastIndex (merge commitIndex log previous received).2 <
      bound) :
    checkedMerge commitIndex log (previous + 1) received =
      some (merge commitIndex log previous received) := by
  induction received generalizing log previous with
  | nil => rfl
  | cons entry received ih =>
      unfold checkedMerge
      unfold merge at hafter ⊢
      by_cases hindex : entry.index = previous + 1
      · have hnumbered : ¬entry.index ≠ previous + 1 := not_not_intro hindex
        simp only [if_neg hnumbered] at hafter ⊢
        rw [wordAfter?_eq (by omega)]
        simp only [Option.bind_eq_bind, Option.bind_some]
        by_cases hholds : holds log entry = true
        · have hplace := (of_decide_eq_true hholds).1
          rw [if_pos hholds, hindex] at hafter
          rw [if_pos hholds, if_pos hholds, hindex]
          exact ih hlog (by omega) hbefore hafter
        · rw [if_neg hholds] at hafter
          rw [if_neg hholds, if_neg hholds]
          split
          · rfl
          · rename_i hconflict
            rw [if_neg hconflict] at hafter
            rw [checkedAdopt_eq hlog (by omega) (by omega)]
            rcases hadopt : adopt log entry with ⟨_ | ⟨⟩, middle⟩
            · rfl
            · obtain ⟨hmiddle, hlast⟩ :=
                lastIndex_of_adopt hlog hindex hprevious hadopt
              have hreached := Nat.le_of_eq hlast.symm
              simp only [hadopt, hindex] at hafter ⊢
              refine ih hmiddle hreached ?_ hafter
              have hkept :=
                le_lastIndex_merge hmiddle hreached commitIndex received
              omega
      · simp only [if_pos hindex]

end Merging

section Following

variable [StateMachine σ]

def checkedReceive (node : Node L σ) (request : AppendRequest) :
    Option ((AppendResponse × Bool) × Node L σ) :=
  let previous := request.prevLogIndex
  if LogStore.lastIndex node.log < previous then
    some ((node.appended false (LogStore.lastIndex node.log) request.round,
      true), node)
  else if LogStore.termAt node.log previous ≠ request.prevLogTerm then
    some ((node.appended false (previous - 1) request.round, true), node)
  else do
    let expected ← wordAfter? previous
    match ← checkedMerge node.commitIndex node.log expected
      request.entries with
    | (.error kind, log) =>
        return ((.error kind, true), { node with log := log })
    | (.ok matched, log) =>
        let node ← { node with log := log }.checkedFollowCommit
          (min request.commitIndex matched)
        return ((node.appended true matched request.round, true), node)

def checkedHandleAppend (node : Node L σ) (request : AppendRequest) :
    Option ((AppendResponse × Bool) × Node L σ) :=
  if request.term < node.term then
    some ((node.appended false (LogStore.lastIndex node.log) request.round,
      false), node)
  else (node.receptive request).checkedReceive request

variable [FaithfulLog L] {request : AppendRequest}

omit [StateMachine σ] in
/-- A log that was merged holds what is committed and what matched. -/
theorem Roomy.merged (hroomy : node.Roomy) (hlog : Sound node.log)
    (hprevious : request.prevLogIndex ≤ LogStore.lastIndex node.log)
    {outcome : Except ErrorKind Nat} {log : L}
    (hmerge : merge node.commitIndex node.log request.prevLogIndex
      request.entries = (outcome, log))
    (hroom : LogStore.lastIndex log < wordMax) :
    ({ node with log := log } : Node L σ).Roomy ∧
      ∀ matched, outcome = .ok matched → matched ≤ LogStore.lastIndex log := by
  obtain ⟨hcounted, happlied, hcommitted, -⟩ := hroomy
  rw [lastIndex_eq_length hlog] at hprevious hcommitted
  obtain ⟨hafter, -, hspliced, hdone⟩ :=
    merge_cases (Fit.of_sound hlog) hprevious hmerge
  have hlast := lastIndex_eq_length hafter.sound
  refine ⟨⟨hcounted, happlied, ?_, hroom⟩, fun matched hmatched => ?_⟩
  · rw [hlast]
    exact length_le_of_take_eq (spliced_committed hcommitted hspliced)
      hcommitted
  · obtain ⟨rfl, hmatches⟩ := hdone matched hmatched
    obtain ⟨hkept, -⟩ := spliced_prefix hprevious hspliced
    rw [hlast]
    exact matches_length hkept hmatches

theorem Roomy.checkedReceive (hroomy : node.Roomy) (hlog : Sound node.log)
    {bound : Nat} (hbound : bound < wordMax)
    (hbefore : LogStore.lastIndex node.log < bound)
    (hafter : LogStore.lastIndex (node.receive request).2.log < bound)
    (hfits : (node.receive request).2.executor.sessions.eventVersion <
      signedBound) :
    node.checkedReceive request = some (node.receive request) := by
  unfold Node.checkedReceive
  unfold receive at hafter hfits ⊢
  dsimp only at hafter hfits ⊢
  split
  · rfl
  · rename_i hlong
    have hprevious := Nat.le_of_not_lt hlong
    rw [if_neg hlong] at hafter hfits
    split
    · rfl
    · rename_i hjoin
      rw [if_neg hjoin] at hafter hfits
      rcases hmerge : merge node.commitIndex node.log request.prevLogIndex
        request.entries with ⟨outcome, log⟩
      rw [hmerge] at hafter hfits
      have hlast : LogStore.lastIndex log < bound := by
        rcases outcome with kind | matched
        · exact hafter
        · simpa only [followCommit_log] using hafter
      have hmerged := checkedMerge_eq node.commitIndex hlog
        hbound hprevious hbefore (by rw [hmerge]; exact hlast)
      rw [wordAfter?_eq (by omega)]
      simp only [Option.bind_eq_bind, Option.bind_some, hmerged, hmerge]
      rcases outcome with kind | matched
      · rfl
      · obtain ⟨hmiddle, hheld⟩ :=
          hroomy.merged hlog hprevious hmerge (Nat.lt_trans hlast hbound)
        have hfollow := hmiddle.checkedFollowCommit
          (Nat.le_trans (Nat.min_le_right request.commitIndex matched)
            (hheld matched rfl)) hfits
        simp only [hfollow]
        rfl

omit [StateMachine σ] [FaithfulLog L] in
/-- A node that is spared has room, if its log is as long as it was. -/
theorem Roomy.spared (hroomy : node.Roomy) {after : Node L σ}
    (hspared : node.Spared after)
    (hsame : LogStore.lastIndex after.log = LogStore.lastIndex node.log) :
    after.Roomy where
  counted := hspared.executor ▸ hroomy.counted
  applied := by
    rw [hspared.lastApplied, hspared.commitIndex]
    exact hroomy.applied
  committed := by
    rw [hspared.commitIndex, hsame]
    exact hroomy.committed
  log := hsame ▸ hroomy.log

/-- Turning into a follower leaves room. -/
theorem Roomy.receptive (hroomy : node.Roomy) (hlog : Sound node.log)
    (hfresh : ¬request.term < node.term) :
    (node.receptive request).Roomy ∧ Sound (node.receptive request).log ∧
      LogStore.lastIndex (node.receptive request).log =
        LogStore.lastIndex node.log := by
  obtain ⟨hspared, hentries⟩ := spared_receptive hlog request
  obtain ⟨hproceeds, -⟩ : Proceeds False (.append request) node
      (node.receptive request) ∧ _ := receptive_cases hfresh
  have hsound := (hproceeds (.of_sound hlog)).1.sound
  have hsame := lastIndex_of_entries hlog hsound hentries
  exact ⟨hroomy.spared hspared hsame, hsound, hsame⟩

theorem Roomy.checkedHandleAppend (hroomy : node.Roomy) (hlog : Sound node.log)
    {bound : Nat} (hbound : bound < wordMax)
    (hbefore : LogStore.lastIndex node.log < bound)
    (hafter : LogStore.lastIndex (node.handleAppend request).2.log < bound)
    (hfits : (node.handleAppend request).2.executor.sessions.eventVersion <
      signedBound) :
    node.checkedHandleAppend request = some (node.handleAppend request) := by
  unfold Node.checkedHandleAppend
  rw [handleAppend_eq] at hafter hfits ⊢
  split
  · rfl
  · rename_i hfresh
    rw [if_neg hfresh] at hafter hfits
    obtain ⟨hreceptive, hsound, hsame⟩ := hroomy.receptive hlog hfresh
    exact hreceptive.checkedReceive hsound hbound (hsame ▸ hbefore) hafter hfits

end Following

/-! ### Heeding answers -/

section Heeding

variable [StateMachine σ]

def checkedReplicate (node : Node L σ) : Option (Node L σ) :=
  match node.leadership with
  | none => some node
  | some leadership => do
      let round ← wordAfter? leadership.round
      let node ← { node with
        leadership := some { leadership with round := round }
        }.checkedSendAppends node.peers
      return (← node.checkedAdvanceCommit).2

def checkedAcceptProgress (node : Node L σ) (leadership : Leadership)
    (peer : NodeId) (index : Nat) : Option (Bool × Node L σ) := do
  let matched := max (leadership.matchIndex.getD peer 0)
    (min index (LogStore.lastIndex node.log))
  let next ← wordAfter? matched
  let (advanced, node) ← { node with
    leadership := some { leadership with
      matchIndex := leadership.matchIndex.insert peer matched
      nextIndex := leadership.nextIndex.insert peer next }
    }.checkedAdvanceCommit
  if matched < LogStore.lastIndex node.log then
    return (advanced, ← node.checkedSendAppends [peer])
  else return (advanced, node)

def checkedAcceptRefusal (node : Node L σ) (leadership : Leadership)
    (peer : NodeId) (next hint : Nat) : Option (Node L σ) := do
  let retry := max 1 (min (next - 1) (← wordAfter? hint))
  { node with
    leadership := some (Leadership.retreat leadership peer retry)
    }.checkedSendAppends [peer]

def checkedHandleAppendResponse (node : Node L σ) (peer : NodeId) :
    AppendResponse → Option (Bool × Node L σ)
  | .error _ => some (false, node)
  | .ok appended =>
      if node.term < appended.term then
        some (false, node.becomeFollower appended.term)
      else if node.role ≠ .leader ∨ appended.term < node.term then
        some (false, node)
      else
        match node.leadership with
        | none => some (false, node)
        | some leadership =>
            match leadership.nextIndex.get? peer with
            | none => some (false, node)
            | some next => do
                let leadership :=
                  Leadership.acknowledge leadership peer appended.round
                if appended.succeeded then
                  let (advanced, node) ← node.checkedAcceptProgress leadership
                    peer appended.lastLogIndex
                  return (advanced, node.serveQueries)
                else
                  let node ← node.checkedAcceptRefusal leadership peer next
                    appended.lastLogIndex
                  return (false, node.serveQueries)

variable [FaithfulLog L]

theorem Roomy.checkedReplicate (hroomy : node.Roomy)
    (hround : ∀ leadership, node.leadership = some leadership →
      leadership.round < wordMax)
    (hfits : node.replicate.executor.sessions.eventVersion < signedBound) :
    node.checkedReplicate = some node.replicate := by
  unfold Node.checkedReplicate
  unfold replicate at hfits ⊢
  split
  · rename_i hnone
    simp [hnone]
  · rename_i leadership hleadership
    have hsome : node.leadership.isSome = true := by simp [hleadership]
    rw [if_pos hsome] at hfits ⊢
    have hbroadcast : node.broadcast = sendAppends { node with
        leadership := some { leadership with round := leadership.round + 1 } }
        node.peers := by
      simp [broadcast, modifyLeadership, hleadership]
    rw [hbroadcast] at hfits ⊢
    have hsends := checkedSendAppends_eq { node with
      leadership := some { leadership with round := leadership.round + 1 } }
      hroomy.log node.peers
    have hsent : (sendAppends { node with
        leadership := some { leadership with round := leadership.round + 1 } }
        node.peers).Roomy :=
      ⟨hroomy.counted, hroomy.applied, hroomy.committed, hroomy.log⟩
    rw [wordAfter?_eq (hround leadership hleadership)]
    simp only [Option.bind_eq_bind, Option.bind_some, hsends,
      hsent.checkedAdvanceCommit hfits]
    rfl

theorem Roomy.checkedAcceptProgress (hroomy : node.Roomy)
    {leadership : Leadership} {peer : NodeId} {index : Nat}
    (hbelief : leadership.matchIndex.getD peer 0 ≤ LogStore.lastIndex node.log)
    (hfits : (node.acceptProgress leadership peer
      index).2.executor.sessions.eventVersion < signedBound) :
    node.checkedAcceptProgress leadership peer index =
      some (node.acceptProgress leadership peer index) := by
  obtain ⟨held, hheld⟩ : ∃ held, held = max (leadership.matchIndex.getD peer 0)
      (min index (LogStore.lastIndex node.log)) := ⟨_, rfl⟩
  have hroom := hroomy.log
  have hnoted :
      (node.noting (Leadership.progress leadership peer held)).Roomy :=
    ⟨hroomy.counted, hroomy.applied, hroomy.committed, hroomy.log⟩
  obtain ⟨_, hlasts⟩ := outlasts_advanceCommit
    (node.noting (Leadership.progress leadership peer held))
  rcases hcommit : (node.noting (Leadership.progress leadership peer
    held)).advanceCommit with ⟨advanced, after⟩
  rw [acceptProgress_eq index hheld hcommit] at hfits ⊢
  rw [hcommit] at hlasts
  have hlog : LogStore.lastIndex after.log < wordMax := hlasts.log ▸ hroom
  have hfitsAfter : after.executor.sessions.eventVersion < signedBound := by
    split at hfits <;> exact hfits
  have hadvance := hnoted.checkedAdvanceCommit (hcommit ▸ hfitsAfter)
  rw [hcommit] at hadvance
  unfold Node.checkedAcceptProgress
  dsimp only
  rw [← hheld, wordAfter?_eq (by omega)]
  simp only [Option.bind_eq_bind, Option.bind_some]
  change (node.noting (Leadership.progress leadership peer
    held)).checkedAdvanceCommit.bind _ = _
  simp only [hadvance, Option.bind_some]
  split
  · rw [checkedSendAppends_eq after hlog]
    rfl
  · rfl

omit [StateMachine σ] [FaithfulLog L] in
theorem Roomy.checkedAcceptRefusal (hroomy : node.Roomy)
    {leadership : Leadership} {peer : NodeId} {next hint : Nat}
    (hword : hint ≤ wordMax) :
    node.checkedAcceptRefusal leadership peer next hint =
      (node.acceptRefusal leadership peer next hint).toOption := by
  rcases Nat.lt_or_eq_of_le hword with hlt | rfl
  · rw [acceptRefusal_word hlt, Node.checkedAcceptRefusal, wordAfter?_eq hlt]
    exact checkedSendAppends_eq (node.noting _) hroomy.log [peer]
  · simp [Node.checkedAcceptRefusal, acceptRefusal, wordAfter?, successor]
    rfl

theorem Roomy.checkedHandleAppendResponse (hroomy : node.Roomy)
    (hwithin : ∀ leadership, node.leadership = some leadership →
      leadership.Within (LogStore.lastIndex node.log))
    {peer : NodeId} {response : AppendResponse}
    (hword : ∀ appended, response = .ok appended →
      appended.lastLogIndex ≤ wordMax)
    (hfits : ∀ outcome after,
      node.handleAppendResponse peer response = .ok (outcome, after) →
        after.executor.sessions.eventVersion < signedBound) :
    node.checkedHandleAppendResponse peer response =
      (node.handleAppendResponse peer response).toOption := by
  rcases response with appended | kind
  swap
  · rfl
  unfold Node.checkedHandleAppendResponse
  unfold handleAppendResponse at hfits ⊢
  by_cases hnewer : node.term < appended.term
  · simp only [if_pos hnewer]
    rfl
  by_cases hother : node.role ≠ .leader ∨ appended.term < node.term
  · simp only [if_neg hnewer, if_pos hother]
    rfl
  simp only [if_neg hnewer, if_neg hother] at hfits ⊢
  rcases hleadership : node.leadership with _ | leadership
  · rfl
  rcases hnext : leadership.nextIndex.get? peer with _ | next
  · simp only [hnext]
    rfl
  simp only [hleadership, hnext] at hfits ⊢
  cases hsucceeded : appended.succeeded with
  | false =>
      simp only [Bool.false_eq_true, ↓reduceIte]
      rw [hroomy.checkedAcceptRefusal (hword appended rfl)]
      cases node.acceptRefusal (Leadership.acknowledge leadership peer
        appended.round) peer next appended.lastLogIndex <;> rfl
  | true =>
      simp only [hsucceeded, ↓reduceIte] at hfits ⊢
      have hbelief : (Leadership.acknowledge leadership peer
          appended.round).matchIndex.getD peer 0 ≤
          LogStore.lastIndex node.log :=
        (hwithin leadership hleadership).getD_le peer
      have hserved := hfits _ _ rfl
      rw [hroomy.checkedAcceptProgress hbelief hserved]
      rfl

end Heeding

/-! ### Elections -/

section Electing

variable [StateMachine σ]

/-- Begin a leadership with an entry of its own term. -/
def checkedBeginTerm (node : Node L σ) : Option (Node L σ) := do
  match ← checkedAppend node.log node.term .noOp with
  | (.error _, log) => return { node with log := log }.becomeFollower node.term
  | (.ok index, log) =>
      let node ← ({ node with log := log }.modifyLeadership (fun leadership =>
        { leadership with noopIndex := index })).checkedReplicate
      return node.publishEvents

/-- Lead the present term.  The peers are tried from behind the end of the log,
and the commands behind the last applied entry are noted. -/
def checkedBecomeLeader (node : Node L σ) : Option (Node L σ) := do
  let _ ← wordAfter? (LogStore.lastIndex node.log)
  let _ ← wordAfter? node.lastApplied
  node.crowned.checkedBeginTerm

def checkedCampaign (node : Node L σ) (term : Nat) :
    Option (Option VoteRequest × Node L σ) :=
  match LogStore.saveVote node.log term (some node.id) with
  | (.error _, log) =>
      some (none, { node with log := log, role := .follower, votes := [] })
  | (.ok (), log) => do
      let candidate := node.candidacy log term
      return (some candidate.voteRequest,
        ← if candidate.hasQuorum then candidate.checkedBecomeLeader
          else pure candidate)

def checkedStartElection (node : Node L σ) :
    Option (Option VoteRequest × Node L σ) := do
  let node := node.resigned
  node.checkedCampaign (← wordAfter? node.term)

def checkedHandleVoteResponse (node : Node L σ) (member : NodeId) :
    VoteResponse → Option (Bool × Node L σ)
  | .error _ => some (false, node)
  | .ok vote =>
      if node.term < vote.term then
        some (false, node.becomeFollower vote.term)
      else if node.role = .candidate ∧ node.term ≤ vote.term ∧ vote.voted ∧
          member ∈ node.members then
        let node := node.countVote member
        if node.hasQuorum then do return (true, ← node.checkedBecomeLeader)
        else some (false, node)
      else some (false, node)

variable [FaithfulLog L]

theorem Roomy.checkedBeginTerm (hroomy : node.Roomy) (hlog : Sound node.log)
    (hlast : LogStore.lastIndex node.log + 1 < wordMax)
    (hround : ∀ leadership, node.leadership = some leadership →
      leadership.round < wordMax)
    (hfits : node.beginTerm.executor.sessions.eventVersion < signedBound) :
    node.checkedBeginTerm = some node.beginTerm := by
  unfold Node.checkedBeginTerm
  unfold beginTerm at hfits ⊢
  rw [checkedAppend_eq hroomy.log]
  rcases happend : LogStore.append node.log node.term .noOp with
    ⟨fault | index, log⟩
  · rfl
  · rw [happend] at hfits
    obtain ⟨hafter, -, hentries⟩ := append_done (Fit.of_sound hlog) happend
    have hlength :
        LogStore.lastIndex log = LogStore.lastIndex node.log + 1 := by
      rw [lastIndex_eq_length hafter.sound, hentries, List.length_append,
        List.length_singleton, lastIndex_eq_length hlog]
    have hbegun : (modifyLeadership { node with log := log }
        (fun leadership => { leadership with noopIndex := index })).Roomy :=
      ⟨hroomy.counted, hroomy.applied,
        Nat.le_trans hroomy.committed (by simp [modifyLeadership, hlength]),
        by simpa [modifyLeadership, hlength] using hlast⟩
    have hpublished : ∀ other : Node L σ,
        other.publishEvents.executor = other.executor := fun other =>
      congrArg Standing.executor (quiet_publishEvents other).standing
    dsimp only at hfits
    rw [hpublished] at hfits
    have hreplicate := hbegun.checkedReplicate (fun leadership hsome => by
      obtain ⟨earlier, hearlier, rfl⟩ := Option.map_eq_some_iff.mp hsome
      exact hround earlier hearlier) hfits
    simp only [Option.bind_eq_bind, Option.bind_some, hreplicate]
    rfl

theorem Roomy.checkedBecomeLeader (hroomy : node.Roomy)
    (hlog : Sound node.log)
    (hlast : LogStore.lastIndex node.log + 1 < wordMax)
    (hfits : node.becomeLeader.executor.sessions.eventVersion < signedBound) :
    node.checkedBecomeLeader = some node.becomeLeader := by
  have hcrowned : node.crowned.Roomy :=
    ⟨hroomy.counted, hroomy.applied, hroomy.committed, hroomy.log⟩
  have hfirst : ∀ leadership, node.crowned.leadership = some leadership →
      leadership.round < wordMax := by
    rintro _ ⟨⟩
    exact Nat.lt_of_le_of_lt (Nat.zero_le _) hlast
  have happlied := Nat.le_trans hroomy.applied hroomy.committed
  rw [Node.checkedBecomeLeader, wordAfter?_eq hroomy.log,
    wordAfter?_eq (Nat.lt_of_le_of_lt happlied hroomy.log)]
  exact hcrowned.checkedBeginTerm hlog hlast hfirst hfits

theorem Roomy.checkedCampaign (hroomy : node.Roomy) (hlog : Sound node.log)
    (hlast : LogStore.lastIndex node.log + 1 < wordMax) {term : Nat}
    (hfits : (node.campaign term).2.executor.sessions.eventVersion <
      signedBound) :
    node.checkedCampaign term = some (node.campaign term) := by
  unfold Node.checkedCampaign
  unfold campaign at hfits ⊢
  rcases hsave : LogStore.saveVote node.log term (some node.id) with
    ⟨fault | ⟨⟩, log⟩
  · rfl
  · rw [hsave] at hfits
    dsimp only at hfits ⊢
    obtain ⟨hafter, hentries, -⟩ := saveVote_done (Fit.of_sound hlog) hsave
    have hsame := lastIndex_of_entries hlog hafter.sound hentries
    have hstands : (node.candidacy log term).Roomy :=
      ⟨hroomy.counted, hroomy.applied, hsame ▸ hroomy.committed,
        hsame ▸ hroomy.log⟩
    split
    · rename_i hquorum
      rw [if_pos hquorum] at hfits
      rw [hstands.checkedBecomeLeader hafter.sound (hsame ▸ hlast) hfits]
      rfl
    · rfl

/-- Giving up a leadership leaves room. -/
theorem Roomy.resigned (hroomy : node.Roomy) (hlog : Sound node.log) :
    node.resigned.Roomy ∧ Sound node.resigned.log ∧
      LogStore.lastIndex node.resigned.log = LogStore.lastIndex node.log := by
  have hproceeds : Proceeds False .electionTimeout node node.resigned :=
    proceeds_resigned node
  have hsound := (hproceeds (.of_sound hlog)).1.sound
  by_cases hsome : node.leadership.isSome = true
  · have hfollows : node.resigned = node.becomeFollower node.term :=
      if_pos hsome
    rw [hfollows] at hsound ⊢
    have hsame := lastIndex_of_entries hlog hsound
      (becomeFollower_entries hlog node.term)
    exact ⟨hroomy.spared (spared_becomeFollower node node.term) hsame, hsound,
      hsame⟩
  · have hstays : node.resigned = node := if_neg hsome
    rw [hstays]
    exact ⟨hroomy, hlog, rfl⟩

theorem Roomy.checkedStartElection (hroomy : node.Roomy)
    (hlog : Sound node.log)
    (hlast : LogStore.lastIndex node.log + 1 < wordMax)
    (hterm : node.term ≤ wordMax)
    (hfits : ∀ request after, node.startElection = .ok (request, after) →
      after.executor.sessions.eventVersion < signedBound) :
    node.checkedStartElection = node.startElection.toOption := by
  obtain ⟨hresigned, hsound, hsame⟩ := hroomy.resigned hlog
  have hkept : node.resigned.term = node.term := by
    unfold Node.resigned
    split
    · rw [becomeFollower_term, Nat.max_self]
    · rfl
  rw [startElection_eq, hkept] at hfits ⊢
  unfold Node.checkedStartElection
  dsimp only
  rw [hkept]
  rcases Nat.lt_or_eq_of_le hterm with hlt | hmax
  · have hnext : successor node.term = .ok (node.term + 1) :=
      if_neg (Nat.ne_of_lt hlt)
    rw [hnext] at hfits ⊢
    rw [wordAfter?_eq hlt]
    exact hresigned.checkedCampaign hsound (hsame ▸ hlast) (hfits _ _ rfl)
  · have hnone : successor node.term = .error .addition := if_pos hmax
    rw [hnone, wordAfter?, if_neg (by omega)]
    rfl

theorem Roomy.checkedHandleVoteResponse (hroomy : node.Roomy)
    (hlog : Sound node.log)
    (hlast : LogStore.lastIndex node.log + 1 < wordMax)
    {member : NodeId} {response : VoteResponse}
    (hfits : (node.handleVoteResponse member
      response).2.executor.sessions.eventVersion < signedBound) :
    node.checkedHandleVoteResponse member response =
      some (node.handleVoteResponse member response) := by
  rcases response with vote | kind
  swap
  · rfl
  unfold Node.checkedHandleVoteResponse
  unfold handleVoteResponse at hfits ⊢
  dsimp only at hfits ⊢
  split
  · rfl
  · rename_i hnewer
    rw [if_neg hnewer] at hfits
    split
    · rename_i hcounts
      rw [if_pos hcounts] at hfits
      have hsame : (node.countVote member).log = node.log := by
        unfold countVote
        split <;> rfl
      have hvoted : (node.countVote member).Roomy := by
        unfold countVote
        split
        · exact hroomy
        · exact ⟨hroomy.counted, hroomy.applied, hroomy.committed, hroomy.log⟩
      split
      · rename_i hquorum
        rw [if_pos hquorum] at hfits
        rw [hvoted.checkedBecomeLeader (hsame ▸ hlog) (hsame ▸ hlast) hfits]
        rfl
      · rfl
    · rfl

end Electing

/-! ### Steps -/

section Stepping

variable [StateMachine σ]

/-- What a node does about a timer or a peer's message.  Nothing is counted when
it is asked for its vote; the inputs that are left are not those of peers. -/
def checkedStep (node : Node L σ) : Input → Option (Output × Node L σ)
  | .electionTimeout => do
      let (request, node) ← node.checkedStartElection
      return (.election request, node)
  | .heartbeat => do return (.none, ← node.checkedReplicate)
  | .voteResponse sender response => do
      let (outcome, node) ← node.checkedHandleVoteResponse sender response
      return (.won outcome, node)
  | .append request => do
      let ((response, restart), node) ← node.checkedHandleAppend request
      return (.append response restart, node)
  | .appendResponse sender response => do
      let (outcome, node) ← node.checkedHandleAppendResponse sender response
      return (.advanced outcome, node)
  | input => (node.step input).toOption

/-- The term of a node is a machine word, and what the node itself counts up
one by one, its entries, broadcasts and events, has not come half as far. -/
structure Fits (node : Node L σ) : Prop where
  term : node.term ≤ wordMax
  log : LogStore.lastIndex node.log < signedBound
  round : ∀ leadership, node.leadership = some leadership →
    leadership.round < signedBound
  events : node.executor.sessions.eventVersion < signedBound

variable [FaithfulLog L]

/-- A step in machine words is the same step, if the node fits them before and
after it. -/
theorem Fits.checkedStep (hfits : node.Fits) (hproper : node.Proper)
    (hcounted : node.executor.sessions.Counted)
    (hwithin : ∀ leadership, node.leadership = some leadership →
      leadership.Within (LogStore.lastIndex node.log))
    {input : Input}
    (hword : ∀ peer appended, input = .appendResponse peer (.ok appended) →
      appended.lastLogIndex ≤ wordMax)
    (hafter : ∀ output after, node.step input = .ok (output, after) →
      after.Fits) :
    node.checkedStep input = (node.step input).toOption := by
  have hlog := hproper.sound
  have hlast := hfits.log
  have hhalf : signedBound + 1 < wordMax := by decide
  have hroomy : node.Roomy :=
    ⟨hcounted, hproper.settled.applied,
      lastIndex_eq_length hlog ▸ hproper.settled.committed, by omega⟩
  cases input with
  | electionTimeout =>
      simp only [Node.checkedStep, step]
      rw [hroomy.checkedStartElection hlog (by omega) hfits.term
        (fun request after hstart => (hafter (.election request) after (by
          simp only [step, hstart]
          rfl)).events)]
      cases node.startElection <;> rfl
  | heartbeat =>
      have hserved := (hafter _ _ rfl).events
      have hround : ∀ leadership, node.leadership = some leadership →
          leadership.round < wordMax := fun leadership hleadership =>
        Nat.lt_trans (hfits.round leadership hleadership) (by omega)
      simp only [Node.checkedStep]
      rw [hroomy.checkedReplicate hround hserved]
      rfl
  | voteResponse sender response =>
      have hserved := (hafter _ _ rfl).events
      simp only [Node.checkedStep]
      rw [hroomy.checkedHandleVoteResponse hlog (by omega) hserved]
      rfl
  | append request =>
      have hserved := hafter _ _ rfl
      simp only [Node.checkedStep]
      rw [hroomy.checkedHandleAppend hlog (by omega) hlast hserved.log
        hserved.events]
      rfl
  | appendResponse sender response =>
      simp only [Node.checkedStep, step]
      rw [hroomy.checkedHandleAppendResponse hwithin
        (fun appended heq => hword sender appended (by rw [heq]))
        (fun outcome after hhandle => (hafter (.advanced outcome) after (by
          simp only [step, hhandle]
          rfl)).events)]
      cases node.handleAppendResponse sender response <;> rfl
  | _ => rfl

end Stepping

end SessionRaft.Node
