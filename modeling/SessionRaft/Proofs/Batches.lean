/-
Requests with entries in several parts.  A node that takes a request part by
part ends as if it had been sent everything at once, wherever the cuts are:
what it commits in between are entries that the later parts do not touch.  So
it makes no difference to a peer how many entries a leader sends at a time.
-/
import SessionRaft.Proofs.JoinedAppends

namespace SessionRaft

open FaithfulLog

/-- Dropping what was taken is dropping as many. -/
theorem drop_length_take {α : Type} (list : List α) (count : Nat) :
    list.drop (list.take count).length = list.drop count := by
  rcases Nat.le_total count list.length with hle | hle
  · rw [List.length_take_of_le hle]
  · rw [List.take_of_length_le hle, List.drop_length,
      List.drop_eq_nil_of_le hle]

/-- The first so many parts of a list, each so long at most. -/
def pieces (limit : Nat) : Nat → List LogEntry → List (List LogEntry)
  | 0, _ => []
  | count + 1, entries =>
      entries.take limit :: pieces limit count (entries.drop limit)

theorem flatten_pieces (limit count : Nat) (entries : List LogEntry) :
    (pieces limit count entries).flatten = entries.take (count * limit) := by
  induction count generalizing entries with
  | zero => simp [pieces]
  | succ count ih =>
      rw [pieces, List.flatten_cons, ih, Nat.succ_mul, Nat.add_comm,
        List.take_add]

namespace AppendRequest

variable {request : AppendRequest} {first second : List LogEntry}

def carrying (request : AppendRequest) (entries : List LogEntry) :
    AppendRequest :=
  { request with entries := entries }

/-- The request for what comes after some entries. -/
def past (request : AppendRequest) (entries : List LogEntry) : AppendRequest :=
  { request with
    prevLogIndex := request.prevLogIndex + entries.length
    prevLogTerm :=
      (entries.getLast?.map LogEntry.term).getD request.prevLogTerm }

/-- The request with the entries in parts. -/
def batches (request : AppendRequest) :
    List (List LogEntry) → List AppendRequest
  | [] => []
  | part :: parts => request.carrying part :: (request.past part).batches parts

theorem reach_past : ((request.past first).carrying second).reach =
    (request.carrying (first ++ second)).reach := by
  simp only [reach, carrying, past, List.length_append, Nat.add_assoc]

/-- What comes after some entries does not depend on those of the request
itself. -/
theorem batches_carrying (entries : List LogEntry)
    (parts : List (List LogEntry)) :
    (request.carrying entries).batches parts = request.batches parts := by
  induction parts generalizing request with
  | nil => rfl
  | cons part parts ih =>
      have hpast : ((request.past part).carrying entries).batches parts =
          (request.past part).batches parts := ih
      exact congrArg (List.cons (request.carrying part)) hpast

/-- The last of the entries that a log holds is of the term that is told with
what comes after them. -/
theorem termOf_reach {entries : List LogEntry}
    (hjoin : termOf entries request.prevLogIndex = request.prevLogTerm)
    (hmatches : Matches entries request.prevLogIndex request.entries) :
    termOf entries request.reach =
      (request.past request.entries).prevLogTerm := by
  unfold reach past
  rcases request.entries.eq_nil_or_concat with hnil | ⟨init, last, hsplit⟩
  · rw [hnil]
    exact hjoin
  · rw [List.concat_eq_append] at hsplit
    rw [hsplit] at hmatches ⊢
    obtain ⟨own, hown, hterm⟩ := hmatches init.length last (by simp)
    rw [List.length_append, List.length_singleton, ← Nat.add_assoc,
      termOf_succ_of_getElem? hown, hterm]
    simp

end AppendRequest

namespace Node

/-! ### Merging in two goes -/

section Merging

variable {L : Type} [LogStore L]

theorem merge_append (commitIndex : Nat) (log : L) (matched : Nat)
    (first second : List LogEntry) :
    merge commitIndex log matched (first ++ second) =
      match merge commitIndex log matched first with
      | (.error kind, middle) => (.error kind, middle)
      | (.ok reached, middle) => merge commitIndex middle reached second := by
  induction first generalizing log matched with
  | nil => rfl
  | cons entry first ih =>
      rw [List.cons_append, merge, merge]
      split
      · rfl
      split
      · exact ih log entry.index
      split
      · rfl
      split
      · rfl
      · exact ih _ entry.index

/-- What is committed in front of the received entries is no matter. -/
theorem merge_committed {before after : Nat} {log : L} {matched : Nat}
    {received : List LogEntry} (hsame : ∀ index, matched < index →
      (index ≤ before ↔ index ≤ after)) :
    merge before log matched received = merge after log matched received := by
  induction received generalizing log matched with
  | nil => rfl
  | cons entry received ih =>
      unfold merge
      by_cases hindex : entry.index = matched + 1
      · have hrest : ∀ {log : L}, merge before log entry.index received =
            merge after log entry.index received :=
          ih (fun index hlt => hsame index (by omega))
        simp only [hsame entry.index (by omega), hrest]
      · rw [if_pos hindex, if_pos hindex]

end Merging

variable {L σ : Type} [LogStore L] [FaithfulLog L] [StateMachine σ]
  {node : Node L σ} {request : AppendRequest} {first second : List LogEntry}
  {log middle : L}

/-- A request that is answered with success was merged. -/
theorem merges_of_success {appended : Appended} {restart : Bool}
    {after : Node L σ} (hlog : Sound node.log)
    (hhandle : node.handleAppend request = ((.ok appended, restart), after))
    (hsucceeded : appended.succeeded = true) :
    ∃ log, node.Merges request log := by
  have hrefused : ∀ {follower : Node L σ} {index : Nat},
      follower.appended false index request.round ≠ .ok appended := by
    intro follower index heq
    obtain rfl := Response.ok.inj heq
    cases hsucceeded
  rw [handleAppend_eq] at hhandle
  split at hhandle
  · exact absurd (Prod.mk.inj (Prod.mk.inj hhandle).1).1 hrefused
  rename_i hterm
  unfold receive at hhandle
  dsimp only at hhandle
  split at hhandle
  · exact absurd (Prod.mk.inj (Prod.mk.inj hhandle).1).1 hrefused
  rename_i hprevious
  split at hhandle
  · exact absurd (Prod.mk.inj (Prod.mk.inj hhandle).1).1 hrefused
  rename_i hjoin
  rw [Nat.not_lt] at hprevious
  rw [ne_eq, Decidable.not_not] at hjoin
  split at hhandle
  · cases (Prod.mk.inj (Prod.mk.inj hhandle).1).1
  · rename_i matched log hmerge
    obtain ⟨rfl, -⟩ := joined_of_merge (.of_sound (receptive_sound hlog request))
      hprevious hjoin hmerge
    exact ⟨log, hterm, hprevious, hjoin, hmerge⟩

/-- What is merged at once can be merged in two goes. -/
theorem Merges.split
    (hmerges : node.Merges (request.carrying (first ++ second)) log)
    (hlog : Sound node.log) :
    ∃ middle, node.Merges (request.carrying first) middle ∧
      (node.taken (request.carrying first) middle).Merges
        ((request.past first).carrying second) log := by
  obtain ⟨hterm, hprevious, hjoin, hmerge⟩ := hmerges
  have hsplit : Node.merge (node.receptive request).commitIndex
      (node.receptive request).log request.prevLogIndex (first ++ second) = _ :=
    merge_append _ _ _ first second
  rcases hfirst : Node.merge (node.receptive request).commitIndex
    (node.receptive request).log request.prevLogIndex first
    with ⟨kind | reached, middle⟩
  · rw [hfirst] at hsplit
    cases hmerge.symm.trans hsplit
  rw [hfirst] at hsplit
  obtain ⟨rfl, -⟩ : reached = (request.carrying first).reach ∧ _ :=
    joined_of_merge (.of_sound (receptive_sound hlog request)) hprevious hjoin
      hfirst
  have hbefore : node.Merges (request.carrying first) middle :=
    ⟨hterm, hprevious, hjoin, hfirst⟩
  have hself : (node.taken (request.carrying first) middle).receptive
      ((request.past first).carrying second) =
        node.taken (request.carrying first) middle :=
    hbefore.receptive_taken rfl rfl
  have hsound := hbefore.sound hlog
  refine ⟨middle, hbefore, ?_, ?_, ?_, ?_⟩
  · exact Nat.not_lt.mpr (Nat.le_of_eq hbefore.term_taken)
  · rw [hself, taken_log, lastIndex_eq_length hsound]
    exact hbefore.reach_le hlog
  · rw [hself, taken_log, termAt_eq_termOf hsound]
    obtain ⟨-, hjoined, hmatches⟩ := hbefore.joined hlog
    exact AppendRequest.termOf_reach hjoined hmatches
  · -- The first part is committed at most, which the second does not touch.
    rw [hself, taken_log, AppendRequest.reach_past]
    refine (merge_committed ?_).trans (hsplit.symm.trans hmerge)
    intro index hlt
    have hpast : request.prevLogIndex + first.length < index := hlt
    rw [taken_commitIndex hlog,
      (spared_receptive hlog request).1.commitIndex]
    simp only [AppendRequest.reach, AppendRequest.carrying]
    omega

/-- And it makes no difference afterwards. -/
theorem Merges.coincide (hlog : Sound node.log)
    (hbefore : node.Merges (request.carrying first) middle)
    (hafter : (node.taken (request.carrying first) middle).Merges
      ((request.past first).carrying second) log) :
    Coincide ((node.taken (request.carrying first) middle).taken
        ((request.past first).carrying second) log)
      (node.taken (request.carrying (first ++ second)) log) := by
  have hmiddle : Sound (node.taken (request.carrying first) middle).log :=
    (taken_log node _ middle).symm ▸ hbefore.sound hlog
  have hkept : (entries log).take (request.carrying first).reach =
      (entries middle).take (request.carrying first).reach := by
    have hspliced := hafter.spliced hmiddle
    rw [taken_log] at hspliced
    exact spliced_take (hbefore.reach_le hlog) hspliced
  have hself : (node.taken (request.carrying first) middle).receptive
      ((request.past first).carrying second) =
        node.taken (request.carrying first) middle :=
    hbefore.receptive_taken rfl rfl
  have hreach : (request.carrying first).reach ≤
      (request.carrying (first ++ second)).reach := by
    simp [AppendRequest.reach, AppendRequest.carrying]
  unfold taken merged at hself ⊢
  rw [hself, AppendRequest.reach_past]
  refine followCommit_relogged (node.receptive request) ?_
    (fun index hindex => ?_)
  · show min request.commitIndex _ ≤ min request.commitIndex _
    omega
  · exact get?_eq_of_take_eq (hbefore.sound hlog) (hafter.sound hmiddle)
      hkept.symm (Nat.le_trans hindex (Nat.min_le_right _ _))

/-! ### Handling one part after another -/

def handleAppends (node : Node L σ) :
    List AppendRequest → List AppendResponse × Node L σ
  | [] => ([], node)
  | request :: requests =>
      let ((response, _), node) := node.handleAppend request
      let (responses, node) := node.handleAppends requests
      (response :: responses, node)

/-- A node that could merge everything at once takes every part, and ends the
same. -/
theorem Merges.handleAppends {parts : List (List LogEntry)}
    (hmerges : node.Merges (request.carrying parts.flatten) log)
    (hlog : Sound node.log) (hparts : parts ≠ []) :
    ∃ final, node.handleAppends (request.batches parts) =
        ((request.batches parts).map AppendRequest.success, final) ∧
      Coincide final (node.taken (request.carrying parts.flatten) log) := by
  induction parts generalizing node request with
  | nil => exact absurd rfl hparts
  | cons part parts ih =>
      rw [List.flatten_cons] at hmerges
      obtain ⟨middle, hbefore, hafter⟩ := hmerges.split hlog
      rw [List.flatten_cons]
      by_cases hlast : parts = []
      · rw [hlast, List.flatten_nil, List.append_nil] at hmerges ⊢
        refine ⟨_, ?_, .of_frame rfl rfl⟩
        rw [AppendRequest.batches, Node.handleAppends, hmerges.handleAppend]
        rfl
      · have hsound : Sound (node.taken (request.carrying part) middle).log :=
          (taken_log node _ middle).symm ▸ hbefore.sound hlog
        obtain ⟨final, hhandle, hsame⟩ := ih hafter hsound hlast
        refine ⟨final, ?_, hsame.trans (coincide hlog hbefore hafter)⟩
        rw [AppendRequest.batches, Node.handleAppends, hbefore.handleAppend]
        simp only [hhandle, List.map_cons]

/-! ### What a leader sends at a time -/

def limited (node : Node L σ) (limit : Nat) : Node L σ :=
  { node with config := { node.config with maxEntriesPerAppend := limit } }

def informed (node : Node L σ) (peer : NodeId) (index : Nat) : Node L σ :=
  node.modifyLeadership
    (fun leadership => Leadership.progress leadership peer index)

/-- The requests that a leader sends one after another to a peer that takes
them all. -/
def batches (leader : Node L σ) (peer : NodeId) : Nat → List AppendRequest
  | 0 => []
  | count + 1 =>
      match leader.createAppend? peer with
      | none => []
      | some request =>
          request :: (leader.informed peer request.reach).batches peer count

omit [StateMachine σ] in
/-- What a leader sends next is what comes after a request that was taken. -/
theorem createAppend?_past {leader : Node L σ} {peer : NodeId}
    (hlog : Sound leader.log)
    (hcreate : leader.createAppend? peer = some request) :
    request.entries = ((entries leader.log).drop request.prevLogIndex).take
        leader.config.maxEntriesPerAppend ∧
      (leader.informed peer request.reach).createAppend? peer =
        some ((request.past request.entries).carrying
          (((entries leader.log).drop request.reach).take
            leader.config.maxEntriesPerAppend)) := by
  rw [createAppend?_eq hlog] at hcreate
  obtain ⟨_, hleadership, hrequest⟩ := Option.map_eq_some_iff.mp hcreate
  obtain ⟨leadership, hled, rfl⟩ := Option.map_eq_some_iff.mp hleadership
  have hentries : request.entries =
      ((entries leader.log).drop request.prevLogIndex).take
        leader.config.maxEntriesPerAppend := by
    rw [← hrequest]
    rfl
  have hjoin : termOf (entries leader.log) request.prevLogIndex =
      request.prevLogTerm := by
    rw [← hrequest]
    rfl
  have hmatches : Matches (entries leader.log) request.prevLogIndex
      request.entries := by
    intro offset entry hentry
    rw [hentries] at hentry
    have hown := getElem?_of_isPrefix (List.take_prefix _ _) hentry
    rw [List.getElem?_drop] at hown
    exact ⟨entry, hown, rfl⟩
  refine ⟨hentries, ?_⟩
  have hlast := AppendRequest.termOf_reach hjoin hmatches
  have hnext : (Leadership.progress leadership peer
      request.reach).bare.nextIndex.getD peer
        ((entries leader.log).length + 1) = request.reach + 1 := by
    simp [Leadership.progress, Table.getD, Table.get?_insert,
      SessionRaft.Leadership.bare]
  have hinformed : Sound (leader.informed peer request.reach).log := hlog
  rw [createAppend?_eq hinformed]
  simp only [standing, informed, modifyLeadership, hled, Option.map_some,
    Standing.appendRequest, hnext, Option.some.injEq]
  have hindex : max 1 (request.reach + 1) - 1 = request.reach := by omega
  rw [hindex, hlast]
  subst hrequest
  rfl

omit [StateMachine σ] in
/-- One request after another carries one piece of the log after another. -/
theorem batches_eq {leader : Node L σ} {peer : NodeId}
    (hlog : Sound leader.log)
    (hcreate : leader.createAppend? peer = some request) (count : Nat) :
    leader.batches peer count = request.batches
      (pieces leader.config.maxEntriesPerAppend count
        ((entries leader.log).drop request.prevLogIndex)) := by
  induction count generalizing leader request with
  | zero => rfl
  | succ count ih =>
      obtain ⟨hentries, hnext⟩ := createAppend?_past hlog hcreate
      have hinformed : Sound (leader.informed peer request.reach).log := hlog
      have hrest := ih hinformed hnext
      rw [AppendRequest.batches_carrying] at hrest
      have hdrop : (entries leader.log).drop request.reach =
          ((entries leader.log).drop request.prevLogIndex).drop
            leader.config.maxEntriesPerAppend := by
        rw [AppendRequest.reach, hentries, ← List.drop_drop, drop_length_take]
      rw [batches, hcreate, pieces, AppendRequest.batches, ← hentries, ← hdrop]
      exact congrArg (List.cons request) hrest

omit [StateMachine σ] in
/-- How many entries a leader sends at a time matters for nothing else of a
request. -/
theorem createAppend?_limited {leader : Node L σ} {peer : NodeId}
    (hlog : Sound leader.log) {large : Nat}
    (hcreate : (leader.limited large).createAppend? peer = some request)
    (limit : Nat) :
    (leader.limited limit).createAppend? peer = some (request.carrying
      (((entries leader.log).drop request.prevLogIndex).take limit)) := by
  have hlarge : Sound (leader.limited large).log := hlog
  have hlimited : Sound (leader.limited limit).log := hlog
  rw [createAppend?_eq hlarge] at hcreate
  obtain ⟨leadership, hleadership, rfl⟩ := Option.map_eq_some_iff.mp hcreate
  have hled : (leader.limited limit).standing.leadership = some leadership :=
    hleadership
  rw [createAppend?_eq hlimited, hled]
  rfl

/-- A node that could merge what a leader sends at once takes what it sends with
fewer entries at a time, and ends the same. -/
theorem Merges.handleAppends_batches {leader : Node L σ} {peer : NodeId}
    {limit count : Nat} (hmerges : node.Merges request log)
    (hlog : Sound node.log) (hleader : Sound leader.log) (hcount : 0 < count)
    (hcreate :
      (leader.limited (count * limit)).createAppend? peer = some request) :
    ∃ final, node.handleAppends ((leader.limited limit).batches peer count) =
      (((leader.limited limit).batches peer count).map AppendRequest.success,
        final) ∧ Coincide final (node.taken request log) := by
  have hlarge : Sound (leader.limited (count * limit)).log := hleader
  have hlimited : Sound (leader.limited limit).log := hleader
  obtain ⟨hentries, -⟩ := createAppend?_past hlarge hcreate
  have hbatches := batches_eq hlimited
    (createAppend?_limited hleader hcreate limit) count
  rw [AppendRequest.batches_carrying] at hbatches
  have hwhole : request.carrying (pieces limit count
      ((entries leader.log).drop request.prevLogIndex)).flatten = request := by
    rw [flatten_pieces]
    exact congrArg request.carrying hentries.symm
  have hpieces : pieces limit count
      ((entries leader.log).drop request.prevLogIndex) ≠ [] := by
    obtain ⟨more, rfl⟩ := Nat.exists_eq_add_of_le' hcount
    exact List.cons_ne_nil _ _
  have hparts : node.Merges (request.carrying (pieces limit count
      ((entries leader.log).drop request.prevLogIndex)).flatten) log := by
    rwa [hwhole]
  have hhandles := hparts.handleAppends hlog hpieces
  rw [hwhole] at hhandles
  rw [hbatches]
  exact hhandles

/-- A node that answers a request with success does so for both parts if it is
cut in two, and ends with the same log, the same commit, and the same state
machine and sessions.  However many entries a leader sends at a time, its peer
ends where the request for all of them takes it. -/
theorem batches_coincide {appended : Appended} {restart : Bool}
    {whole : Node L σ} (hlog : Sound node.log)
    (hhandle : node.handleAppend request = ((.ok appended, restart), whole))
    (hsucceeded : appended.succeeded = true) :
    (∀ first second, request.entries = first ++ second → ∃ middle final,
      node.handleAppend (request.carrying first) =
        (((request.carrying first).success, true), middle) ∧
      middle.handleAppend ((request.past first).carrying second) =
        ((((request.past first).carrying second).success, true), final) ∧
      Coincide final whole) ∧
    ∀ (leader : Node L σ) (peer : NodeId) (limit count : Nat),
      Sound leader.log → 0 < count →
      (leader.limited (count * limit)).createAppend? peer = some request →
      ∃ final, node.handleAppends ((leader.limited limit).batches peer count) =
        (((leader.limited limit).batches peer count).map AppendRequest.success,
          final) ∧ Coincide final whole := by
  obtain ⟨log, hmerges⟩ := merges_of_success hlog hhandle hsucceeded
  obtain rfl : node.taken request log = whole :=
    (Prod.mk.inj (hmerges.handleAppend.symm.trans hhandle)).2
  constructor
  · intro first second hsplit
    have hwhole : request.carrying (first ++ second) = request := hsplit ▸ rfl
    rw [← hwhole] at hmerges
    obtain ⟨middle, hbefore, hafter⟩ := hmerges.split hlog
    have hcoincide := Merges.coincide hlog hbefore hafter
    rw [hwhole] at hcoincide
    exact ⟨_, _, hbefore.handleAppend, hafter.handleAppend, hcoincide⟩
  · intro leader peer limit count hsound hcount hcreate
    exact hmerges.handleAppends_batches hlog hsound hcount hcreate

end Node

namespace Witness

/-- The later leader, which knows that the follower holds the first entry. -/
def overruler : Node MemoryLog Tally :=
  { member (L := MemoryLog) ⟨[⟨1, 1, .noOp⟩, ⟨1, 2, .noOp⟩,
      ⟨3, 3, .register 7 100 5⟩, ⟨3, 4, .noOp⟩], 3, some 3⟩ Tally.start 3 with
    role := .leader
    term := 3
    commitIndex := 3
    leadership := some
      { nextIndex := Table.ofKeys [1, 2] 2
        matchIndex := Table.ofKeys [1, 2] 1
        noopIndex := 3
        round := 1
        ackedRound := .empty
        sequencer := .start
        publisher := .start } }

/-- The follower commits one entry and then another, where it would commit both
at once; and so it does if it is sent every entry by itself. -/
theorem batches_coincide_overruling : ∃ whole middle final last,
    (outvoted.node 1).handleAppend overruling =
        ((overruling.success, true), whole) ∧
      (outvoted.node 1).handleAppend (overruling.carrying [⟨1, 2, .noOp⟩]) =
        (((overruling.carrying [⟨1, 2, .noOp⟩]).success, true), middle) ∧
      middle.handleAppend
          ((overruling.past [⟨1, 2, .noOp⟩]).carrying
            [⟨3, 3, .register 7 100 5⟩, ⟨3, 4, .noOp⟩]) =
        ((.ok ⟨3, true, 4, 1⟩, true), final) ∧
      (outvoted.node 1).handleAppends ((overruler.limited 1).batches 1 3) =
        ([.ok ⟨3, true, 2, 1⟩, .ok ⟨3, true, 3, 1⟩, .ok ⟨3, true, 4, 1⟩],
          last) ∧
      middle.commitIndex = 2 ∧ final.commitIndex = 3 ∧
      final.Coincide whole ∧ last.Coincide whole := by
  have hlog : Sound (outvoted.node 1).log := by
    show Numbered _
    decide
  obtain ⟨whole, hwhole⟩ : ∃ whole, (outvoted.node 1).handleAppend overruling =
      ((.ok ⟨3, true, 4, 1⟩, true), whole) := ⟨_, rfl⟩
  obtain ⟨htwo, hmany⟩ := Node.batches_coincide hlog hwhole rfl
  obtain ⟨middle, final, hfirst, hsecond, hfinal⟩ :=
    htwo [⟨1, 2, .noOp⟩] _ rfl
  obtain ⟨last, hlast, hsame⟩ := hmany overruler 1 1 3
    (by show Numbered _; decide) (by decide) rfl
  have hcommit : ((outvoted.node 1).handleAppend
      (overruling.carrying [⟨1, 2, .noOp⟩])).2.commitIndex = 2 := rfl
  have hthird : ((outvoted.node 1).handleAppend overruling).2.commitIndex = 3 :=
    rfl
  rw [hfirst] at hcommit
  rw [hwhole] at hthird
  exact ⟨whole, middle, final, last, hwhole, hfirst, hsecond, hlast, hcommit,
    hfinal.commitIndex.trans hthird, hfinal, hsame⟩

end Witness

end SessionRaft
