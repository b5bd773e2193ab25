/-
Answers that tell a leader of success.  In which order they come, and how
often, makes no difference in the end, although each of them may commit and
apply another stretch of the log: what the leader notes of its peers depends
only on which answers came, and how far it commits only on its notes.
-/
import Mathlib.Data.List.Perm.Basic
import SessionRaft.Proofs.CommitRule
import SessionRaft.Proofs.Exchanges

namespace SessionRaft

/-! ### Steps whose order and number do not matter -/

section Folding

variable {α β : Type} {step : β → α → β}

/-- A step that was taken already changes nothing, if steps can be taken in any
order and twice like once. -/
theorem foldl_taken
    (hcomm : ∀ state first second,
      step (step state first) second = step (step state second) first)
    (htwice : ∀ state taken, step (step state taken) taken = step state taken)
    {steps : List α} {taken : α} (htaken : taken ∈ steps) (state : β) :
    step (steps.foldl step state) taken = steps.foldl step state := by
  induction steps generalizing state with
  | nil => simp at htaken
  | cons first steps ih =>
      rw [List.foldl_cons]
      rcases List.mem_cons.mp htaken with rfl | hrest
      · -- The step is moved to the front, where it stands twice.
        clear ih htaken
        induction steps generalizing state with
        | nil => exact htwice state taken
        | cons second steps ih =>
            rw [List.foldl_cons, hcomm]
            exact ih _
      · exact ih hrest _

/-- Only which steps are taken counts, if they can be taken in any order and
twice like once. -/
theorem foldl_eq_of_mem_iff
    (hcomm : ∀ state first second,
      step (step state first) second = step (step state second) first)
    (htwice : ∀ state taken, step (step state taken) taken = step state taken)
    {left right : List α} (hmem : ∀ taken, taken ∈ left ↔ taken ∈ right)
    (state : β) : left.foldl step state = right.foldl step state := by
  have habsorb : ∀ {steps more : List α}, (∀ taken ∈ more, taken ∈ steps) →
      (steps ++ more).foldl step state = steps.foldl step state := by
    intro steps more hsubset
    rw [List.foldl_append]
    induction more with
    | nil => rfl
    | cons first more ih =>
        rw [List.forall_mem_cons] at hsubset
        rw [List.foldl_cons, foldl_taken hcomm htwice hsubset.1]
        exact ih hsubset.2
  have : RightCommutative step := ⟨hcomm⟩
  rw [← habsorb (fun taken hright => (hmem taken).mpr hright),
    ← @habsorb right left (fun taken hleft => (hmem taken).mp hleft)]
  exact List.perm_append_comm.foldl_eq state

end Folding

/-! ### What a leader notes of a success -/

namespace Table

/-- Raise the number under a key to at least a value. -/
def raise (table : Table Nat) (key value : Nat) : Table Nat :=
  table.insert key (max (table.getD key 0) value)

theorem get?_raise (table : Table Nat) (key value other : Nat) :
    (table.raise key value).get? other =
      if other = key then some (max (table.getD key 0) value)
      else table.get? other :=
  get?_insert table key other _

theorem getD_raise (table : Table Nat) (key value other : Nat) :
    (table.raise key value).getD other 0 =
      if other = key then max (table.getD key 0) value
      else table.getD other 0 := by
  rw [getD, get?_raise]
  split <;> rfl

theorem raise_comm (table : Table Nat) (first second left right : Nat) :
    (table.raise first left).raise second right =
      (table.raise second right).raise first left := by
  refine ext (fun key => ?_)
  simp only [get?_raise, getD_raise]
  grind

theorem raise_raise (table : Table Nat) (key value : Nat) :
    (table.raise key value).raise key value = table.raise key value := by
  refine ext (fun other => ?_)
  simp only [get?_raise, getD_raise]
  grind

end Table

namespace Leadership

variable {leadership : Leadership} {last : Nat}

/-- Note that a peer has taken the log over as far as it tells. -/
def credit (last : Nat) (leadership : Leadership)
    (answer : NodeId × Appended) : Leadership :=
  let matched := leadership.matchIndex.raise answer.1
    (min answer.2.lastLogIndex last)
  { leadership with
    ackedRound := leadership.ackedRound.raise answer.1 answer.2.round
    matchIndex := matched
    nextIndex := leadership.nextIndex.insert answer.1
      (matched.getD answer.1 0 + 1) }

theorem credit_comm (leadership : Leadership)
    (first second : NodeId × Appended) :
    (leadership.credit last first).credit last second =
      (leadership.credit last second).credit last first := by
  simp only [credit, Leadership.mk.injEq, true_and, and_true]
  refine ⟨Table.ext (fun key => ?_), Table.raise_comm _ _ _ _ _,
    Table.raise_comm _ _ _ _ _⟩
  simp only [Table.get?_insert, Table.getD_raise]
  grind

theorem credit_credit (leadership : Leadership)
    (answer : NodeId × Appended) :
    (leadership.credit last answer).credit last answer =
      leadership.credit last answer := by
  simp only [credit, Leadership.mk.injEq, Table.raise_raise, and_true]
  refine Table.ext (fun key => ?_)
  simp only [Table.get?_insert]
  split <;> rfl

/-- Whether a leader takes answers from a peer. -/
def Knows (leadership : Leadership) (peer : NodeId) : Prop :=
  (leadership.nextIndex.get? peer).isSome = true

instance (leadership : Leadership) : DecidablePred leadership.Knows :=
  fun peer => inferInstanceAs (Decidable ((leadership.nextIndex.get? peer).isSome
    = true))

/-- Give credit for an answer to a peer that is known. -/
def accept (last : Nat) (leadership : Leadership)
    (answer : NodeId × Appended) : Leadership :=
  if leadership.Knows answer.1 then leadership.credit last answer
  else leadership

theorem knows_credit {answer : NodeId × Appended}
    (hknown : leadership.Knows answer.1) (peer : NodeId) :
    (leadership.credit last answer).Knows peer ↔ leadership.Knows peer := by
  simp only [Knows, credit, Table.get?_insert]
  split
  · rename_i heq
    rw [heq]
    exact ⟨fun _ => hknown, fun _ => rfl⟩
  · exact Iff.rfl

theorem accept_comm (leadership : Leadership)
    (first second : NodeId × Appended) :
    (leadership.accept last first).accept last second =
      (leadership.accept last second).accept last first := by
  by_cases hfirst : leadership.Knows first.1 <;>
    by_cases hsecond : leadership.Knows second.1 <;>
    simp [accept, hfirst, hsecond, knows_credit, credit_comm _ first second]

theorem accept_accept (leadership : Leadership)
    (answer : NodeId × Appended) :
    (leadership.accept last answer).accept last answer =
      leadership.accept last answer := by
  by_cases hknown : leadership.Knows answer.1 <;>
    simp [accept, hknown, knows_credit, credit_credit]

/-- A leader that gives credit believes no less of its peers. -/
theorem credit_grows (leadership : Leadership) (answer : NodeId × Appended)
    (peer matched : Nat)
    (hget : leadership.matchIndex.get? peer = some matched) :
    ∃ more, (leadership.credit last answer).matchIndex.get? peer = some more ∧
      matched ≤ more := by
  simp only [credit, Table.get?_raise]
  split
  · rename_i heq
    subst heq
    refine ⟨_, rfl, ?_⟩
    rw [Table.getD, hget, Option.getD_some]
    exact Nat.le_max_left _ _
  · exact ⟨matched, hget, Nat.le_refl _⟩

end Leadership

namespace Node

variable {L σ : Type} [LogStore L] [StateMachine σ]
  {start node after : Node L σ} {leadership noted : Leadership}
  {answer : NodeId × Appended}

/-! ### What a success does to the leader -/

theorem progress_acknowledge (leadership : Leadership) (last : Nat)
    (answer : NodeId × Appended) :
    Leadership.progress
      (Leadership.acknowledge leadership answer.1 answer.2.round) answer.1
      (max (leadership.matchIndex.getD answer.1 0)
        (min answer.2.lastLogIndex last)) = leadership.credit last answer := by
  simp only [Leadership.progress, Leadership.acknowledge,
    SessionRaft.Leadership.credit, Table.getD_raise, ↓reduceIte]
  rfl

/-- A leader that hears of a success gives credit for it and commits what it
may then. -/
theorem handle_success (hrole : node.role = .leader)
    (hleadership : node.leadership = some leadership)
    (hknown : leadership.Knows answer.1) (hterm : answer.2.term = node.term)
    (hsucceeded : answer.2.succeeded = true)
    (hnoted : noted = leadership.credit (LogStore.lastIndex node.log) answer) :
    ∃ advanced after,
      node.handleAppendResponse answer.1 (.ok answer.2) =
        .ok (advanced, after) ∧
      after.frame =
        ((node.noting noted).followCommit (node.commitGoal noted)).frame ∧
      after.account =
        ((node.noting noted).followCommit (node.commitGoal noted)).account := by
  obtain ⟨next, hnext⟩ := Option.isSome_iff_exists.mp hknown
  have hadvance := advanceCommit_eq
    (show (node.noting noted).leadership = some noted from rfl)
  have hcredit : node.noting (Leadership.progress
      (Leadership.acknowledge leadership answer.1 answer.2.round) answer.1
      (max (leadership.matchIndex.getD answer.1 0)
        (min answer.2.lastLogIndex (LogStore.lastIndex node.log)))) =
      node.noting noted := by
    rw [progress_acknowledge, hnoted]
  have hprogress : node.acceptProgress
      (Leadership.acknowledge leadership answer.1 answer.2.round) answer.1
      answer.2.lastLogIndex = _ :=
    acceptProgress_eq _ rfl ((congrArg advanceCommit hcredit).trans hadvance)
  unfold handleAppendResponse
  simp only [hterm, hrole, hleadership, hnext, hsucceeded, hprogress,
    Nat.lt_irrefl, ↓reduceIte, ne_eq, not_true_eq_false, or_self]
  refine ⟨_, _, rfl, ?_, ?_⟩
  · rw [serveQueries_frame]
    split
    · exact sendAppends_frame _ _
    · rfl
  · rw [serveQueries_account]
    split
    · exact sendAppends_account _ _
    · rfl

/-! ### What a chain of successes does to the leader -/

/-- Everything a leader has committed since some moment it may commit by its
present notes. -/
def Warranted (start : Node L σ) (noted : Leadership) : Set Nat :=
  insert start.commitIndex { index |
    start.commitIndex < index ∧ start.Ripe noted index }

omit [StateMachine σ] in
theorem warranted_credit {last index : Nat}
    (hindex : index ∈ start.Warranted noted) :
    index ∈ start.Warranted (noted.credit last answer) := by
  rcases hindex with rfl | ⟨hlt, hripe⟩
  · exact Set.mem_insert _ _
  · exact Set.mem_insert_of_mem _ ⟨hlt, hripe.last, hripe.term,
      Nat.le_trans hripe.quorum
        (replicas_le (Nat.le_refl _) (noted.credit_grows answer))⟩

omit [StateMachine σ] in
/-- Only what is noted of the peers warrants anything. -/
theorem warranted_bare (start : Node L σ) (leadership : Leadership) :
    start.Warranted leadership.bare = start.Warranted leadership := by
  have hripe : ∀ index,
      start.Ripe leadership.bare index ↔ start.Ripe leadership index :=
    fun index => ⟨fun ⟨hlast, hterm, hquorum⟩ => ⟨hlast, hterm, hquorum⟩,
      fun ⟨hlast, hterm, hquorum⟩ => ⟨hlast, hterm, hquorum⟩⟩
  simp only [Warranted, hripe]

omit [StateMachine σ] in
/-- How far a leader goes does not depend on how far it has come, as long as
its notes warrant it. -/
theorem commitGoal_eq (hlog : node.log = start.log)
    (hterm : node.term = start.term) (hmembers : node.members = start.members)
    (hcommit : node.commitIndex ∈ start.Warranted noted) :
    node.commitGoal noted = start.commitGoal noted := by
  have hgoal := commitGoal_isGreatest node noted
  obtain ⟨hmem, hupper⟩ := commitGoal_isGreatest start noted
  have hripe : ∀ index, node.Ripe noted index ↔ start.Ripe noted index := by
    intro index
    refine ⟨fun ⟨hlast, hown, hquorum⟩ => ⟨hlog ▸ hlast, ?_, ?_⟩,
      fun ⟨hlast, hown, hquorum⟩ => ⟨hlog ▸ hlast, ?_, ?_⟩⟩
    · rwa [← hlog, ← hterm]
    · rwa [quorum, ← hmembers]
    · rwa [hlog, hterm]
    · rwa [quorum, hmembers]
  have hstart : start.commitIndex ≤ node.commitIndex := by
    rcases hcommit with heq | ⟨hlt, -⟩
    · exact Nat.le_of_eq heq.symm
    · exact Nat.le_of_lt hlt
  have hcome : node.commitIndex ≤ start.commitGoal noted := hupper hcommit
  refine hgoal.unique ⟨?_, ?_⟩
  · rcases Nat.eq_or_lt_of_le hcome with heq | hlt
    · exact Or.inl heq.symm
    · rcases hmem with heq | ⟨-, hown⟩
      · omega
      · exact Or.inr ⟨hlt, (hripe _).mpr hown⟩
  · rintro index (rfl | ⟨hlt, hown⟩)
    · exact hcome
    · exact hupper (Or.inr ⟨by omega, (hripe index).mp hown⟩)

/-- What has become of a leader that has noted successes since some moment: it
has committed no more than they warrant, as if it had done so at once. -/
structure Heard (start : Node L σ) (noted : Leadership) (after : Node L σ) :
    Prop where
  frame : after.frame = { start.frame with
    leadership := some noted
    commitIndex := after.commitIndex
    lastApplied := after.lastApplied }
  warranted : after.commitIndex ∈ start.Warranted noted
  account : after.account = (start.followCommit after.commitIndex).account

theorem Heard.term (hheard : Heard start noted node) :
    node.term = start.term := congrArg Frame.term hheard.frame

theorem Heard.led (hheard : Heard start noted node) :
    node.leadership.map Leadership.bare = some noted :=
  congrArg Frame.leadership hheard.frame

theorem Heard.refl (hleadership : node.leadership = some leadership) :
    Heard node leadership.bare node := by
  refine ⟨?_, Set.mem_insert _ _, ?_⟩
  · have hbare : node.frame.leadership = some leadership.bare := by
      simp only [Node.frame, hleadership, Option.map_some]
    rw [← hbare]
    rfl
  · rw [followCommit_of_le (Nat.le_refl _)]

/-- Committing all that other notes warrant leaves the leader as if it had gone
all the way at once. -/
theorem Heard.further (hheard : Heard start noted node) {more : Leadership}
    (hwarranted : node.commitIndex ∈ start.Warranted more)
    (hleadership : node.leadership = some leadership)
    (hsequencer : more.sequencer = leadership.sequencer)
    (hframe : after.frame =
      ((node.noting more).followCommit (start.commitGoal more)).frame)
    (haccount : after.account =
      ((node.noting more).followCommit (start.commitGoal more)).account) :
    Heard start more.bare after ∧
      after.commitIndex = start.commitGoal more := by
  obtain ⟨hmem, hupper⟩ := commitGoal_isGreatest start more
  have hle : node.commitIndex ≤ start.commitGoal more := hupper hwarranted
  have hmax : max (node.noting more).commitIndex (start.commitGoal more) =
      start.commitGoal more := Nat.max_eq_right hle
  have hcommit : after.commitIndex = start.commitGoal more :=
    (congrArg Frame.commitIndex hframe).trans
      ((followCommit_commitIndex (node.noting more) _).trans hmax)
  have hlast : after.lastApplied =
      ((node.noting more).followCommit (start.commitGoal more)).lastApplied :=
    congrArg Account.lastApplied haccount
  have hnoting : (node.noting more).account =
      (start.followCommit node.commitIndex).account := by
    rw [← hheard.account]
    simp only [Node.account, noting, replies, hleadership, Option.map_some,
      hsequencer]
  have hsame : (start.followCommit node.commitIndex).commitIndex =
      node.commitIndex := by
    rw [followCommit_commitIndex, Nat.max_eq_right]
    rcases hheard.warranted with heq | ⟨hlt, -⟩
    · exact Nat.le_of_eq heq.symm
    · exact Nat.le_of_lt hlt
  refine ⟨⟨?_, ?_, ?_⟩, hcommit⟩
  · have hstart : (node.noting more).frame = { start.frame with
        leadership := some more.bare
        commitIndex := node.commitIndex
        lastApplied := node.lastApplied } :=
      congrArg (fun frame : Frame L =>
        { frame with leadership := some more.bare }) hheard.frame
    rw [hframe, followCommit_frame, hstart, hcommit, hlast, hmax]
  · rw [warranted_bare, hcommit]
    exact hmem
  · rw [haccount, hcommit, ← followCommit_further start hle]
    refine followCommit_account hnoting hsame.symm (fun index _ => ?_)
    rw [followCommit_log]
    exact congrArg (fun frame : Frame L => LogStore.get? frame.log index)
      hheard.frame

/-- One more success takes the leader as far as all of them together. -/
theorem Heard.success (hheard : Heard start noted node)
    (hrole : start.role = .leader) (hknown : noted.Knows answer.1)
    (hterm : answer.2.term = start.term)
    (hsucceeded : answer.2.succeeded = true) {more : Leadership}
    (hmore : more = noted.credit (LogStore.lastIndex start.log) answer) :
    ∃ advanced after,
      node.handleAppendResponse answer.1 (.ok answer.2) =
        .ok (advanced, after) ∧
      Heard start more after ∧ after.commitIndex = start.commitGoal more := by
  have hlog : node.log = start.log :=
    congrArg Frame.log hheard.frame
  have hown : node.term = start.term :=
    congrArg Frame.term hheard.frame
  have hmembers : node.members = start.members :=
    congrArg Frame.members hheard.frame
  have hled : node.role = .leader :=
    (congrArg Frame.role hheard.frame).trans hrole
  have hsome : node.leadership.map Leadership.bare = some noted :=
    congrArg Frame.leadership hheard.frame
  obtain ⟨leadership, hleadership, rfl⟩ := Option.map_eq_some_iff.mp hsome
  obtain ⟨advanced, after, hhandle, hframe, haccount⟩ := handle_success hled
    hleadership hknown (hterm.trans hown.symm) hsucceeded rfl
  have hcredited : (leadership.credit (LogStore.lastIndex node.log)
      answer).bare = more := by
    rw [hmore, hlog]
    rfl
  have hwarranted : node.commitIndex ∈ start.Warranted (leadership.credit
      (LogStore.lastIndex node.log) answer) :=
    warranted_credit (warranted_bare start leadership ▸ hheard.warranted)
  rw [commitGoal_eq hlog hown hmembers hwarranted] at hframe haccount
  obtain ⟨hafter, hcommit⟩ := hheard.further hwarranted hleadership rfl hframe
    haccount
  rw [hcredited] at hafter
  refine ⟨advanced, after, hhandle, hafter, hcommit.trans ?_⟩
  rw [← hcredited]
  rfl

def hear (node : Node L σ) :
    List (NodeId × Appended) → Except Overflow (Node L σ)
  | [] => .ok node
  | answer :: answers =>
      match node.handleAppendResponse answer.1 (.ok answer.2) with
      | .error overflow => .error overflow
      | .ok (_, node) => node.hear answers

/-- Nobody but a leader that knows the peer does anything about its success. -/
theorem handle_unheard (hterm : answer.2.term = node.term)
    (hunheard : node.role = .leader → ∀ leadership,
      node.leadership = some leadership → ¬leadership.Knows answer.1) :
    node.handleAppendResponse answer.1 (.ok answer.2) = .ok (false, node) := by
  unfold handleAppendResponse
  simp only [hterm, Nat.lt_irrefl, ↓reduceIte, or_false]
  by_cases hrole : node.role = .leader
  · simp only [hrole, ne_eq, not_true_eq_false, ↓reduceIte]
    cases hleadership : node.leadership with
    | none => rfl
    | some leadership =>
        have hnone := hunheard hrole leadership hleadership
        rw [SessionRaft.Leadership.Knows, Bool.not_eq_true,
          Option.isSome_eq_false_iff, Option.isNone_iff_eq_none] at hnone
        simp only [hnone]
        rfl
  · simp only [ne_eq, hrole, not_false_eq_true, ↓reduceIte]
    rfl

theorem hear_unheard {answers : List (NodeId × Appended)}
    (hterms : ∀ answer ∈ answers, answer.2.term = node.term)
    (hunheard : node.role = .leader → ∀ leadership,
      node.leadership = some leadership →
        ∀ answer ∈ answers, ¬leadership.Knows answer.1) :
    node.hear answers = .ok node := by
  induction answers with
  | nil => rfl
  | cons answer answers ih =>
      rw [List.forall_mem_cons] at hterms
      rw [hear, handle_unheard hterms.1 (fun hrole leadership hsome =>
        hunheard hrole leadership hsome answer List.mem_cons_self)]
      exact ih hterms.2 (fun hrole leadership hsome other hother =>
        hunheard hrole leadership hsome other (List.mem_cons_of_mem _ hother))

/-- Any number of successes takes the leader as far as its notes warrant in the
end. -/
theorem Heard.hear {answers : List (NodeId × Appended)}
    (hheard : Heard start noted node) (hrole : start.role = .leader)
    (hanswers : ∀ answer ∈ answers,
      answer.2.term = start.term ∧ answer.2.succeeded = true) {more : Leadership}
    (hmore : more = answers.foldl
      (Leadership.accept (LogStore.lastIndex start.log)) noted) :
    ∃ after, node.hear answers = .ok after ∧ Heard start more after ∧
      (node.commitIndex = start.commitGoal noted ∨
          (∃ answer ∈ answers, noted.Knows answer.1) →
        after.commitIndex = start.commitGoal more) := by
  induction answers generalizing node noted with
  | nil =>
      subst hmore
      exact ⟨node, rfl, hheard, by simp⟩
  | cons answer answers ih =>
      rw [List.forall_mem_cons] at hanswers
      obtain ⟨⟨hterm, hsucceeded⟩, hrest⟩ := hanswers
      rw [List.foldl_cons] at hmore
      by_cases hknown : noted.Knows answer.1
      · rw [SessionRaft.Leadership.accept, if_pos hknown] at hmore
        obtain ⟨advanced, middle, hhandle, hmiddle, hcommit⟩ :=
          hheard.success hrole hknown hterm hsucceeded rfl
        obtain ⟨after, hhear, hafter, hgoal⟩ := ih hmiddle hrest hmore
        exact ⟨after, by rw [Node.hear, hhandle]; exact hhear, hafter,
          fun _ => hgoal (Or.inl hcommit)⟩
      · rw [SessionRaft.Leadership.accept, if_neg hknown] at hmore
        have hhandle : node.handleAppendResponse answer.1 (.ok answer.2) =
            .ok (false, node) := by
          refine handle_unheard (hterm.trans hheard.term.symm)
            (fun _ leadership hleadership hknows => hknown ?_)
          have hsome := hheard.led
          rw [hleadership, Option.map_some, Option.some.injEq] at hsome
          exact hsome ▸ hknows
        obtain ⟨after, hhear, hafter, hgoal⟩ := ih hheard hrest hmore
        refine ⟨after, by rw [Node.hear, hhandle]; exact hhear, hafter,
          fun hreaches => hgoal (hreaches.imp_right ?_)⟩
        rintro ⟨other, hother, hknows⟩
        rcases List.mem_cons.mp hother with rfl | hother
        · exact absurd hknows hknown
        · exact ⟨other, hother, hknows⟩

/-- In whatever order a leader is told of successes, and however often of each,
it ends with the same notes, has committed and applied the same entries, and
has told everyone but those who ask queries the same. -/
theorem successes_commute {left right : List (NodeId × Appended)}
    (hanswers : ∀ answer ∈ left,
      answer.2.term = node.term ∧ answer.2.succeeded = true)
    (hsame : ∀ answer, answer ∈ left ↔ answer ∈ right) :
    ∃ first second, node.hear left = .ok first ∧ node.hear right = .ok second ∧
      Coincide first second := by
  have hright : ∀ answer ∈ right,
      answer.2.term = node.term ∧ answer.2.succeeded = true :=
    fun answer hanswer => hanswers answer ((hsame answer).mpr hanswer)
  by_cases hheeds : node.role = .leader ∧ ∃ leadership,
      node.leadership = some leadership ∧
        ∃ answer ∈ left, leadership.Knows answer.1
  · obtain ⟨hrole, leadership, hleadership, answer, hanswer, hknows⟩ := hheeds
    have hnotes : left.foldl
        (Leadership.accept (LogStore.lastIndex node.log)) leadership.bare =
        right.foldl (Leadership.accept (LogStore.lastIndex node.log))
          leadership.bare :=
      foldl_eq_of_mem_iff Leadership.accept_comm Leadership.accept_accept
        hsame _
    obtain ⟨first, hfirst, hheard, hgoal⟩ :=
      (Heard.refl hleadership).hear hrole hanswers rfl
    obtain ⟨second, hsecond, hother, hother_goal⟩ :=
      (Heard.refl hleadership).hear hrole hright hnotes
    have hcommit : first.commitIndex = second.commitIndex :=
      (hgoal (Or.inr ⟨answer, hanswer, hknows⟩)).trans
        (hother_goal (Or.inr ⟨answer, (hsame answer).mp hanswer, hknows⟩)).symm
    have haccount : first.account = second.account := by
      rw [hheard.account, hother.account, hcommit]
    have hlast := congrArg Account.lastApplied haccount
    refine ⟨first, second, hfirst, hsecond, .of_frame ?_ haccount⟩
    rw [hheard.frame, hother.frame, hcommit,
      show first.lastApplied = second.lastApplied from hlast]
  · have hunheard : ∀ {answers : List (NodeId × Appended)},
        (∀ answer ∈ answers, answer ∈ left) → node.role = .leader →
        ∀ leadership, node.leadership = some leadership →
          ∀ answer ∈ answers, ¬leadership.Knows answer.1 :=
      fun hsub hrole leadership hleadership answer hanswer hknows => hheeds
        ⟨hrole, leadership, hleadership, answer, hsub answer hanswer, hknows⟩
    exact ⟨node, node,
      hear_unheard (fun answer hanswer => (hanswers answer hanswer).1)
        (hunheard (fun _ hanswer => hanswer)),
      hear_unheard (fun answer hanswer => (hright answer hanswer).1)
        (hunheard (fun answer hanswer => (hsame answer).mpr hanswer)),
      .of_frame rfl rfl⟩

end Node

namespace Witness

/-- A leader with somebody who waits for a session to be opened. -/
def soliciting : Node MemoryLog Tally :=
  { tallying with
    log := ⟨[⟨1, 1, .noOp⟩, ⟨1, 2, .noOp⟩, ⟨3, 3, .noOp⟩,
      ⟨3, 4, .register 7 100 5⟩], 3, some 1⟩
    waiters := Table.empty.insert 4 [.register 9] }

/-- One peer holds three entries, the other claims to hold more than all. -/
def successes : List (NodeId × Appended) :=
  [(2, ⟨3, true, 3, 1⟩), (3, ⟨3, true, 9, 2⟩)]

/-- The leader commits in one or in two goes, and opens the session. -/
theorem successes_commute_soliciting : ∃ first second,
    soliciting.hear successes = .ok first ∧
      soliciting.hear (successes.reverse ++ successes) = .ok second ∧
      first.Coincide second ∧ first.commitIndex = 4 ∧
      second.replies = [(9, .register (.ok ⟨4, 1, [1, 2, 3], 100⟩))] := by
  obtain ⟨first, second, hfirst, hsecond, hcoincide⟩ : ∃ first second,
      soliciting.hear successes = .ok first ∧
        soliciting.hear (successes.reverse ++ successes) = .ok second ∧
        first.Coincide second :=
    Node.successes_commute (by decide) (by simp [successes])
  have hcommit : (soliciting.hear successes).toOption.map Node.commitIndex =
      some 4 := rfl
  have hreplies : (soliciting.hear
      (successes.reverse ++ successes)).toOption.map Node.replies =
      some [(9, .register (.ok ⟨4, 1, [1, 2, 3], 100⟩))] := rfl
  rw [hfirst] at hcommit
  rw [hsecond] at hreplies
  exact ⟨first, second, hfirst, hsecond, hcoincide, Option.some.inj hcommit,
    Option.some.inj hreplies⟩

end Witness

end SessionRaft
