/-
One exchange between a leader and a peer whose log goes on to match the
leader's: what the peer makes of the request, and what the leader makes of the
answer and sends next.
-/
import SessionRaft.Proofs.Beliefs
import SessionRaft.Proofs.RefusedAppends
import SessionRaft.Proofs.StablePrefix

namespace SessionRaft.Node

open FaithfulLog

/-! ### What committing leaves alone -/

section Committing

variable {L σ : Type} [LogStore L] [FaithfulLog L] [StateMachine σ]

/-- Only what was applied and who was answered differs. -/
structure Outlasts (before after : Node L σ) : Prop where
  log : after.log = before.log
  config : after.config = before.config
  standing : ∃ applied executor queries served, after.standing =
    { before.standing with
      lastApplied := applied
      executor := executor
      queries := queries
      served := served }

variable {node before middle after : Node L σ}

omit [StateMachine σ] in
theorem Outlasts.refl (node : Node L σ) : Outlasts node node :=
  ⟨rfl, rfl, _, _, _, _, rfl⟩

omit [StateMachine σ] in
theorem Outlasts.trans (hfirst : Outlasts before middle)
    (hsecond : Outlasts middle after) : Outlasts before after := by
  obtain ⟨hlog, hconfig, _, _, _, _, hstanding⟩ := hfirst
  obtain ⟨hlater, hkept, _, _, _, _, hfollows⟩ := hsecond
  rw [hstanding] at hfollows
  exact ⟨hlater.trans hlog, hkept.trans hconfig, _, _, _, _, hfollows⟩

theorem outlasts_applyEntry (node : Node L σ) (entry : LogEntry) :
    Outlasts node
      (applyEntry { node with lastApplied := node.lastApplied + 1 } entry) := by
  have hlapsed := lapsed_applyEntry
    { node with lastApplied := node.lastApplied + 1 } entry
  have hframe := applyEntry_frame
    { node with lastApplied := node.lastApplied + 1 } entry
  exact ⟨hlapsed.log,
    congrArg Frame.config hframe, _, _, _, _,
    hlapsed.standing⟩

theorem outlasts_serveQueries (node : Node L σ) :
    Outlasts node node.serveQueries := ⟨rfl, rfl, _, _, _, _, rfl⟩

omit [StateMachine σ] in
theorem outlasts_publishEvents (node : Node L σ) :
    Outlasts node node.publishEvents := by
  have hquiet := quiet_publishEvents node
  refine ⟨hquiet.log, ?_, _, _, _, _, hquiet.standing⟩
  unfold publishEvents
  cases node.leadership <;> rfl

theorem outlasts_applyCommitted (node : Node L σ) :
    Outlasts node node.applyCommitted := by
  have happlied : Outlasts node
      (node.applyNext (node.commitIndex - node.lastApplied)) :=
    applyNext_induction (Outlasts node) node _ (.refl node)
      (fun _ entry hbefore _ => hbefore.trans (outlasts_applyEntry _ entry))
  exact (happlied.trans (outlasts_serveQueries _)).trans
    (outlasts_publishEvents _)

theorem outlasts_advanceCommit (node : Node L σ) :
    ∃ target, Outlasts { node with commitIndex := target }
      node.advanceCommit.2 := by
  unfold advanceCommit
  split
  · exact ⟨node.commitIndex, .refl node⟩
  · exact ⟨_, outlasts_applyCommitted _⟩

/-- A follower commits up to the target if it had not come so far. -/
theorem outlasts_followCommit (node : Node L σ) (target : Nat) :
    Outlasts { node with commitIndex := max node.commitIndex target }
      (node.followCommit target) := by
  unfold followCommit
  split
  · rename_i hlt
    rw [Nat.max_eq_right (Nat.le_of_lt hlt)]
    exact outlasts_applyCommitted _
  · rename_i hle
    rw [Nat.max_eq_left (Nat.le_of_not_lt hle)]
    exact .refl node

end Committing

/-! ### What the peer makes of a request -/

section Storing

variable {L : Type} [LogStore L]

/-- A log to which entries can always be written. -/
def Writable (log : L) : Prop :=
  ∀ later, Relation.ReflTransGen Wrote log later →
    (∀ term operation,
      (LogStore.append later term operation).1.isOk = true) ∧
    ∀ index, (LogStore.truncateAfter later index).1.isOk = true

theorem Writable.wrote {log after : L} (hwritable : Writable log)
    (hwrote : Wrote log after) : Writable after :=
  fun later hlater => hwritable later (.head hwrote hlater)

theorem Writable.append {log : L} (hwritable : Writable log) (term : Nat)
    (operation : Operation) : ∃ index after,
      LogStore.append log term operation = (.ok index, after) ∧
        Writable after := by
  have hdone := (hwritable log .refl).1 term operation
  have hwrote : Wrote log (LogStore.append log term operation).2 :=
    .append term operation
  rcases happend : LogStore.append log term operation with ⟨outcome, after⟩
  rw [happend] at hdone hwrote
  rcases outcome with fault | index
  · simp [Except.isOk, Except.toBool] at hdone
  · exact ⟨index, after, rfl, hwritable.wrote hwrote⟩

theorem Writable.truncateAfter {log : L} (hwritable : Writable log)
    (index : Nat) : ∃ after,
      LogStore.truncateAfter log index = (.ok (), after) ∧
        Writable after := by
  have hdone := (hwritable log .refl).2 index
  have hwrote : Wrote log (LogStore.truncateAfter log index).2 :=
    .truncateAfter index
  rcases htruncate : LogStore.truncateAfter log index with ⟨outcome, after⟩
  rw [htruncate] at hdone hwrote
  rcases outcome with fault | ⟨⟩
  · simp [Except.isOk, Except.toBool] at hdone
  · exact ⟨after, rfl, hwritable.wrote hwrote⟩

variable [FaithfulLog L] {steady : Prop} {commitIndex previous : Nat}
  {log : L} {received : List LogEntry}

/-- An entry is adopted if it can be written. -/
theorem Writable.adopt (hwritable : Writable log) (hlog : Fit steady log)
    {entry : LogEntry} (hindex : entry.index = previous + 1)
    (hprevious : previous ≤ (entries log).length) :
    ∃ after, Node.adopt log entry = (.ok (), after) ∧ Fit steady after ∧
      Writable after ∧ (entries after).length = previous + 1 := by
  obtain ⟨middle, hcut, hfit, hmiddle, hlength⟩ : ∃ middle,
      (if entry.index ≤ LogStore.lastIndex log then
        LogStore.truncateAfter log (entry.index - 1)
      else (.ok (), log)) = (.ok (), middle) ∧ Fit steady middle ∧
      Writable middle ∧ (entries middle).length = previous := by
    split
    · obtain ⟨middle, htruncate, hmiddle⟩ :=
        hwritable.truncateAfter (entry.index - 1)
      obtain ⟨hfit, -, ⟨-, hentries⟩ | ⟨fault, heq, -⟩⟩ :=
        truncateAfter_cases hlog htruncate
      · refine ⟨middle, htruncate, hfit, hmiddle, ?_⟩
        rw [hentries, List.length_take]
        omega
      · simp at heq
    · rename_i hlast
      rw [lastIndex_eq_length hlog.sound] at hlast
      exact ⟨log, rfl, hlog, hwritable, by omega⟩
  obtain ⟨index, after, happend, hafter⟩ :=
    hmiddle.append entry.term entry.operation
  obtain ⟨hlast, htold, hentries⟩ := append_done hfit happend
  rw [hlength] at htold
  refine ⟨after, ?_, hlast, hafter, by simp [hentries, hlength]⟩
  unfold Node.adopt
  rw [hcut]
  simp only [happend, htold, hindex, ↓reduceIte]

/-- Everything that is numbered is merged, if it is not in conflict with what
is committed and nothing fails to be written. -/
theorem merge_joined {after : L} (hlog : Fit steady log)
    (hprevious : previous ≤ (entries log).length)
    (hnumbered : consecutive previous received = received)
    (hcommitted : ∀ offset entry own, received[offset]? = some entry →
      (entries log)[previous + offset]? = some own →
      previous + offset < commitIndex → own.term = entry.term)
    {outcome : Except ErrorKind Nat}
    (hmerge : merge commitIndex log previous received = (outcome, after)) :
    (outcome = .ok (previous + received.length) ∧
        (Writable log → Writable after)) ∨
      outcome = .error .internalError ∧ ¬Writable log := by
  induction received generalizing log previous with
  | nil =>
      obtain ⟨rfl, rfl⟩ := Prod.mk.inj hmerge
      exact Or.inl ⟨rfl, fun hwritable => hwritable⟩
  | cons entry received ih =>
      unfold consecutive at hnumbered
      split at hnumbered
      · rename_i hindex
        have hrest := (List.cons.inj hnumbered).2
        have hreach : previous + (entry :: received).length =
            previous + 1 + received.length := by
          rw [List.length_cons]
          omega
        rw [hreach]
        unfold merge at hmerge
        rw [if_neg (fun hne => hne hindex)] at hmerge
        by_cases hholds : holds log entry = true
        · rw [if_pos hholds, hindex] at hmerge
          obtain ⟨own, hown, -⟩ := (holds_iff hlog.sound hindex).mp hholds
          obtain ⟨hplace, -⟩ := List.getElem?_eq_some_iff.mp hown
          refine ih hlog hplace hrest (fun offset other mine hother hmine hlt =>
            hcommitted (offset + 1) other mine hother ?_ (by omega)) hmerge
          rwa [Nat.add_comm offset, ← Nat.add_assoc]
        · have hconflict : ¬(entry.index ≤ LogStore.lastIndex log ∧
              entry.index ≤ commitIndex) := by
            rw [lastIndex_eq_length hlog.sound, hindex]
            rintro ⟨hplace, hle⟩
            have hown := List.getElem?_eq_getElem hplace
            exact hholds ((holds_iff hlog.sound hindex).mpr ⟨_, hown,
              hcommitted 0 entry _ rfl hown hle⟩)
          rw [if_neg hholds, if_neg hconflict] at hmerge
          rcases hadopt : Node.adopt log entry with ⟨adopted, middle⟩
          rw [hadopt] at hmerge
          have hadopts : Writable log → adopted = .ok () ∧ Writable middle := by
            intro hwritable
            obtain ⟨_, hdone, -, hstores, -⟩ :=
              hwritable.adopt hlog hindex hprevious
            obtain ⟨rfl, rfl⟩ := Prod.mk.inj (hadopt.symm.trans hdone)
            exact ⟨rfl, hstores⟩
          obtain ⟨hmiddle, -, ⟨rfl, hentries⟩ | ⟨rfl, -⟩⟩ :=
            adopt_cases hlog hindex hprevious hadopt
          · -- Past the entry that was adopted nothing is left to conflict.
            have hlength : (entries middle).length = previous + 1 := by
              rw [hentries, List.length_append, List.length_take]
              simp only [List.length_singleton]
              omega
            rw [← hlength] at hrest ⊢
            simp only [hindex, ← hlength] at hmerge
            have hdone := ih hmiddle (Nat.le_refl _) hrest
              (fun offset other own _ hown _ => by
                obtain ⟨hplace, -⟩ := List.getElem?_eq_some_iff.mp hown
                omega) hmerge
            refine hdone.imp (And.imp_right ?_) (And.imp_right ?_)
            · exact fun hkeeps hwritable => hkeeps (hadopts hwritable).2
            · exact fun hfails hwritable => hfails (hadopts hwritable).2
          · refine Or.inr ⟨(Prod.mk.inj hmerge).1.symm, fun hwritable => ?_⟩
            cases (hadopts hwritable).1
      · simp at hnumbered

/-- A log that can be written takes all of it. -/
theorem merge_writable (hlog : Fit steady log) (hwritable : Writable log)
    (hprevious : previous ≤ (entries log).length)
    (hnumbered : consecutive previous received = received)
    (hcommitted : ∀ offset entry own, received[offset]? = some entry →
      (entries log)[previous + offset]? = some own →
      previous + offset < commitIndex → own.term = entry.term) :
    ∃ after, merge commitIndex log previous received =
      (.ok (previous + received.length), after) ∧ Writable after := by
  rcases hmerge : merge commitIndex log previous received with ⟨outcome, after⟩
  rcases merge_joined hlog hprevious hnumbered hcommitted hmerge
    with ⟨rfl, hkeeps⟩ | ⟨-, hfails⟩
  · exact ⟨after, rfl, hkeeps hwritable⟩
  · exact absurd hwritable hfails

end Storing

section Receiving

variable {L σ : Type} [LogStore L] [FaithfulLog L]

/-- A node that can write, whose log goes on to match another log and has
committed nothing in which the two differ. -/
structure Trails (node : Node L σ) (canon : List LogEntry) : Prop where
  sound : Sound node.log
  writable : Writable node.log
  matching : LogsMatch (entries node.log) canon
  committed :
    (entries node.log).take node.commitIndex = canon.take node.commitIndex

/-- What the answer to a piece of a log tells of the node that gives it. -/
structure Reports (before after : Node L σ) (canon : List LogEntry)
    (request : AppendRequest) (succeeded : Bool) (index : Nat) : Prop where
  id : after.id = before.id
  term : after.term = request.term
  trails : after.Trails canon
  keeps : ∀ count, (entries before.log).take count = canon.take count →
    (entries after.log).take count = canon.take count
  success : succeeded = true →
    index = request.prevLogIndex + request.entries.length ∧
      (entries after.log).take index = canon.take index
  refusal : succeeded = false → index < request.prevLogIndex ∧
    ∀ count, count ≤ canon.length →
      (entries before.log).take count = canon.take count → count ≤ index

variable {node : Node L σ} {canon : List LogEntry} {request : AppendRequest}

theorem consecutive_eq {previous : Nat} {received : List LogEntry}
    (hnumbered : ∀ offset entry, received[offset]? = some entry →
      entry.index = previous + offset + 1) :
    consecutive previous received = received := by
  induction received generalizing previous with
  | nil => rfl
  | cons entry received ih =>
      rw [consecutive, if_pos (hnumbered 0 entry rfl), ih]
      intro offset other hother
      rw [hnumbered (offset + 1) other hother]
      omega

/-- A piece of a log is numbered as the log is. -/
theorem consecutive_of_segment (hcanon : Numbered canon)
    (hsegment : Segment canon request) :
    consecutive request.prevLogIndex request.entries = request.entries := by
  refine consecutive_eq (fun offset entry hentry => ?_)
  have hget := getElem?_of_isPrefix hsegment.carries hentry
  rw [List.getElem?_drop] at hget
  exact hcanon _ entry hget

omit [LogStore L] [FaithfulLog L] in
/-- Where a log agrees with the leader's it stays as it is, even if that is all
there is of both. -/
theorem rejoined_keeps {log result : List LogEntry}
    (hrejoined : Rejoined log canon result) {count : Nat}
    (hagree : log.take count = canon.take count) :
    result.take count = canon.take count := by
  rcases Nat.le_total count canon.length with hle | hle
  · exact hrejoined.agree hle hagree
  · rw [List.take_of_length_le hle] at hagree ⊢
    have hwhole := hrejoined.agree (Nat.le_refl canon.length)
      ((take_eq_of_take_eq (hagree.trans (List.take_of_length_le hle).symm)
        hle))
    rw [List.take_length] at hwhole
    rcases hrejoined with rfl | ⟨_, _, _, _, _, hinit⟩
    · exact hagree
    · rw [List.take_of_length_le hinit.length_le] at hwhole
      rw [hwhole, List.take_of_length_le hle]

omit [FaithfulLog L] in
/-- At most a vote is stored while a node turns to a sender. -/
theorem receptive_log (node : Node L σ) (request : AppendRequest) :
    (node.receptive request).log = node.log ∨
      (node.receptive request).log =
        (LogStore.saveVote node.log request.term none).2 := by
  unfold receptive
  split
  · rw [becomeFollower_eq, stepDown_log]
    unfold adoptTerm
    split
    · exact Or.inr rfl
    · exact Or.inl rfl
  · exact Or.inl rfl

theorem receptive_sound (hlog : Sound node.log) (request : AppendRequest) :
    Sound (node.receptive request).log := by
  rcases node.receptive_log request with hsame | hsaved
  · exact hsame ▸ hlog
  · exact hsaved ▸ saveVote_sound hlog request.term none

omit [FaithfulLog L] in
theorem Writable.receptive (hwritable : Writable node.log)
    (request : AppendRequest) : Writable (node.receptive request).log := by
  rcases node.receptive_log request with hsame | hsaved
  · exact hsame ▸ hwritable
  · exact hsaved ▸ hwritable.wrote (.saveVote request.term none)

theorem Trails.receptive (htrails : node.Trails canon)
    (request : AppendRequest) : (node.receptive request).Trails canon := by
  obtain ⟨hsound, hwritable, hmatching, hcommitted⟩ := htrails
  obtain ⟨hspared, hentries⟩ := spared_receptive hsound request
  exact ⟨receptive_sound hsound request, hwritable.receptive request,
    hentries ▸ hmatching, by rw [hentries, hspared.commitIndex, hcommitted]⟩

variable [StateMachine σ]

omit [StateMachine σ] in
/-- A node that refuses stays as it is; its answer has to lie before the piece
and nowhere before the end of what the two logs share. -/
theorem Trails.refuses (htrails : node.Trails canon)
    (hterm : node.term = request.term) {index : Nat}
    (hbefore : index < request.prevLogIndex)
    (hshared : ∀ count, count ≤ canon.length →
      (entries node.log).take count = canon.take count → count ≤ index) :
    node.Reports node canon request false index where
  id := rfl
  term := hterm
  trails := htrails
  keeps := fun _ hagree => hagree
  success := by simp
  refusal := fun _ => ⟨hbefore, hshared⟩

omit [StateMachine σ] in
/-- A piece that joins on to the node's own log is merged, and the two logs
then agree to the end of the piece. -/
theorem Trails.merges (htrails : node.Trails canon)
    (hcanon : Numbered canon) (hsegment : Segment canon request)
    (hlong : request.prevLogIndex ≤ (entries node.log).length)
    (hjoin : termOf (entries node.log) request.prevLogIndex =
      request.prevLogTerm) :
    ∃ log, merge node.commitIndex node.log request.prevLogIndex
        request.entries =
        (.ok (request.prevLogIndex + request.entries.length), log) ∧
      Sound log ∧ Writable log ∧
      Rejoined (entries node.log) canon (entries log) ∧
      (entries log).take (request.prevLogIndex + request.entries.length) =
        canon.take (request.prevLogIndex + request.entries.length) := by
  obtain ⟨log, hmerge, hwritable⟩ := merge_writable (.of_sound htrails.sound)
    htrails.writable hlong (consecutive_of_segment hcanon hsegment)
    (fun offset entry own hentry hown hlt => by
      have hget := getElem?_of_isPrefix hsegment.carries hentry
      rw [List.getElem?_drop,
        ← getElem?_eq_of_take_eq htrails.committed hlt, hown] at hget
      rw [Option.some.inj hget])
  obtain ⟨hfit, -, hspliced, hdone⟩ :=
    merge_cases (Fit.of_sound htrails.sound) hlong hmerge
  have hrejoined := hsegment.rejoined htrails.matching hlong hjoin hspliced
  have hmatching := hrejoined.logsMatch htrails.matching
    (.of_isPrefix List.prefix_rfl List.prefix_rfl)
  obtain ⟨hlength, hsame⟩ := spliced_prefix hlong hspliced
  obtain ⟨-, -, hagree⟩ := hsegment.joined hmatching hlength
    (hsame.trans hjoin) List.prefix_rfl (hdone _ rfl).2
  exact ⟨log, hmerge, hfit.sound, hwritable, hrejoined, hagree⟩

/-- A node that has merged a piece reports so once it has committed as far as
the leader and the piece let it. -/
theorem Trails.accepts (htrails : node.Trails canon)
    (hterm : node.term = request.term) {log : L} (hsound : Sound log)
    (hwritable : Writable log)
    (hrejoined : Rejoined (entries node.log) canon (entries log))
    {index : Nat}
    (hindex : index = request.prevLogIndex + request.entries.length)
    (hagree : (entries log).take index = canon.take index) :
    node.Reports
      (followCommit { node with log := log } (min request.commitIndex index))
      canon request true index := by
  obtain ⟨hkept, -, _, _, _, _, hstanding⟩ := outlasts_followCommit
    { node with log := log } (min request.commitIndex index)
  generalize followCommit { node with log := log }
    (min request.commitIndex index) = after at hkept hstanding
  have hcommit : after.commitIndex =
      max node.commitIndex (min request.commitIndex index) :=
    congrArg Standing.commitIndex hstanding
  have hcommitted : (entries log).take
        (max node.commitIndex (min request.commitIndex index)) =
      canon.take (max node.commitIndex (min request.commitIndex index)) := by
    rcases Nat.le_total (min request.commitIndex index) node.commitIndex with
      hle | hle
    · rw [Nat.max_eq_left hle]
      exact rejoined_keeps hrejoined htrails.committed
    · rw [Nat.max_eq_right hle]
      exact take_eq_of_take_eq hagree (Nat.min_le_right _ _)
  obtain rfl : after.log = log := hkept
  exact {
    id := congrArg Standing.id hstanding
    term := (congrArg Standing.term hstanding).trans hterm
    trails := ⟨hsound, hwritable, hrejoined.logsMatch htrails.matching
      (.of_isPrefix List.prefix_rfl List.prefix_rfl), hcommit ▸ hcommitted⟩
    keeps := fun _ hbefore => rejoined_keeps hrejoined hbefore
    success := fun _ => ⟨hindex, hagree⟩
    refusal := by simp }

/-- A piece of the log that a node goes on to match is accepted or refused, and
the answer tells how far the two logs agree. -/
theorem Trails.receive (htrails : node.Trails canon)
    (hcanon : Numbered canon) (hsegment : Segment canon request)
    (hterm : node.term = request.term) :
    ∃ succeeded index after, node.receive request =
        ((.ok ⟨request.term, succeeded, index, request.round⟩, true), after) ∧
      node.Reports after canon request succeeded index := by
  have hprevious := lastIndex_eq_length htrails.sound
  have hat := termAt_eq_termOf htrails.sound request.prevLogIndex
  unfold Node.receive
  dsimp only
  split
  · rename_i hshort
    refine ⟨false, _, node, by rw [appended, hterm],
      htrails.refuses hterm hshort (fun count hcount hagree => ?_)⟩
    rw [hprevious]
    exact length_le_of_take_eq hagree hcount
  rename_i hlong
  rw [hprevious, Nat.not_lt] at hlong
  split
  · rename_i hdiffers
    rw [hat, hsegment.joins] at hdiffers
    have hpositive : 0 < request.prevLogIndex := by
      refine Nat.pos_of_ne_zero (fun hzero => hdiffers ?_)
      rw [hzero, termOf_zero, termOf_zero]
    refine ⟨false, _, node, by rw [appended, hterm], htrails.refuses hterm
      (Nat.sub_lt hpositive Nat.one_pos) (fun count hcount hagree => ?_)⟩
    have hlt : count < request.prevLogIndex := by
      refine Nat.lt_of_not_le (fun hle => hdiffers ?_)
      exact termOf_eq_of_take_eq (take_eq_of_take_eq hagree hle)
    omega
  · rename_i hjoin
    obtain ⟨log, hmerge, hsound, hwritable, hrejoined, hagree⟩ :=
      htrails.merges hcanon hsegment hlong
        (hat.symm.trans (Decidable.of_not_not hjoin))
    have hreports :=
      htrails.accepts hterm hsound hwritable hrejoined rfl hagree
    rw [hmerge]
    dsimp only
    exact ⟨true, _, _, by rw [appended, hreports.term], hreports⟩

theorem Trails.handleAppend (htrails : node.Trails canon)
    (hcanon : Numbered canon) (hsegment : Segment canon request)
    (hterm : node.term ≤ request.term) :
    ∃ succeeded index after, node.handleAppend request =
        ((.ok ⟨request.term, succeeded, index, request.round⟩, true), after) ∧
      node.Reports after canon request succeeded index := by
  have hfresh : ¬request.term < node.term := Nat.not_lt_of_le hterm
  obtain ⟨hspared, hentries⟩ := spared_receptive htrails.sound request
  obtain ⟨-, hsame, -⟩ : Proceeds False (.append request) node
      (node.receptive request) ∧ _ := receptive_cases hfresh
  obtain ⟨succeeded, index, after, hreceive, hid, hafter, hstays, hkeeps,
    hsuccess, hrefusal⟩ :=
    (htrails.receptive request).receive hcanon hsegment hsame
  rw [hentries] at hkeeps hrefusal
  refine ⟨succeeded, index, after, ?_, hid.trans hspared.id, hafter, hstays,
    hkeeps, hsuccess, hrefusal⟩
  rw [handleAppend_eq, if_neg hfresh, hreceive]

end Receiving

/-! ### What the leader makes of the answer -/

section Heeding

variable {L σ : Type}

/-- The requests with entries that wait to be sent to a peer. -/
def queuedFor (node : Node L σ) (peer : NodeId) : List AppendRequest :=
  node.outbox.filterMap (fun message =>
    match message with
    | .append receiver request => if receiver = peer then some request else none
    | _ => none)

/-- Lead on with other notes. -/
def noting (node : Node L σ) (noted : Leadership) : Node L σ :=
  { node with leadership := some noted }

variable [LogStore L] [FaithfulLog L]

/-- A request that goes on with a log from an index. -/
structure Offers (canon : List LogEntry) (term next : Nat)
    (request : AppendRequest) : Prop where
  term : request.term = term
  previous : request.prevLogIndex = next - 1
  segment : Segment canon request
  brings : request.prevLogIndex < canon.length → request.entries ≠ []

/-- A leader of a log that tries a peer from an index on and believes it to
hold the log up to another. -/
structure Pursues (node : Node L σ) (canon : List LogEntry) (peer : NodeId)
    (next matched : Nat) : Prop where
  role : node.role = .leader
  sound : Sound node.log
  log : entries node.log = canon
  batch : 0 < node.config.maxEntriesPerAppend
  bound : next ≤ canon.length + 1
  beliefs : ∃ leadership, node.leadership = some leadership ∧
    leadership.nextIndex.get? peer = some next ∧
    leadership.matchIndex.get? peer = some matched

variable {node after : Node L σ} {canon : List LogEntry} {peer : NodeId}
  {next matched : Nat}

/-- What is queued for a peer is part of the mail. -/
theorem queuedFor_eq (node : Node L σ) (peer : NodeId) :
    node.queuedFor peer = node.standing.mail.filterMap (fun message =>
      match message with
      | .append receiver request =>
          if receiver = peer then some request else none
      | _ => none) := by
  rw [queuedFor, standing, List.filterMap_filter]
  congr 1
  funext message
  cases message <;> rfl

theorem Pursues.lastIndex (hpursues : node.Pursues canon peer next matched) :
    LogStore.lastIndex node.log = canon.length := by
  rw [lastIndex_eq_length hpursues.sound, hpursues.log]

/-- The request that such a leader makes for the peer. -/
theorem Pursues.offers (hpursues : node.Pursues canon peer next matched) :
    ∃ request, node.createAppend? peer = some request ∧
      Offers canon node.term next request := by
  obtain ⟨-, hsound, hlog, hbatch, hbound, leadership, hleadership, hnext, -⟩ :=
    hpursues
  have htried : leadership.bare.nextIndex.getD peer
      (node.standing.entries.length + 1) = next := by
    rw [Table.getD, show leadership.bare.nextIndex.get? peer = some next
      from hnext, Option.getD_some]
  have hcanon : node.standing.entries = canon := hlog
  refine ⟨node.standing.appendRequest leadership.bare peer
    node.config.maxEntriesPerAppend, ?_, rfl, ?_, ?_, ?_⟩
  · rw [createAppend?_eq hsound]
    simp [standing, hleadership]
  · simp only [Standing.appendRequest, htried]
    omega
  · rw [← hcanon] at hbound ⊢
    exact Standing.segment_appendRequest (by rw [htried]; exact hbound) _
  · simp only [Standing.appendRequest, hcanon]
    intro hlt hnil
    have hlength := congrArg List.length hnil
    rw [List.length_take, List.length_drop, List.length_nil] at hlength
    omega

/-- Sending a peer what it is due queues one request for it. -/
theorem Pursues.sends (hpursues : node.Pursues canon peer next matched) :
    (node.sendAppends [peer]).Pursues canon peer next matched ∧
      ∃ request, (node.sendAppends [peer]).queuedFor peer =
          node.queuedFor peer ++ [request] ∧
        Offers canon node.term next request := by
  obtain ⟨request, hcreate, hoffers⟩ := hpursues.offers
  refine ⟨⟨hpursues.role, hpursues.sound, hpursues.log, hpursues.batch,
    hpursues.bound, hpursues.beliefs⟩, request, ?_, hoffers⟩
  simp [sendAppends, send, queuedFor, hcreate]

/-- Committing changes nothing about what a leader holds of a peer. -/
theorem Pursues.outlasts (hpursues : node.Pursues canon peer next matched)
    (houtlasts : Outlasts node after) :
    after.Pursues canon peer next matched ∧ after.term = node.term ∧
      after.queuedFor peer = node.queuedFor peer := by
  obtain ⟨hrole, hsound, hlog, hbatch, hbound, leadership, hleadership, hnext,
    hmatched⟩ := hpursues
  obtain ⟨hkept, hconfig, _, _, _, _, hstanding⟩ := houtlasts
  have hbare : after.leadership.map Leadership.bare = some leadership.bare :=
    (congrArg Standing.leadership hstanding).trans
      (by simp [standing, hleadership])
  obtain ⟨other, hother, heq⟩ := Option.map_eq_some_iff.mp hbare
  refine ⟨⟨(congrArg Standing.role hstanding).trans hrole, hkept ▸ hsound,
    hkept ▸ hlog, hconfig ▸ hbatch, hbound, other, hother, ?_, ?_⟩,
    congrArg Standing.term hstanding, ?_⟩
  · exact (congrArg (fun bare => bare.nextIndex.get? peer) heq).trans hnext
  · exact (congrArg (fun bare => bare.matchIndex.get? peer) heq).trans
      hmatched
  · rw [queuedFor_eq, queuedFor_eq, hstanding]

theorem Pursues.advanceCommit [StateMachine σ]
    (hpursues : node.Pursues canon peer next matched) :
    node.advanceCommit.2.Pursues canon peer next matched ∧
      node.advanceCommit.2.term = node.term ∧
      node.advanceCommit.2.queuedFor peer = node.queuedFor peer := by
  obtain ⟨target, houtlasts⟩ := outlasts_advanceCommit node
  have hcommits : ({ node with commitIndex := target } : Node L σ).Pursues
      canon peer next matched :=
    ⟨hpursues.role, hpursues.sound, hpursues.log, hpursues.batch,
      hpursues.bound, hpursues.beliefs⟩
  exact hcommits.outlasts houtlasts

/-- Only what is noted of the peer differs. -/
theorem Pursues.noting (hpursues : node.Pursues canon peer next matched)
    (noted : Leadership) {tried held : Nat}
    (hnext : noted.nextIndex.get? peer = some tried)
    (hmatched : noted.matchIndex.get? peer = some held)
    (hbound : tried ≤ canon.length + 1) :
    (node.noting noted).Pursues canon peer tried held :=
  ⟨hpursues.role, hpursues.sound, hpursues.log, hpursues.batch, hbound, noted,
    rfl, hnext, hmatched⟩

omit [FaithfulLog L] in
theorem acceptRefusal_word {leadership : Leadership} {hint : Nat}
    (hword : hint < wordMax) :
    node.acceptRefusal leadership peer next hint =
      .ok ((node.noting (Leadership.retreat leadership peer
        (max 1 (min (next - 1) (hint + 1))))).sendAppends [peer]) := by
  simp only [acceptRefusal, successor, Nat.ne_of_lt hword, ↓reduceIte]
  rfl

variable [StateMachine σ]

/-- What a leader does about a peer's answer of its term. -/
theorem Pursues.handle (hpursues : node.Pursues canon peer next matched)
    {appended : Appended} (hterm : appended.term = node.term) :
    ∃ leadership, node.leadership = some leadership ∧
      leadership.nextIndex.get? peer = some next ∧
      leadership.matchIndex.get? peer = some matched ∧
      node.handleAppendResponse peer (.ok appended) =
        let noted := Leadership.acknowledge leadership peer appended.round
        if appended.succeeded then
          let (advanced, node) :=
            node.acceptProgress noted peer appended.lastLogIndex
          .ok (advanced, node.serveQueries)
        else
          (node.acceptRefusal noted peer next appended.lastLogIndex).map
            (fun node => (false, node.serveQueries)) := by
  obtain ⟨leadership, hleadership, hnext, hmatched⟩ := hpursues.beliefs
  refine ⟨leadership, hleadership, hnext, hmatched, ?_⟩
  unfold handleAppendResponse
  simp only [hterm, hpursues.role, hleadership, hnext, Nat.lt_irrefl,
    ↓reduceIte, ne_eq, not_true_eq_false, or_self]
  split
  · rfl
  · cases acceptRefusal node
      (Leadership.acknowledge leadership peer appended.round) peer next
      appended.lastLogIndex <;> rfl

/-- A refusal makes the leader try the peer further back. -/
theorem Pursues.refused (hpursues : node.Pursues canon peer next matched)
    (hempty : node.queuedFor peer = []) (appended : Appended)
    (hterm : appended.term = node.term) (hrefused : appended.succeeded = false)
    (hword : appended.lastLogIndex < wordMax) {retry : Nat}
    (hretry : retry = max 1 (min (next - 1) (appended.lastLogIndex + 1))) :
    ∃ outcome after request,
      node.handleAppendResponse peer (.ok appended) = .ok (outcome, after) ∧
      after.Pursues canon peer retry matched ∧ after.term = node.term ∧
      after.queuedFor peer = [request] ∧
      Offers canon node.term retry request := by
  obtain ⟨leadership, hleadership, hnext, hmatched, hhandle⟩ :=
    hpursues.handle hterm
  have hbound := hpursues.bound
  have hnoted := hpursues.noting (Leadership.retreat
    (Leadership.acknowledge leadership peer appended.round) peer retry)
    (by rw [Leadership.retreat, Table.get?_insert, if_pos rfl]) hmatched
    (by omega)
  obtain ⟨hsent, request, hqueued, hoffers⟩ := hnoted.sends
  obtain ⟨hserved, hkept, hsame⟩ :=
    hsent.outlasts (outlasts_serveQueries _)
  refine ⟨false, _, request, ?_, hserved, hkept, ?_, hoffers⟩
  · simp only [hhandle, hrefused, acceptRefusal_word hword, ← hretry,
      Bool.false_eq_true, ↓reduceIte]
    rfl
  · rw [hsame, hqueued, show (node.noting _).queuedFor peer = [] from hempty,
      List.nil_append]

omit [FaithfulLog L] in
theorem acceptProgress_eq {leadership : Leadership} (index : Nat) {held : Nat}
    (hheld : held = max (leadership.matchIndex.getD peer 0)
      (min index (LogStore.lastIndex node.log))) {advanced : Bool}
    (hcommit : (node.noting (Leadership.progress leadership peer
      held)).advanceCommit = (advanced, after)) :
    node.acceptProgress leadership peer index =
      (advanced, if held < LogStore.lastIndex after.log then
        after.sendAppends [peer] else after) := by
  unfold acceptProgress
  rw [← hheld]
  dsimp only
  rw [show advanceCommit { node with
    leadership := some (Leadership.progress leadership peer held) } =
      (advanced, after) from hcommit]
  dsimp only
  split <;> rfl

/-- What a peer has taken over is noted, and the leader goes on from there. -/
theorem Pursues.advances (hpursues : node.Pursues canon peer next matched)
    (hempty : node.queuedFor peer = []) (appended : Appended)
    (hterm : appended.term = node.term) (haccepted : appended.succeeded = true)
    (hmatched : matched ≤ canon.length)
    (hlast : appended.lastLogIndex ≤ canon.length) {held : Nat}
    (hheld : held = max matched appended.lastLogIndex) :
    ∃ outcome after,
      node.handleAppendResponse peer (.ok appended) = .ok (outcome, after) ∧
      after.Pursues canon peer (held + 1) held ∧ after.term = node.term ∧
      (held = canon.length ∧ after.queuedFor peer = [] ∨
        held < canon.length ∧ ∃ request, after.queuedFor peer = [request] ∧
          Offers canon node.term (held + 1) request) := by
  obtain ⟨leadership, hleadership, hnext, hbelief, hhandle⟩ :=
    hpursues.handle hterm
  generalize hlater : Leadership.acknowledge leadership peer appended.round =
    noted at hhandle
  have hfirst : noted.matchIndex.getD peer 0 = matched := by
    rw [← hlater, Leadership.acknowledge, Table.getD, hbelief,
      Option.getD_some]
  have hnoted := hpursues.noting (Leadership.progress noted peer held)
    (by rw [Leadership.progress, Table.get?_insert, if_pos rfl])
    (by rw [Leadership.progress, Table.get?_insert, if_pos rfl]) (by omega)
  obtain ⟨hled, hkept, hsame⟩ := hnoted.advanceCommit
  rcases hcommit : (node.noting (Leadership.progress noted peer
    held)).advanceCommit with ⟨advanced, leader⟩
  rw [hcommit] at hled hkept hsame
  have hnone : leader.queuedFor peer = [] := hsame.trans hempty
  have hprogress := acceptProgress_eq appended.lastLogIndex (by
    rw [hfirst, hpursues.lastIndex, Nat.min_eq_left hlast, hheld])
    hcommit
  rw [hled.lastIndex] at hprogress
  simp only [haccepted, ↓reduceIte, hprogress] at hhandle
  by_cases hlt : held < canon.length
  · rw [if_pos hlt] at hhandle
    obtain ⟨hsent, request, hqueued, hoffers⟩ := hled.sends
    obtain ⟨hserved, hafter, hqueue⟩ :=
      hsent.outlasts (outlasts_serveQueries _)
    refine ⟨_, _, hhandle, hserved, hafter.trans hkept, Or.inr ⟨hlt, request,
      ?_, ?_⟩⟩
    · rw [hqueue, hqueued, hnone, List.nil_append]
    · rwa [hkept] at hoffers
  · rw [if_neg hlt] at hhandle
    obtain ⟨hserved, hafter, hqueue⟩ :=
      hled.outlasts (outlasts_serveQueries _)
    exact ⟨_, _, hhandle, hserved, hafter.trans hkept,
      Or.inl ⟨by omega, hqueue.trans hnone⟩⟩

end Heeding

end SessionRaft.Node
