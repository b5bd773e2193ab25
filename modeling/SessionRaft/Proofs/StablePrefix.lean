/-
What a follower has acknowledged it keeps for the rest of the term.  All that
it is sent in a term are pieces of one log, that of the leader, which only
grows; they may be old, overlap and come in any order and any number of times.
-/
import SessionRaft.ByteProgram
import SessionRaft.Proofs.Lives
import SessionRaft.Proofs.Segments

namespace SessionRaft

open FaithfulLog

/-- What a request with entries makes of a log, if it joins on to it. -/
def Grafted (log : List LogEntry) (request : AppendRequest)
    (result : List LogEntry) : Prop :=
  result = log ∨ request.prevLogIndex ≤ log.length ∧
    termOf log request.prevLogIndex = request.prevLogTerm ∧
    ∃ commitIndex, Spliced commitIndex log request.prevLogIndex
      request.entries result

theorem Segment.grafted {log source result : List LogEntry}
    {request : AppendRequest} (hsegment : Segment source request)
    (hmatch : LogsMatch log source) (hgrafted : Grafted log request result) :
    Rejoined log source result := by
  rcases hgrafted with rfl | ⟨hprevious, hjoin, commitIndex, hspliced⟩
  · exact Or.inl rfl
  · exact hsegment.rejoined hmatch hprevious hjoin hspliced

/-! ### The log of a leader -/

/-- A log at all moments, which loses nothing. -/
def Growing (leader : Nat → List LogEntry) : Prop :=
  ∀ ⦃earlier later : Nat⦄, earlier ≤ later → leader earlier <+: leader later

/-- A log that matches the leader's at all moments. -/
def Tracks (leader : Nat → List LogEntry) (log : List LogEntry) : Prop :=
  ∀ moment, LogsMatch log (leader moment)

section Growing

variable {leader : Nat → List LogEntry} {log result : List LogEntry}
  {moment other count : Nat}

theorem Growing.logsMatch (hgrowing : Growing leader) (moment other : Nat) :
    LogsMatch (leader moment) (leader other) :=
  .of_isPrefix (hgrowing (Nat.le_max_left moment other))
    (hgrowing (Nat.le_max_right moment other))

/-- Whatever the leader's log has it goes on having. -/
theorem Growing.take_eq (hgrowing : Growing leader)
    (hmoment : count ≤ (leader moment).length)
    (hother : count ≤ (leader other).length) :
    (leader moment).take count = (leader other).take count :=
  (take_eq_of_isPrefix (hgrowing (Nat.le_max_left moment other)) hmoment).trans
    (take_eq_of_isPrefix (hgrowing (Nat.le_max_right moment other))
      hother).symm

theorem Tracks.rejoined (hgrowing : Growing leader)
    (htracks : Tracks leader log)
    (hrejoined : Rejoined log (leader moment) result) :
    Tracks leader result :=
  fun other => hrejoined.logsMatch (htracks other)
    (hgrowing.logsMatch moment other)

/-- What a log has taken over of the leader's it keeps, even if the request
carries a piece of the leader's log from when it had less. -/
theorem Tracks.keeps (hgrowing : Growing leader) (htracks : Tracks leader log)
    {request : AppendRequest} (hsegment : Segment (leader moment) request)
    (hgrafted : Grafted log request result)
    (hcount : count ≤ (leader other).length)
    (htake : log.take count = (leader other).take count) :
    result.take count = (leader other).take count := by
  have hlonger : count ≤ (leader (max moment other)).length :=
    Nat.le_trans hcount (hgrowing (Nat.le_max_right moment other)).length_le
  have hsame := hgrowing.take_eq hcount hlonger
  have hrejoined := (hsegment.mono
    (hgrowing (Nat.le_max_left moment other))).grafted (htracks _) hgrafted
  rw [hsame]
  exact hrejoined.agree hlonger (htake.trans hsame)

end Growing

/-! ### What a node does to its log -/

/-- A follower that stays in its term follows on, and its log changes at most
by a request of the term. -/
theorem Moves.follows {σ : Type} [StateMachine σ] {steady : Prop}
    {input : Input} {before after : Standing σ}
    (hmoves : Moves steady input before after) (hrole : before.role = .follower)
    (holds : List LogEntry → Prop) (hbefore : holds before.entries)
    (hgrafted : ∀ request log result, input = .append request →
      request.term = before.term → holds log → Grafted log request result →
      holds result) :
    before.term ≤ after.term ∧ (after.term = before.term →
      after.role = .follower ∧ holds after.entries) := by
  induction hmoves with
  | refl => exact ⟨Nat.le_refl _, fun _ => ⟨hrole, hbefore⟩⟩
  | @tail middle after _ hmove ih =>
      obtain ⟨hfirst, hmiddle⟩ := ih
      have hlast := hmove.term_le
      refine ⟨Nat.le_trans hfirst hlast, fun hterm => ?_⟩
      have hkept : middle.term = before.term := by omega
      obtain ⟨hfollower, hholds⟩ := hmiddle hkept
      cases hmove with
      | adopt _ _ _ => exact ⟨rfl, hholds⟩
      | yield _ => exact ⟨rfl, hholds⟩
      | stand _ => simp only at hterm; omega
      | lead hcandidate _ => simp [hfollower] at hcandidate
      | extend _ hleader => simp [hfollower] at hleader
      | merge hinput hasked _ hprevious hjoin hspliced =>
          exact ⟨hfollower, hgrafted _ _ _ hinput (hasked.trans hkept) hholds
            (Or.inr ⟨hprevious, hjoin, _, hspliced⟩)⟩
      | _ => exact ⟨hfollower, hholds⟩

/-- What a node may take before it acknowledges anything: requests of one
term's leader, and of candidates.  Its storage may fail, and it may start
again. -/
def Incident.Expected {L σ : Type} (term : Nat) : Incident L σ → Prop
  | .input (.append request) => request.term = term
  | .input (.vote _) => True
  | .input _ => False
  | .refit _ => True
  | .restart _ _ _ => True

namespace Node

variable {L σ : Type} [LogStore L] [FaithfulLog L] [StateMachine σ]
  {node after : Node L σ}

theorem handleAppend_grafted (hlog : Sound node.log) {request : AppendRequest}
    {response : AppendResponse} {restart : Bool}
    (happend : node.handleAppend request = ((response, restart), after)) :
    Grafted (entries node.log) request (entries after.log) := by
  rw [handleAppend_eq] at happend
  split at happend
  · obtain ⟨-, rfl⟩ := Prod.mk.inj happend
    exact Or.inl rfl
  · rename_i hterm
    have hreceptive : Fit False (node.receptive request).log :=
      ((receptive_cases hterm).1 (.of_sound hlog)).1
    have hentries : entries (node.receptive request).log =
        entries node.log := by
      unfold receptive
      split
      · exact becomeFollower_entries hlog request.term
      · rfl
    rw [← hentries]
    unfold receive at happend
    dsimp only at happend
    split at happend
    · obtain ⟨-, rfl⟩ := Prod.mk.inj happend
      exact Or.inl rfl
    rename_i hprevious
    split at happend
    · obtain ⟨-, rfl⟩ := Prod.mk.inj happend
      exact Or.inl rfl
    rename_i hjoin
    have hjoin := Decidable.of_not_not hjoin
    rw [termAt_eq_termOf hreceptive.sound] at hjoin
    rw [lastIndex_eq_length hreceptive.sound, Nat.not_lt] at hprevious
    split at happend
    all_goals
      rename_i hmerge
      obtain ⟨-, rfl⟩ := Prod.mk.inj happend
      obtain ⟨-, -, hspliced, -⟩ := merge_cases hreceptive hprevious hmerge
      refine Or.inr
        ⟨hprevious, hjoin, (node.receptive request).commitIndex, ?_⟩
    · exact hspliced
    · rw [followCommit_log]
      exact hspliced

theorem handleVote_entries (hlog : Sound node.log) {request : VoteRequest}
    {response : VoteResponse} {restart : Bool}
    (hvote : node.handleVote request = ((response, restart), after)) :
    entries after.log = entries node.log := by
  unfold handleVote at hvote
  dsimp only at hvote
  obtain ⟨voter, hvoter⟩ : ∃ voter, (if node.term < request.term then
    node.becomeFollower request.term else node) = voter := ⟨_, rfl⟩
  have hentries : Sound voter.log ∧ entries voter.log = entries node.log := by
    rw [← hvoter]
    split
    · exact ⟨((proceeds_becomeFollower node request.term :
        Proceeds False (.vote request) _ _) (.of_sound hlog)).1.sound,
        becomeFollower_entries hlog request.term⟩
    · exact ⟨hlog, rfl⟩
  rw [hvoter] at hvote
  rw [← hentries.2]
  split at hvote
  · rcases hsave : LogStore.saveVote voter.log voter.term
      (some request.candidate) with ⟨outcome, log⟩
    obtain ⟨-, hsame, -⟩ := saveVote_cases (.of_sound hentries.1) hsave
    simp only [persistVote, hsave] at hvote
    split at hvote <;>
    · obtain ⟨-, rfl⟩ := Prod.mk.inj hvote
      rename_i heq
      obtain ⟨-, rfl⟩ := Prod.mk.inj heq
      exact hsame
  · obtain ⟨-, rfl⟩ := Prod.mk.inj hvote
    rfl

omit [StateMachine σ] in
/-- What a leader sends a peer is a piece of its log, unless it tries the peer
past its end. -/
theorem segment_createAppend? (hlog : Sound node.log) {peer : NodeId}
    {request : AppendRequest}
    (hnext : ∀ leadership, node.leadership = some leadership →
      leadership.nextIndex.getD peer (LogStore.lastIndex node.log + 1) ≤
        LogStore.lastIndex node.log + 1)
    (hcreate : node.createAppend? peer = some request) :
    request.term = node.term ∧ Segment (entries node.log) request := by
  rw [createAppend?_eq hlog, Option.map_eq_some_iff] at hcreate
  obtain ⟨leadership, hleadership, rfl⟩ := hcreate
  rw [standing, Option.map_eq_some_iff] at hleadership
  obtain ⟨whole, hwhole, rfl⟩ := hleadership
  have hbound := hnext whole hwhole
  rw [lastIndex_eq_length hlog] at hbound
  have hsegment : Segment node.standing.entries
      (node.standing.appendRequest whole.bare peer
        node.config.maxEntriesPerAppend) :=
    Standing.segment_appendRequest hbound _
  exact ⟨rfl, hsegment⟩

/-- A node that answers a request in the request's term follows. -/
theorem handleAppend_role (hlog : Sound node.log) {request : AppendRequest}
    {response : AppendResponse} {restart : Bool}
    (happend : node.handleAppend request = ((response, restart), after))
    (hterm : request.term = after.term) : after.role = .follower := by
  rw [handleAppend_eq] at happend
  split at happend
  · rename_i hstale
    obtain ⟨-, rfl⟩ := Prod.mk.inj happend
    omega
  · rename_i hfresh
    obtain ⟨hreceptive, hsame, hrole⟩ : Proceeds False (.append request) node
        (node.receptive request) ∧ _ := receptive_cases hfresh
    have hfit := (hreceptive (.of_sound hlog)).1
    have hmoves := ((receive_cases hfit hsame.symm hrole happend).1 hfit).2
    exact ((hmoves.follows hrole (fun _ => True) trivial
      (fun _ _ _ _ _ _ _ => trivial)).2 (hterm.symm.trans hsame.symm)).1

/-- In a step that is expected, the log changes at most by a request of the
leader. -/
theorem step_grafted (hlog : Sound node.log) {input : Input} {output : Output}
    (hstep : node.step input = .ok (output, after)) {term : Nat}
    (hexpected : (Incident.input input : Incident L σ).Expected term) :
    entries after.log = entries node.log ∨ ∃ request,
      input = .append request ∧ request.term = term ∧
        Grafted (entries node.log) request (entries after.log) := by
  cases stepsTo hstep with
  | vote hvote => exact Or.inl (handleVote_entries hlog hvote)
  | append happend =>
      exact Or.inr ⟨_, rfl, hexpected, handleAppend_grafted hlog happend⟩
  | _ => exact hexpected.elim

variable {incident : Incident L σ}

theorem Undergoes.grafted (hlog : Sound node.log)
    (hundergoes : node.Undergoes incident after) {term : Nat}
    (hexpected : incident.Expected term) :
    entries after.log = entries node.log ∨ ∃ request,
      incident = .input (.append request) ∧ request.term = term ∧
        Grafted (entries node.log) request (entries after.log) := by
  cases hundergoes with
  | overflow _ => exact Or.inl rfl
  | taken hstep =>
      rcases step_grafted hlog hstep hexpected with
        hsame | ⟨request, rfl, hterm, hgrafted⟩
      · exact Or.inl hsame
      · exact Or.inr ⟨request, rfl, hterm, hgrafted⟩
  | refit _ hmemory => exact Or.inl (congrArg MemoryLog.entries hmemory)
  | unfit => exact Or.inl rfl
  | restarted hfresh hmemory hstart =>
      rw [(Network.start_standing hfresh hstart).1]
      exact Or.inl (congrArg MemoryLog.entries hmemory)

/-- A follower that stays in its term follows on, whatever happens. -/
theorem Undergoes.follows (hproper : node.Proper)
    (hundergoes : node.Undergoes incident after)
    (hrole : node.role = .follower) (hterm : after.term = node.term)
    (holds : List LogEntry → Prop) (hbefore : holds (entries node.log))
    (hgrafted : ∀ request log result, incident = .input (.append request) →
      request.term = node.term → holds log → Grafted log request result →
      holds result) :
    after.role = .follower ∧ holds (entries after.log) := by
  cases hundergoes with
  | overflow _ => exact ⟨hrole, hbefore⟩
  | taken hstep =>
      exact ((hproper.moves hstep).follows hrole holds hbefore
        (fun request log result hinput =>
          hgrafted request log result (congrArg _ hinput))).2 hterm
  | refit _ hmemory =>
      refine ⟨hrole, ?_⟩
      simp only [entries, hmemory]
      exact hbefore
  | unfit => exact ⟨hrole, hbefore⟩
  | restarted hfresh hmemory hstart =>
      obtain ⟨hkept, hstanding⟩ := Network.start_standing hfresh hstart
      refine ⟨congrArg Standing.role hstanding, ?_⟩
      rw [hkept]
      simp only [entries, hmemory]
      exact hbefore

end Node

/-! ### The rest of the term -/

namespace Life

variable {L σ : Type} [LogStore L] [FaithfulLog L] [StateMachine σ]
  {life : Life L σ} {term first time later : Nat}
  {leader : Nat → List LogEntry}

/-- From a time on, all requests of a term that the node takes carry pieces of
one log, as it was at any moments. -/
structure Led (life : Life L σ) (term : Nat) (leader : Nat → List LogEntry)
    (first : Nat) : Prop where
  growing : Growing leader
  carries : ∀ time request, first ≤ time →
    life.incidents[time]? = some (.input (.append request)) →
    request.term = term → ∃ moment, Segment (leader moment) request

/-- As long as only what is expected happens, the log matches the leader's. -/
theorem Valid.tracks (hvalid : life.Valid) (hled : life.Led term leader first)
    (htracks : Tracks leader (entries (life.node first).log))
    (hle : first ≤ time)
    (hexpected : ∀ earlier incident, first ≤ earlier → earlier < time →
      life.incidents[earlier]? = some incident → incident.Expected term) :
    Tracks leader (entries (life.node time).log) := by
  induction hle with
  | refl => exact htracks
  | @step time hle ih =>
      have hbefore := ih (fun earlier incident hfirst hlt =>
        hexpected earlier incident hfirst (Nat.lt_succ_of_lt hlt))
      cases hincident : life.incidents[time]? with
      | none => rwa [node_succ_of_end hincident]
      | some incident =>
          have hundergoes := (life.node time).undergoes
            (hvalid.possible time incident hincident)
          rw [← node_succ hincident] at hundergoes
          rcases hundergoes.grafted (hvalid.proper time).sound
            (hexpected time incident hle (Nat.lt_succ_self time) hincident) with
            hsame | ⟨request, rfl, hterm, hgrafted⟩
          · rwa [hsame]
          · obtain ⟨moment, hsegment⟩ :=
              hled.carries time request hle hincident hterm
            exact hbefore.rejoined hled.growing
              (hsegment.grafted (hbefore moment) hgrafted)

/-- As long as a follower stays in the term, it keeps what it has taken over
of the leader's log. -/
theorem Valid.keeps (hvalid : life.Valid) (hled : life.Led term leader first)
    (hfirst : first ≤ time) (hle : time ≤ later)
    (hstays : ∀ between, time ≤ between → between ≤ later →
      (life.node between).term = term)
    (hrole : (life.node time).role = .follower)
    (htracks : Tracks leader (entries (life.node time).log))
    {moment count : Nat} (hcount : count ≤ (leader moment).length)
    (htake : (entries (life.node time).log).take count =
      (leader moment).take count) :
    (life.node later).role = .follower ∧
      Tracks leader (entries (life.node later).log) ∧
      (entries (life.node later).log).take count =
        (leader moment).take count := by
  induction hle with
  | refl => exact ⟨hrole, htracks, htake⟩
  | @step later hle ih =>
      obtain ⟨hfollower, hbefore⟩ := ih (fun between htime hlater =>
        hstays between htime (Nat.le_succ_of_le hlater))
      cases hincident : life.incidents[later]? with
      | none =>
          rw [node_succ_of_end hincident]
          exact ⟨hfollower, hbefore⟩
      | some incident =>
          have hundergoes := (life.node later).undergoes
            (hvalid.possible later incident hincident)
          rw [← node_succ hincident] at hundergoes
          have hterm := hstays later hle (Nat.le_succ later)
          refine hundergoes.follows (hvalid.proper later) hfollower
            ((hstays _ (Nat.le_succ_of_le hle) (Nat.le_refl _)).trans
              hterm.symm)
            (fun log => Tracks leader log ∧
              log.take count = (leader moment).take count) hbefore ?_
          rintro request log result rfl hasked ⟨hlog, hkept⟩ hgrafted
          obtain ⟨sent, hsegment⟩ := hled.carries later request
            (Nat.le_trans hfirst hle) hincident (hasked.trans hterm)
          exact ⟨hlog.rejoined hled.growing
              (hsegment.grafted (hlog sent) hgrafted),
            hlog.keeps hled.growing hsegment hgrafted hcount hkept⟩

/-- What a follower has acknowledged is a part of the leader's log, and stays
so for the rest of the term, whatever else happens. -/
theorem acknowledged_prefix_stays (hvalid : life.Valid)
    (hled : life.Led term leader first)
    (htracks : Tracks leader (entries (life.node first).log))
    (hle : first ≤ time)
    (hexpected : ∀ earlier incident, first ≤ earlier → earlier < time →
      life.incidents[earlier]? = some incident → incident.Expected term)
    {request : AppendRequest} {appended : Appended} {restart : Bool}
    {after : Node L σ} (hterm : request.term = term)
    (htakes : life.Takes time (.append request)
      (.append (.ok appended) restart) after)
    (hsucceeded : appended.succeeded = true) :
    (life.node (time + 1)).term = term ∧
      (∃ moment, appended.lastLogIndex ≤ (leader moment).length) ∧
      ∀ later, time < later →
        (∀ between, time < between → between ≤ later →
          (life.node between).term = term) →
        ∀ moment, appended.lastLogIndex ≤ (leader moment).length →
          ∀ index, 1 ≤ index → index ≤ appended.lastLogIndex →
            LogStore.get? (life.node later).log index =
              (leader moment)[index - 1]? := by
  have hproper := hvalid.proper time
  have hbefore := hvalid.tracks hled htracks hle hexpected
  obtain ⟨sent, hsegment⟩ := hled.carries time request hle htakes.1 hterm
  obtain ⟨-, -, -, hsuccess⟩ :=
    Node.step_confirms htakes.2 hproper.sound appended rfl
  obtain ⟨hsame, hindex, hprevious, hjoin, hmatches⟩ := hsuccess hsucceeded
  -- The node as the answer leaves it.
  have hnext : life.node (time + 1) = after.take.2.2 := htakes.node_succ
  have hnextTerm : (life.node (time + 1)).term = term := by
    rw [hnext, ← hterm]
    exact hsame.symm
  have happend : (life.node time).handleAppend request =
      ((.ok appended, restart), after) := by
    cases Node.stepsTo htakes.2 with
    | append happend => exact happend
  have hafter := hbefore.rejoined hled.growing (hsegment.grafted (hbefore sent)
    (Node.handleAppend_grafted hproper.sound happend))
  have hrole : after.role = .follower :=
    Node.handleAppend_role hproper.sound happend hsame
  obtain ⟨-, hlength, htake⟩ := hsegment.joined (hafter sent) hprevious hjoin
    List.prefix_rfl hmatches
  rw [← hindex] at hlength htake
  refine ⟨hnextTerm, ⟨sent, hlength⟩, ?_⟩
  intro later hlater hstays moment hmoment index hpositive hacknowledged
  obtain ⟨-, -, hkept⟩ := hvalid.keeps hled (Nat.le_succ_of_le hle) hlater
    hstays (by rw [hnext]; exact hrole) (by rw [hnext]; exact hafter) hlength
    (by rw [hnext]; exact htake)
  obtain ⟨place, rfl⟩ : ∃ place, index = place + 1 := ⟨index - 1, by omega⟩
  rw [get?_succ (hvalid.proper later).sound, Nat.add_sub_cancel]
  exact getElem?_eq_of_take_eq
    (hkept.trans (hled.growing.take_eq hlength hmoment)) hacknowledged

end Life

namespace Witness

/-- The log that a leader of term 3 comes to have, entry by entry. -/
def leaderLog (moment : Nat) : List LogEntry :=
  [⟨1, 1, .noOp⟩, ⟨3, 2, .noOp⟩, ⟨3, 3, .noOp⟩].take (moment + 1)

/-- A follower with an entry that the leader has not.  It drops the entry and
fails to replace it, takes the batch again when its storage has recovered, and
is sent an old batch and asked for its vote after that. -/
def strained : Life (Faulty MemoryLog) Tally where
  start := { member
    ⟨⟨[⟨1, 1, .noOp⟩, ⟨2, 2, .noOp⟩], 2, none⟩, { append := some 0 }⟩ .start 1
    with term := 2 }
  incidents := [
    .input (.append ⟨3, 2, 1, 1, [⟨3, 2, .noOp⟩, ⟨3, 3, .noOp⟩], 0, 1⟩),
    .refit ⟨⟨[⟨1, 1, .noOp⟩], 3, none⟩, .none⟩,
    .input (.append ⟨3, 2, 1, 1, [⟨3, 2, .noOp⟩, ⟨3, 3, .noOp⟩], 0, 1⟩),
    .input (.append ⟨3, 2, 0, 0, [⟨1, 1, .noOp⟩], 0, 1⟩),
    .input (.vote ⟨3, 3, 3, 3⟩)]

theorem strained_valid : strained.Valid where
  begins := ⟨1, [1, 2, 3], {}, strained.start.log, .start,
    ⟨rfl, rfl, rfl,
      show Numbered strained.start.log.inner.entries by decide⟩, rfl⟩
  possible time incident hincident := by
    rcases time with _ | _ | _ | _ | _ | time
    all_goals simp only [strained, List.getElem?_cons_succ,
      List.getElem?_cons_zero, List.getElem?_nil, Option.some.injEq,
      reduceCtorEq] at hincident
    all_goals subst hincident
    case succ.zero =>
      exact ⟨⟨rfl, rfl, rfl, show Numbered [⟨1, 1, .noOp⟩] by decide⟩, rfl⟩
    all_goals trivial

theorem strained_led : strained.Led 3 leaderLog 0 where
  growing _ _ hle := List.take_prefix_take_left (by omega)
  carries time request _ hincident _ := by
    rcases time with _ | _ | _ | _ | _ | time
    all_goals simp only [strained, List.getElem?_cons_succ,
      List.getElem?_cons_zero, List.getElem?_nil, Option.some.injEq,
      Incident.input.injEq, Input.append.injEq, reduceCtorEq] at hincident
    all_goals subst hincident
    · exact ⟨2, by decide, rfl, by decide⟩
    · exact ⟨2, by decide, rfl, by decide⟩
    · exact ⟨0, by decide, rfl, by decide⟩

theorem strained_tracks :
    Tracks leaderLog (entries (strained.node 0).log) := by
  intro moment place left right hleft hright hterm
  have hinit : leaderLog moment <+: leaderLog 2 :=
    List.take_prefix (moment + 1) (leaderLog 2)
  rcases place with _ | _ | place
  · obtain ⟨hplace, -⟩ := List.getElem?_eq_some_iff.mp hright
    rw [take_eq_of_isPrefix hinit hplace]
    rfl
  · have hother := getElem?_of_isPrefix hinit hright
    obtain rfl := Option.some.inj hleft
    obtain rfl := Option.some.inj hother
    simp at hterm
  · simp [Life.node, strained, member, entries, FaithfulLog.memory] at hleft

/-- Three entries are acknowledged and kept, though the last batch that comes
in ends with the first of them. -/
theorem strained_keeps : ∃ after,
    strained.Takes 2
        (.append ⟨3, 2, 1, 1, [⟨3, 2, .noOp⟩, ⟨3, 3, .noOp⟩], 0, 1⟩)
        (.append (.ok ⟨3, true, 3, 1⟩) true) after ∧
      ∀ index, 1 ≤ index → index ≤ 3 →
        LogStore.get? (strained.node 5).log index =
          (leaderLog 2)[index - 1]? := by
  obtain ⟨after, htakes⟩ : ∃ after, strained.Takes 2
      (.append ⟨3, 2, 1, 1, [⟨3, 2, .noOp⟩, ⟨3, 3, .noOp⟩], 0, 1⟩)
      (.append (.ok ⟨3, true, 3, 1⟩) true) after := ⟨_, rfl, rfl⟩
  have hexpected : ∀ earlier incident, 0 ≤ earlier → earlier < 2 →
      strained.incidents[earlier]? = some incident →
      incident.Expected 3 := by
    rintro (_ | _ | earlier) incident - hlt hincident
    · obtain rfl := Option.some.inj hincident
      rfl
    · obtain rfl := Option.some.inj hincident
      trivial
    · omega
  have hstays : ∀ between, 2 < between → between ≤ 5 →
      (strained.node between).term = 3 := by
    intro between hlt hle
    obtain rfl | rfl | rfl : between = 3 ∨ between = 4 ∨ between = 5 := by
      omega
    all_goals rfl
  obtain ⟨-, -, hkeeps⟩ := Life.acknowledged_prefix_stays strained_valid
    strained_led strained_tracks (Nat.zero_le 2) hexpected rfl htakes rfl
  exact ⟨after, htakes, hkeeps 5 (by decide) hstays 2 (by decide)⟩

end Witness

end SessionRaft
