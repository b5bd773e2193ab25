/-
Every log is made of beginnings of leaders' logs.  So two logs that hold
entries of one index and one term agree up to there.
-/
import SessionRaft.Proofs.Elections
import SessionRaft.Proofs.Segments

namespace SessionRaft

variable {σ : Type}

namespace Chronicle

/-- Every entry stands in the log of its term's leader, after the same
entries. -/
def Follows (chron : Chronicle σ) (log : List LogEntry) : Prop :=
  ∀ place entry, log[place]? = some entry →
    chron.winner entry.term ≠ none ∧
      log.take (place + 1) <+: chron.canon entry.term

/-- A request with entries carries a piece of its sender's log as leader. -/
structure Genuine (chron : Chronicle σ) (sender : NodeId)
    (request : AppendRequest) : Prop where
  winner : chron.winner request.term = some sender
  previous : request.prevLogIndex ≤ (chron.canon request.term).length
  joins : request.prevLogTerm =
    termOf (chron.canon request.term) request.prevLogIndex
  carries : request.entries <+:
    (chron.canon request.term).drop request.prevLogIndex

/-- Victories stand, and the logs of leaders only grow. -/
structure Grown (before after : Chronicle σ) : Prop where
  winner : ∀ term id, before.winner term = some id →
    after.winner term = some id
  canon : ∀ term, before.canon term <+: after.canon term

theorem Grown.refl (chron : Chronicle σ) : chron.Grown chron :=
  ⟨fun _ _ hwon => hwon, fun _ => List.prefix_rfl⟩

theorem Grown.of_eq {before after : Chronicle σ}
    (hwinner : after.winner = before.winner)
    (hcanon : after.canon = before.canon) : before.Grown after :=
  ⟨fun _ _ hwon => hwinner ▸ hwon, fun _ => hcanon ▸ List.prefix_rfl⟩

theorem Grown.trans {before middle after : Chronicle σ}
    (hfirst : before.Grown middle) (hsecond : middle.Grown after) :
    before.Grown after :=
  ⟨fun term id hwon => hsecond.winner term id (hfirst.winner term id hwon),
    fun term => (hfirst.canon term).trans (hsecond.canon term)⟩

end Chronicle

namespace Chronicle

variable {chron next : Chronicle σ} {log first second : List LogEntry}

theorem Follows.nil (chron : Chronicle σ) : chron.Follows [] := by
  intro place entry hentry
  simp at hentry

theorem Follows.mono (hfollows : chron.Follows log) (hgrown : chron.Grown next) :
    next.Follows log := by
  intro place entry hentry
  obtain ⟨hwon, hinit⟩ := hfollows place entry hentry
  obtain ⟨winner, hwinner⟩ := Option.ne_none_iff_exists'.mp hwon
  refine ⟨?_, hinit.trans (hgrown.canon _)⟩
  rw [hgrown.winner _ _ hwinner]
  simp

/-- Whatever begins a log of leaders' entries is one. -/
theorem Follows.prefix (hfollows : chron.Follows second)
    (hinit : first <+: second) : chron.Follows first := by
  intro place entry hentry
  obtain ⟨hplace, -⟩ := List.getElem?_eq_some_iff.mp hentry
  obtain ⟨hwon, hcanon⟩ := hfollows place entry
    (getElem?_of_isPrefix hinit hentry)
  refine ⟨hwon, ?_⟩
  rwa [take_eq_of_isPrefix hinit hplace]

/-- Two logs that hold entries of one term at one place agree up to there. -/
theorem Follows.matching (hfirst : chron.Follows first)
    (hsecond : chron.Follows second) : LogsMatch first second := by
  intro place left right hleft hright hterm
  obtain ⟨-, hleftCanon⟩ := hfirst place left hleft
  obtain ⟨-, hrightCanon⟩ := hsecond place right hright
  rw [hterm] at hleftCanon
  obtain ⟨hleftPlace, -⟩ := List.getElem?_eq_some_iff.mp hleft
  obtain ⟨hrightPlace, -⟩ := List.getElem?_eq_some_iff.mp hright
  apply eq_of_isPrefix_of_length hleftCanon hrightCanon
  rw [List.length_take, List.length_take]
  omega

theorem Genuine.segment {sender : NodeId} {request : AppendRequest}
    (hgenuine : chron.Genuine sender request) :
    Segment (chron.canon request.term) request :=
  ⟨hgenuine.previous, hgenuine.joins, hgenuine.carries⟩

/-- A log that holds what a request carries agrees with its sender's log up to
the end of the request. -/
theorem Genuine.joined {sender : NodeId} {request : AppendRequest}
    (hgenuine : chron.Genuine sender request) (hfollows : chron.Follows log)
    (hcanon : chron.Follows (chron.canon request.term))
    (hprevious : request.prevLogIndex ≤ log.length)
    (hjoin : termOf log request.prevLogIndex = request.prevLogTerm)
    {held : List LogEntry} (hheld : held <+: request.entries)
    (hmatches : Matches log request.prevLogIndex held) :
    request.prevLogIndex + held.length ≤ log.length ∧
      request.prevLogIndex + held.length ≤
        (chron.canon request.term).length ∧
      log.take (request.prevLogIndex + held.length) =
        (chron.canon request.term).take
          (request.prevLogIndex + held.length) :=
  hgenuine.segment.joined (hfollows.matching hcanon) hprevious hjoin hheld
    hmatches

theorem Genuine.rejoined {sender : NodeId} {request : AppendRequest}
    (hgenuine : chron.Genuine sender request) (hfollows : chron.Follows log)
    (hcanon : chron.Follows (chron.canon request.term))
    (hprevious : request.prevLogIndex ≤ log.length)
    (hjoin : termOf log request.prevLogIndex = request.prevLogTerm)
    {commitIndex : Nat} {result : List LogEntry}
    (hspliced : Spliced commitIndex log request.prevLogIndex request.entries
      result) :
    Rejoined log (chron.canon request.term) result :=
  hgenuine.segment.rejoined (hfollows.matching hcanon) hprevious hjoin hspliced

/-- What a merge makes of a log of leaders' entries is one. -/
theorem Follows.rejoined {canon result : List LogEntry}
    (hlog : chron.Follows log) (hcanon : chron.Follows canon)
    (hrejoined : Rejoined log canon result) : chron.Follows result := by
  rcases hrejoined with rfl | ⟨_, _, _, _, _, hinit⟩
  · exact hlog
  · exact hcanon.prefix hinit

end Chronicle

/-- What is remembered of the logs agrees with what a member holds and
sends. -/
structure Copied (chron : Chronicle σ) (id : NodeId) (standing : Standing σ) :
    Prop where
  follows : chron.Follows standing.entries
  leader : standing.role = .leader →
    chron.canon standing.term = standing.entries
  risen : standing.role ≠ .follower → 0 < standing.term
  next : ∀ leadership, standing.leadership = some leadership →
    ∀ peer index, leadership.nextIndex.get? peer = some index →
      peer ∈ standing.peers ∧ index ≤ standing.entries.length + 1
  matched : ∀ leadership, standing.leadership = some leadership →
    ∀ peer index, leadership.matchIndex.get? peer = some index →
      peer ∈ standing.peers ∧ index ≤ standing.entries.length
  posts : ∀ peer request, .append peer request ∈ standing.mail →
    chron.Genuine id request

/-- What is remembered of the logs is true of all members and of all
messages. -/
structure Matching (members : List NodeId) (chron : Chronicle σ) : Prop where
  copied : ∀ id ∈ members, Copied chron id (chron.standing id)
  follows : ∀ term, chron.Follows (chron.canon term)
  unwon : ∀ term, chron.winner term = none → chron.canon term = []
  unborn : chron.winner 0 = none
  requests : ∀ sender receiver request,
    ⟨sender, receiver, .append request⟩ ∈ chron.scene.sent →
      chron.Genuine sender request

variable [StateMachine σ] {members : List NodeId} {chron : Chronicle σ}
  {id : NodeId} {before after : Standing σ} {steady : Prop} {input : Input}

omit [StateMachine σ] in
theorem Chronicle.Genuine.mono {next : Chronicle σ} {sender : NodeId}
    {request : AppendRequest} (hgenuine : chron.Genuine sender request)
    (hgrown : chron.Grown next) : next.Genuine sender request := by
  have hsegment := hgenuine.segment.mono (hgrown.canon request.term)
  exact ⟨hgrown.winner _ _ hgenuine.winner, hsegment.previous, hsegment.joins,
    hsegment.carries⟩

/-- The log of a leader only grows while it leads. -/
theorem Move.entries_prefix (hmove : Move steady input before after)
    (hbefore : before.role = .leader) (hafter : after.role = .leader) :
    before.entries <+: after.entries := by
  cases hmove with
  | adopt _ _ _ => simp at hafter
  | yield _ => simp at hafter
  | stand _ => simp at hafter
  | merge _ _ hrole _ _ _ => simp [hbefore] at hrole
  | extend _ _ => exact List.prefix_append _ _
  | _ => exact List.prefix_rfl

/-- A move makes no leader's log shorter. -/
theorem Matching.grown (helections : Elections members chron)
    (hmatching : Matching members chron) (hid : id ∈ members)
    (hmove : Move steady input (chron.standing id) after) :
    chron.Grown (chron.note id after) := by
  have hentitled := helections.entitled id hid
  refine ⟨(hentitled.kept helections hmove).winner, fun term => ?_⟩
  rw [Chronicle.note_canon]
  split
  · rename_i hrole
    by_cases heq : term = after.term
    · subst heq
      rw [Function.update_self]
      rcases hmove.leads hrole with ⟨hleads, hterm⟩ |
        ⟨hcandidate, hquorum, rfl⟩
      · rw [← hterm, (hmatching.copied id hid).leader hleads]
        exact hmove.entries_prefix hleads hrole
      · rw [show (chron.standing id).led.term = (chron.standing id).term
          from rfl, hmatching.unwon _
            (hentitled.unwon helections hcandidate hquorum)]
        exact List.nil_prefix
    · simp only [Function.update_of_ne heq, List.prefix_rfl]
  · exact List.prefix_rfl

omit [StateMachine σ] in
/-- What another member does leaves a member's own log alone. -/
theorem Copied.other {other : NodeId} (hcopied : Copied chron other before)
    (hentitled : Entitled members chron other before) (hne : other ≠ id)
    (hwinner : after.role = .leader →
      chron.winner after.term = some other → other = id)
    (hgrown : chron.Grown (chron.note id after)) :
    Copied (chron.note id after) other before := by
  exact { hcopied with
    follows := hcopied.follows.mono hgrown
    leader := fun hrole => by
      rw [Chronicle.note_canon]
      split
      · rename_i hleads
        have hterm : before.term ≠ after.term := by
          intro heq
          exact hne (hwinner hleads (heq ▸ hentitled.leader hrole))
        rw [Function.update_of_ne hterm]
        exact hcopied.leader hrole
      · exact hcopied.leader hrole
    posts := fun peer request hmail =>
      (hcopied.posts peer request hmail).mono hgrown }

/-- The request with entries that a member takes is genuine. -/
def Addressed (chron : Chronicle σ) (input : Input) : Prop :=
  ∀ request, input = .append request →
    ∃ sender, chron.Genuine sender request

omit [StateMachine σ] in
theorem Matching.addressed_of_brings (hmatching : Matching members chron)
    (hbrings : chron.scene.Brings id input) : Addressed chron input := by
  rintro request rfl
  rcases hbrings with hlocal | ⟨⟨sender, receiver, packet⟩, hsent, rfl, heq⟩
  · simp [Input.isLocal] at hlocal
  · cases packet with
    | append request =>
        obtain rfl := Input.append.inj heq
        exact ⟨sender, hmatching.requests _ _ _ hsent⟩
    | vote request => simp [Envelope.input] at heq
    | voteResponse response => simp [Envelope.input] at heq
    | appendResponse response => simp [Envelope.input] at heq

omit [StateMachine σ] in
/-- The request that a leader makes is genuine. -/
theorem Copied.appendRequest (hcopied : Copied chron id before)
    (hentitled : Entitled members chron id before) {leadership : Leadership}
    (hleadership : before.leadership = some leadership) (peer : NodeId)
    (limit : Nat) :
    chron.Genuine id (before.appendRequest leadership peer limit) := by
  have hrole := hentitled.led (by rw [hleadership]; rfl)
  have hcanon := hcopied.leader hrole
  have hnext : leadership.nextIndex.getD peer (before.entries.length + 1) ≤
      before.entries.length + 1 := by
    unfold Table.getD
    cases hget : leadership.nextIndex.get? peer with
    | none => simp
    | some index => exact (hcopied.next leadership hleadership peer index hget).2
  have hsegment := hcanon ▸ Standing.segment_appendRequest hnext limit
  exact ⟨hentitled.leader hrole, hsegment.previous, hsegment.joins,
    hsegment.carries⟩

namespace Leadership

variable {leadership : Leadership} {peer other : NodeId} {appended : Appended}
  {next last index : Nat}

/-- What a leader believes of a peer is what it believed, or what the peer has
said. -/
theorem heed_matchIndex (hget : (leadership.heed peer appended next
      last).matchIndex.get? other = some index) :
    leadership.matchIndex.get? other = some index ∨
      other = peer ∧ appended.succeeded = true ∧
        index = min appended.lastLogIndex last := by
  unfold heed at hget
  dsimp only at hget
  split at hget
  · rename_i hsucceeded
    simp only [Node.Leadership.progress, Node.Leadership.acknowledge,
      Table.get?_insert, Table.getD] at hget
    split at hget
    · rename_i heq
      subst heq
      rw [Option.some.injEq] at hget
      cases hold : leadership.matchIndex.get? other with
      | none =>
          rw [hold] at hget
          refine Or.inr ⟨rfl, hsucceeded, ?_⟩
          simp only [Option.getD_none, Nat.zero_max] at hget
          exact hget.symm
      | some matched =>
          rw [hold, Option.getD_some] at hget
          rcases Nat.le_total (min appended.lastLogIndex last) matched with
            hle | hle
          · exact Or.inl (by rw [← hget, Nat.max_eq_left hle])
          · exact Or.inr ⟨rfl, hsucceeded, by rw [← hget, Nat.max_eq_right hle]⟩
    · exact Or.inl hget
  · exact Or.inl hget

/-- A peer is tried where it was tried, further back, or behind what it is
believed to hold. -/
theorem heed_nextIndex (hget : (leadership.heed peer appended next
      last).nextIndex.get? other = some index) :
    leadership.nextIndex.get? other = some index ∨ other = peer ∧
      (index ≤ max 1 next ∨ ∃ matched, (leadership.heed peer appended next
        last).matchIndex.get? peer = some matched ∧ index = matched + 1) := by
  unfold heed at hget ⊢
  dsimp only at hget ⊢
  split at hget
  · rename_i hsucceeded
    rw [if_pos hsucceeded]
    simp only [Node.Leadership.progress, Table.get?_insert] at hget ⊢
    split at hget
    · rename_i heq
      exact Or.inr ⟨heq, Or.inr ⟨_, if_pos trivial,
        (Option.some.inj hget).symm⟩⟩
    · exact Or.inl hget
  · simp only [Node.Leadership.retreat, Table.get?_insert] at hget
    split at hget
    · rename_i heq
      refine Or.inr ⟨heq, Or.inl ?_⟩
      rw [← Option.some.inj hget]
      omega
    · exact Or.inl hget

end Leadership

omit [StateMachine σ] in
/-- The beliefs of a leader that has heeded an answer stay within its log. -/
theorem Copied.heed (hcopied : Copied chron id before) {leadership : Leadership}
    (hleadership : before.leadership = some leadership) {peer : NodeId}
    {appended : Appended} {next : Nat}
    (hnext : leadership.nextIndex.get? peer = some next) :
    (∀ other index, (leadership.heed peer appended next
        before.entries.length).nextIndex.get? other = some index →
      other ∈ before.peers ∧ index ≤ before.entries.length + 1) ∧
    (∀ other index, (leadership.heed peer appended next
        before.entries.length).matchIndex.get? other = some index →
      other ∈ before.peers ∧ index ≤ before.entries.length) := by
  obtain ⟨hpeer, htried⟩ := hcopied.next leadership hleadership peer next hnext
  have hmatched : ∀ other index, (leadership.heed peer appended next
        before.entries.length).matchIndex.get? other = some index →
      other ∈ before.peers ∧ index ≤ before.entries.length := by
    intro other index hget
    rcases Leadership.heed_matchIndex hget with hold | ⟨rfl, -, rfl⟩
    · exact hcopied.matched leadership hleadership other index hold
    · exact ⟨hpeer, Nat.min_le_right _ _⟩
  refine ⟨fun other index hget => ?_, hmatched⟩
  rcases Leadership.heed_nextIndex hget with hold | ⟨rfl, hle | ⟨matched,
    hbelieved, rfl⟩⟩
  · exact hcopied.next leadership hleadership other index hold
  · exact ⟨hpeer, by omega⟩
  · exact ⟨hpeer, by have := (hmatched _ _ hbelieved).2; omega⟩

/-- The log of a member after a move is made of beginnings of leaders'
logs. -/
theorem Copied.follows_move (hmatching : Matching members chron)
    (hentitled : Entitled members chron id before)
    (hcopied : Copied chron id before) (haddressed : Addressed chron input)
    (hgrown : chron.Grown (chron.note id after))
    (hmove : Move steady input before after) :
    (chron.note id after).Follows after.entries := by
  have hkept : after.entries = before.entries →
      (chron.note id after).Follows after.entries := fun heq =>
    heq ▸ hcopied.follows.mono hgrown
  cases hmove with
  | extend operation hrole =>
      intro place entry hentry
      rcases Nat.lt_or_ge place before.entries.length with hplace | hplace
      · rw [List.getElem?_append_left hplace] at hentry
        obtain ⟨hwon, hinit⟩ := hcopied.follows.mono hgrown place entry hentry
        refine ⟨hwon, ?_⟩
        rwa [List.take_append_of_le_length hplace]
      · rw [List.getElem?_append_right hplace, List.getElem?_singleton] at hentry
        split at hentry
        · rename_i hzero
          obtain rfl := Option.some.inj hentry
          constructor
          · rw [hgrown.winner _ _ (hentitled.leader hrole)]
            simp
          · rw [Chronicle.note_canon, if_pos hrole, Function.update_self]
            exact List.take_prefix _ _
        · simp at hentry
  | merge hinput hterm hrole hprevious hjoin hspliced =>
      obtain ⟨sender, hgenuine⟩ := haddressed _ hinput
      have hrejoined := hgenuine.rejoined hcopied.follows
        (hmatching.follows _) hprevious hjoin hspliced
      exact (hcopied.follows.rejoined (hmatching.follows _) hrejoined).mono
        hgrown
  | _ => exact hkept rfl

/-- What a member sends after a move is genuine. -/
theorem Copied.posts_move (hentitled : Entitled members chron id before)
    (hcopied : Copied chron id before)
    (hmove : Move steady input before after) {peer : NodeId}
    {request : AppendRequest} (hmail : .append peer request ∈ after.mail) :
    chron.Genuine id request := by
  cases hmove with
  | stand _ =>
      rcases List.mem_append.mp hmail with hold | hnew
      · exact hcopied.posts peer request hold
      · obtain ⟨_, -, heq⟩ := List.mem_map.mp hnew
        simp at heq
  | post other limit hleadership =>
      rcases List.mem_append.mp hmail with hold | hnew
      · exact hcopied.posts peer request hold
      · rw [List.mem_singleton] at hnew
        obtain ⟨-, rfl⟩ := Outbound.append.inj hnew
        exact hcopied.appendRequest hentitled hleadership _ _
  | _ => exact hcopied.posts peer request hmail

/-- The beliefs of a leader stay within its log. -/
theorem Copied.beliefs_move (hentitled : Entitled members chron id before)
    (hcopied : Copied chron id before)
    (hmove : Move steady input before after) {leadership : Leadership}
    (hleadership : after.leadership = some leadership) :
    (∀ peer index, leadership.nextIndex.get? peer = some index →
      peer ∈ after.peers ∧ index ≤ after.entries.length + 1) ∧
    (∀ peer index, leadership.matchIndex.get? peer = some index →
      peer ∈ after.peers ∧ index ≤ after.entries.length) := by
  have hold : before.leadership = some leadership →
      (∀ peer index, leadership.nextIndex.get? peer = some index →
        peer ∈ before.peers ∧ index ≤ before.entries.length + 1) ∧
      (∀ peer index, leadership.matchIndex.get? peer = some index →
        peer ∈ before.peers ∧ index ≤ before.entries.length) := fun hsome =>
    ⟨hcopied.next leadership hsome, hcopied.matched leadership hsome⟩
  cases hmove with
  | adopt _ _ _ => simp at hleadership
  | yield _ => simp at hleadership
  | retire _ => simp at hleadership
  | stand hnone =>
      simp only at hleadership
      rw [hnone] at hleadership
      simp at hleadership
  | lead _ _ =>
      obtain rfl := Option.some.inj hleadership
      simp only [Standing.newLeadership, Table.get?_ofKeys]
      refine ⟨fun peer index hget => ?_, fun peer index hget => ?_⟩ <;>
        split at hget
      · rename_i hpeer
        exact ⟨hpeer, Nat.le_of_eq (Option.some.inj hget).symm⟩
      · simp at hget
      · rename_i hpeer
        exact ⟨hpeer, (Option.some.inj hget) ▸ Nat.zero_le _⟩
      · simp at hget
  | extend operation hrole =>
      obtain ⟨hnext, hmatched⟩ := hold hleadership
      simp only [List.length_append, List.length_singleton]
      refine ⟨fun peer index hget => ?_, fun peer index hget => ?_⟩
      · obtain ⟨hpeer, hle⟩ := hnext peer index hget
        exact ⟨hpeer, by omega⟩
      · obtain ⟨hpeer, hle⟩ := hmatched peer index hget
        exact ⟨hpeer, by omega⟩
  | merge _ _ hrole _ _ _ =>
      have hleads := hentitled.led (by
        simp only at hleadership
        rw [hleadership]
        rfl)
      simp [hrole] at hleads
  | heed _ _ _ hsome hnext =>
      obtain rfl := Option.some.inj hleadership
      exact hcopied.heed hsome hnext
  | @round begun hsome =>
      obtain rfl := Option.some.inj hleadership
      exact ⟨hcopied.next begun hsome, hcopied.matched begun hsome⟩
  | _ => exact hold hleadership

theorem Copied.risen_move (hcopied : Copied chron id before)
    (hmove : Move steady input before after) (hrole : after.role ≠ .follower) :
    0 < after.term := by
  cases hmove with
  | adopt _ _ _ => simp at hrole
  | yield _ => simp at hrole
  | stand _ => exact Nat.succ_pos _
  | lead hcandidate _ => exact hcopied.risen (by simp [hcandidate])
  | _ => exact hcopied.risen hrole

theorem Copied.move (hmatching : Matching members chron)
    (hentitled : Entitled members chron id before)
    (hcopied : Copied chron id before) (haddressed : Addressed chron input)
    (hgrown : chron.Grown (chron.note id after))
    (hmove : Move steady input before after) :
    Copied (chron.note id after) id after where
  follows := hcopied.follows_move hmatching hentitled haddressed hgrown hmove
  leader hrole := by
    rw [Chronicle.note_canon, if_pos hrole, Function.update_self]
  risen := hcopied.risen_move hmove
  next _ hleadership := (hcopied.beliefs_move hentitled hmove hleadership).1
  matched _ hleadership := (hcopied.beliefs_move hentitled hmove hleadership).2
  posts _ _ hmail := (hcopied.posts_move hentitled hmove hmail).mono hgrown

omit [StateMachine σ] in
theorem Copied.congr {next : Chronicle σ} (hcopied : Copied chron id before)
    (hwinner : next.winner = chron.winner) (hcanon : next.canon = chron.canon) :
    Copied next id before := by
  have hgrown := Chronicle.Grown.of_eq hwinner hcanon
  exact { hcopied with
    follows := hcopied.follows.mono hgrown
    leader := fun hrole => hcanon ▸ hcopied.leader hrole
    posts := fun peer request hmail =>
      (hcopied.posts peer request hmail).mono hgrown }

theorem Matching.move (helections : Elections members chron)
    (hmatching : Matching members chron) (hid : id ∈ members)
    (hbrings : chron.scene.Brings id input)
    (hmove : Move steady input (chron.standing id) after) :
    Matching members (chron.note id after) := by
  have hentitled := helections.entitled id hid
  have hgrown := hmatching.grown helections hid hmove
  have hmoved := (hmatching.copied id hid).move hmatching hentitled
    (hmatching.addressed_of_brings hbrings) hgrown hmove
  refine ⟨fun other hother => ?_, fun term => ?_, fun term hnobody => ?_, ?_,
    fun sender receiver request hsent =>
      (hmatching.requests sender receiver request hsent).mono hgrown⟩
  · by_cases heq : other = id
    · subst heq
      rwa [Chronicle.note_standing_self]
    · rw [Chronicle.note_standing_of_ne _ heq]
      exact (hmatching.copied other hother).other
        (helections.entitled other hother) heq
        (fun hrole hwon => hentitled.winner_kept helections hmove hrole hwon)
        hgrown
  · by_cases hleads : after.role = .leader ∧ term = after.term
    · obtain ⟨hrole, rfl⟩ := hleads
      rw [hmoved.leader hrole]
      exact hmoved.follows
    · have hsame : (chron.note id after).canon term = chron.canon term := by
        rw [Chronicle.note_canon]
        split
        · rename_i hrole
          exact Function.update_of_ne (fun heq => hleads ⟨hrole, heq⟩) ..
        · rfl
      rw [hsame]
      exact (hmatching.follows term).mono hgrown
  · rw [Chronicle.note_winner] at hnobody
    rw [Chronicle.note_canon]
    split at hnobody
    · rename_i hrole
      rw [if_pos hrole]
      by_cases heq : term = after.term
      · subst heq
        rw [Function.update_self] at hnobody
        simp at hnobody
      · rw [Function.update_of_ne heq] at hnobody ⊢
        exact hmatching.unwon term hnobody
    · rename_i hrole
      rw [if_neg hrole]
      exact hmatching.unwon term hnobody
  · rw [Chronicle.note_winner]
    split
    · rename_i hrole
      have hpos := hmoved.risen (by simp [hrole])
      rw [Function.update_of_ne (by omega)]
      exact hmatching.unborn
    · exact hmatching.unborn

omit [StateMachine σ] in
/-- What changes neither victories nor logs needs the members and the requests
to be looked at only. -/
theorem Matching.same (hmatching : Matching members chron) {next : Chronicle σ}
    (hwinner : next.winner = chron.winner) (hcanon : next.canon = chron.canon)
    (hcopied : ∀ id ∈ members, Copied chron id (next.standing id))
    (hrequests : ∀ sender receiver request,
      ⟨sender, receiver, .append request⟩ ∈ next.scene.sent →
        chron.Genuine sender request) :
    Matching members next ∧ chron.Grown next := by
  have hgrown := Chronicle.Grown.of_eq hwinner hcanon
  refine ⟨⟨fun id hid => (hcopied id hid).congr hwinner hcanon, fun term => ?_,
    fun term hnobody => ?_, hwinner ▸ hmatching.unborn,
    fun sender receiver request hsent =>
      (hrequests sender receiver request hsent).mono hgrown⟩, hgrown⟩
  · rw [hcanon]
    exact (hmatching.follows term).mono hgrown
  · rw [hcanon]
    exact hmatching.unwon term (hwinner ▸ hnobody)

theorem Matching.step (helections : Elections members chron)
    (hmatching : Matching members chron) {next : Chronicle σ}
    (hstep : chron.Step steady members next) :
    Matching members next ∧ chron.Grown next := by
  cases hstep with
  | @move id input after hid hbrings hmove =>
      exact ⟨hmatching.move helections hid hbrings hmove,
        hmatching.grown helections hid hmove⟩
  | @mail id hid =>
      have hcopied := hmatching.copied id hid
      refine hmatching.same rfl rfl (fun other hother => ?_)
        (fun sender receiver request hsent => ?_)
      · by_cases heq : other = id
        · subst heq
          simp only [Chronicle.standing, Scene.send_standings, Scene.put_self]
          exact { hcopied with posts := by simp [Standing.emptied] }
        · simp only [Chronicle.standing, Scene.send_standings,
            Scene.put_of_ne heq]
          exact hmatching.copied other hother
      · rcases List.mem_append.mp hsent with hold | hnew
        · exact hmatching.requests _ _ _ hold
        · obtain ⟨message, hmessage, heq⟩ := List.mem_filterMap.mp hnew
          cases message with
          | append peer given =>
              simp only [Outbound.envelope?, Option.some.injEq,
                Envelope.mk.injEq, Packet.append.injEq] at heq
              obtain ⟨rfl, rfl, rfl⟩ := heq
              rw [(helections.entitled id hid).id_eq]
              exact hcopied.posts _ _ hmessage
          | vote peer given => simp [Outbound.envelope?] at heq
          | publish session event recipient =>
              simp [Outbound.envelope?] at heq
  | @vouch id sender request response hid hsent hvouches =>
      exact hmatching.same rfl rfl hmatching.copied
        (fun asker receiver asked hasked => hmatching.requests _ _ _
          ((List.mem_append.mp hasked).resolve_right (by simp)))
  | @confirm id sender request response hid hsent hconfirms =>
      exact hmatching.same rfl rfl hmatching.copied
        (fun asker receiver asked hasked => hmatching.requests _ _ _
          ((List.mem_append.mp hasked).resolve_right (by simp)))
  | @restart id machine hid =>
      have hcopied := hmatching.copied id hid
      refine hmatching.same rfl rfl (fun other hother => ?_) hmatching.requests
      by_cases heq : other = id
      · subst heq
        simp only [Chronicle.standing, Scene.put_self]
        exact { hcopied with
          leader := by simp [Standing.start]
          risen := by simp [Standing.start]
          next := by simp [Standing.start]
          matched := by simp [Standing.start]
          posts := by simp [Standing.start] }
      · simp only [Chronicle.standing, Scene.put_of_ne heq]
        exact hmatching.copied other hother

omit [StateMachine σ] in
/-- Where no log holds anything yet, every log is made of nothing. -/
theorem Matching.first {scene : Scene σ} (hbegins : scene.Begins members)
    (hempty : ∀ id ∈ members, (scene.standings id).entries = []) :
    Matching members (Chronicle.first scene) where
  copied id hid := by
    obtain ⟨stored, entries, machine, hstanding⟩ := hbegins.begins id hid
    have hnone := hempty id hid
    rw [hstanding] at hnone
    obtain rfl : entries = [] := hnone
    rw [Chronicle.standing, Chronicle.first, hstanding]
    exact {
      follows := .nil _
      leader := by simp [Standing.start]
      risen := by simp [Standing.start]
      next := by simp [Standing.start]
      matched := by simp [Standing.start]
      posts := by simp [Standing.start] }
  follows _ := .nil _
  unwon _ _ := rfl
  unborn := rfl
  requests := by simp [Chronicle.first, hbegins.silent]

end SessionRaft
