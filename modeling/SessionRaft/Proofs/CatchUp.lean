/-
A leader brings a peer up to date.  The two exchange nothing but requests with
entries and the answers to them.  Every refusal makes the leader try the peer
further back, up to a point where their logs agree; from there on every
request brings the peer entries that it had not, until it holds the leader's
whole log.
-/
import SessionRaft.ByteProgram
import SessionRaft.Proofs.Exchanges

namespace SessionRaft

open FaithfulLog

/-- A leader and a peer, and what goes to and fro between them. -/
structure Dialogue (L σ : Type) where
  leader : Node L σ
  peer : Node L σ
  /-- The requests for the peer that are on their way. -/
  due : List AppendRequest
  /-- What the peer has answered so far. -/
  answers : List AppendResponse

namespace Dialogue

variable {L σ : Type} [LogStore L]

/-- The leader sends the peer what it is due. -/
def start (leader peer : Node L σ) : Dialogue L σ where
  leader := leader.take.2.2
  peer := peer
  due := (leader.createAppend? peer.id).toList
  answers := []

variable [StateMachine σ]

/-- The peer takes the next request, the leader takes the peer's answer, and
sends what it has for the peer then. -/
def exchange (dialogue : Dialogue L σ) : Except Overflow (Dialogue L σ) :=
  match dialogue.due with
  | [] => .ok dialogue
  | request :: due => do
      let ((response, _), peer) := dialogue.peer.handleAppend request
      let (_, leader) ←
        dialogue.leader.handleAppendResponse dialogue.peer.id response
      return {
        leader := leader.take.2.2
        peer := peer
        due := due ++ leader.queuedFor dialogue.peer.id
        answers := dialogue.answers ++ [response] }

/-- The dialogue after so many exchanges. -/
def after : Nat → Dialogue L σ → Except Overflow (Dialogue L σ)
  | 0, dialogue => .ok dialogue
  | count + 1, dialogue => do (← dialogue.exchange).after count

/-- How many exchanges the dialogue may still take, if the peer is believed to
hold the log up to `matched`: refusals for the distance from there to the place
where the peer is tried, and acceptances for the rest of the log. -/
def debt (dialogue : Dialogue L σ) (last matched : Nat) : Nat :=
  match dialogue.due with
  | [] => 0
  | request :: _ =>
      (request.prevLogIndex - matched) + (matched - request.prevLogIndex) +
        (last - matched) + 1

variable [FaithfulLog L]

/-- What holds throughout: the leader goes on leading with the same log, and
the peer's log agrees with it as far as the leader believes. -/
structure Engaged (dialogue : Dialogue L σ) (canon : List LogEntry)
    (term next matched : Nat) : Prop where
  pursues : dialogue.leader.Pursues canon dialogue.peer.id next matched
  leads : dialogue.leader.term = term
  idle : dialogue.leader.queuedFor dialogue.peer.id = []
  trails : dialogue.peer.Trails canon
  behind : dialogue.peer.term ≤ term
  agrees : (entries dialogue.peer.log).take matched = canon.take matched
  within : matched ≤ canon.length
  polite : ∀ response ∈ dialogue.answers,
    ∃ appended, response = .ok appended
  due : dialogue.due = [] ∧ matched = canon.length ∨
    ∃ request, dialogue.due = [request] ∧
      Node.Offers canon term next request

variable {dialogue : Dialogue L σ} {canon : List LogEntry}
  {term next matched : Nat}

omit [FaithfulLog L] in
theorem exchange_eq {request : AppendRequest} {response : AppendResponse}
    {restart outcome : Bool} {leader peer : Node L σ}
    (hdue : dialogue.due = [request])
    (hanswer : dialogue.peer.handleAppend request =
      ((response, restart), peer))
    (hhandle : dialogue.leader.handleAppendResponse dialogue.peer.id response =
      .ok (outcome, leader)) :
    dialogue.exchange = .ok {
      leader := leader.take.2.2
      peer := peer
      due := leader.queuedFor dialogue.peer.id
      answers := dialogue.answers ++ [response] } := by
  unfold Dialogue.exchange
  simp only [hdue, hanswer, hhandle]
  rfl

/-- What the two come to by a request that was answered and an answer that was
heeded. -/
theorem Engaged.goesOn (hengaged : dialogue.Engaged canon term next matched)
    {request : AppendRequest} {appended : Appended} {restart outcome : Bool}
    {leader peer : Node L σ} {tried held : Nat}
    (hdue : dialogue.due = [request])
    (hanswer : dialogue.peer.handleAppend request =
      ((.ok appended, restart), peer))
    (hhandle : dialogue.leader.handleAppendResponse dialogue.peer.id
      (.ok appended) = .ok (outcome, leader))
    (hreports : dialogue.peer.Reports peer canon request appended.succeeded
      appended.lastLogIndex)
    (hterm : request.term = term)
    (hpursues : leader.Pursues canon dialogue.peer.id tried held)
    (hleads : leader.term = dialogue.leader.term)
    (hagrees : (entries peer.log).take held = canon.take held)
    (hwithin : held ≤ canon.length)
    (hqueued : leader.queuedFor dialogue.peer.id = [] ∧ held = canon.length ∨
      ∃ another, leader.queuedFor dialogue.peer.id = [another] ∧
        Node.Offers canon term tried another) :
    ∃ after, dialogue.exchange = .ok after ∧
      after.Engaged canon term tried held ∧
      after.peer.id = dialogue.peer.id ∧
      after.due = leader.queuedFor dialogue.peer.id := by
  refine ⟨_, exchange_eq hdue hanswer hhandle, ⟨?_, hleads.trans hengaged.leads,
    rfl, hreports.trails, Nat.le_of_eq (hreports.term.trans hterm), hagrees,
    hwithin, fun response hresponse => ?_, hqueued⟩, hreports.id, rfl⟩
  · simp only [hreports.id]
    exact ⟨hpursues.role, hpursues.sound, hpursues.log, hpursues.batch,
      hpursues.bound, hpursues.beliefs⟩
  · rcases List.mem_append.mp hresponse with hold | hnew
    · exact hengaged.polite response hold
    · exact ⟨appended, List.mem_singleton.mp hnew⟩

/-- A refusal brings the place where the peer is tried nearer to where the two
logs agree. -/
theorem Engaged.refused (hengaged : dialogue.Engaged canon term next matched)
    (hword : canon.length ≤ wordMax) {request : AppendRequest}
    (hdue : dialogue.due = [request])
    (hoffers : Node.Offers canon term next request) {index : Nat}
    {peer : Node L σ}
    (hanswer : dialogue.peer.handleAppend request =
      ((.ok ⟨request.term, false, index, request.round⟩, true), peer))
    (hreports : dialogue.peer.Reports peer canon request false index) :
    ∃ after tried, dialogue.exchange = .ok after ∧
      after.Engaged canon term tried matched ∧
      after.peer.id = dialogue.peer.id ∧
      after.debt canon.length matched ≤
        dialogue.debt canon.length matched - 1 := by
  have hprevious := hoffers.segment.previous
  obtain ⟨hlt, hbound⟩ := hreports.refusal rfl
  have hheld := hbound matched hengaged.within hengaged.agrees
  obtain ⟨outcome, leader, another, hhandle, hpursues, hleads, hqueued,
    hretries⟩ := hengaged.pursues.refused hengaged.idle
      ⟨request.term, false, index, request.round⟩
      (hoffers.term.trans hengaged.leads.symm) rfl
      (Nat.lt_of_lt_of_le hlt (Nat.le_trans hprevious hword)) rfl
  rw [hengaged.leads] at hretries
  dsimp only at hpursues hretries
  obtain ⟨after, hexchange, hafter, hid, hnext⟩ := hengaged.goesOn hdue
    hanswer hhandle hreports hoffers.term hpursues hleads
    (hreports.keeps matched hengaged.agrees) hengaged.within
    (Or.inr ⟨another, hqueued, hretries⟩)
  refine ⟨after, _, hexchange, hafter, hid, ?_⟩
  have htried := hretries.previous
  have hfirst := hoffers.previous
  simp only [debt, hnext, hqueued, hdue]
  omega

/-- An acceptance takes the peer a batch further than it was known to be. -/
theorem Engaged.accepted (hengaged : dialogue.Engaged canon term next matched)
    {request : AppendRequest} (hdue : dialogue.due = [request])
    (hoffers : Node.Offers canon term next request) {index : Nat}
    {peer : Node L σ}
    (hanswer : dialogue.peer.handleAppend request =
      ((.ok ⟨request.term, true, index, request.round⟩, true), peer))
    (hreports : dialogue.peer.Reports peer canon request true index) :
    ∃ after tried held, dialogue.exchange = .ok after ∧
      after.Engaged canon term tried held ∧
      after.peer.id = dialogue.peer.id ∧
      after.debt canon.length held ≤
        dialogue.debt canon.length matched - 1 := by
  have hwithin := hengaged.within
  obtain ⟨hindex, hagree⟩ := hreports.success rfl
  have hlength : index ≤ canon.length := by
    have hprevious := hoffers.segment.previous
    have hcarries := hoffers.segment.carries.length_le
    rw [List.length_drop] at hcarries
    omega
  obtain ⟨outcome, leader, hhandle, hpursues, hleads, hqueued⟩ :=
    hengaged.pursues.advances hengaged.idle
      ⟨request.term, true, index, request.round⟩
      (hoffers.term.trans hengaged.leads.symm) rfl hwithin hlength rfl
  dsimp only at hpursues hqueued
  obtain ⟨held, hheld⟩ : ∃ held, held = max matched index := ⟨_, rfl⟩
  rw [← hheld] at hpursues hqueued
  have hagrees : (entries peer.log).take held = canon.take held := by
    rcases Nat.le_total matched index with hle | hle
    · rwa [hheld, Nat.max_eq_right hle]
    · rw [hheld, Nat.max_eq_left hle]
      exact hreports.keeps matched hengaged.agrees
  obtain ⟨after, hexchange, hafter, hid, hnext⟩ := hengaged.goesOn hdue
    hanswer hhandle hreports hoffers.term hpursues hleads hagrees (by omega)
    (by
      rcases hqueued with ⟨heq, hnone⟩ | ⟨-, another, hsome, hretries⟩
      · exact Or.inl ⟨hnone, heq⟩
      · exact Or.inr ⟨another, hsome, hengaged.leads ▸ hretries⟩)
  refine ⟨after, _, _, hexchange, hafter, hid, ?_⟩
  rcases hqueued with ⟨-, hnone⟩ | ⟨hlt, another, hsome, hretries⟩
  · simp [debt, hnext, hnone]
  · have hprior := hretries.previous
    have hbrings : request.prevLogIndex < canon.length →
        0 < request.entries.length :=
      fun hbefore => List.length_pos_of_ne_nil (hoffers.brings hbefore)
    simp only [debt, hnext, hsome, hdue]
    omega

/-- An exchange keeps what holds throughout and leaves fewer to come. -/
theorem Engaged.exchange (hengaged : dialogue.Engaged canon term next matched)
    (hcanon : Numbered canon) (hword : canon.length ≤ wordMax) :
    ∃ after tried held, dialogue.exchange = .ok after ∧
      after.Engaged canon term tried held ∧
      after.peer.id = dialogue.peer.id ∧
      after.debt canon.length held ≤
        dialogue.debt canon.length matched - 1 := by
  rcases hengaged.due with ⟨hdue, -⟩ | ⟨request, hdue, hoffers⟩
  · refine ⟨dialogue, next, matched, by rw [Dialogue.exchange, hdue], hengaged,
      rfl, ?_⟩
    simp [debt, hdue]
  obtain ⟨succeeded, index, peer, hanswer, hreports⟩ :=
    hengaged.trails.handleAppend hcanon hoffers.segment
      (hoffers.term ▸ hengaged.behind)
  cases succeeded with
  | false =>
      obtain ⟨after, tried, hafter⟩ :=
        hengaged.refused hword hdue hoffers hanswer hreports
      exact ⟨after, tried, matched, hafter⟩
  | true => exact hengaged.accepted hdue hoffers hanswer hreports

/-- Any number of exchanges keeps what holds throughout, and each leaves fewer
to come. -/
theorem Engaged.after (hengaged : dialogue.Engaged canon term next matched)
    (hcanon : Numbered canon) (hword : canon.length ≤ wordMax) (count : Nat) :
    ∃ later tried held, dialogue.after count = .ok later ∧
      later.Engaged canon term tried held ∧
      later.peer.id = dialogue.peer.id ∧
      later.debt canon.length held ≤
        dialogue.debt canon.length matched - count := by
  induction count generalizing dialogue next matched with
  | zero =>
      exact ⟨dialogue, next, matched, rfl, hengaged, rfl, Nat.le_refl _⟩
  | succ count ih =>
      obtain ⟨middle, tried, held, hexchange, hmiddle, hid, hfewer⟩ :=
        hengaged.exchange hcanon hword
      obtain ⟨later, last, known, hafter, hlater, hsame, hleft⟩ := ih hmiddle
      refine ⟨later, last, known, ?_, hlater, hsame.trans hid, by omega⟩
      rw [Dialogue.after, hexchange]
      exact hafter

omit [StateMachine σ] in
/-- When nothing is left to come, the peer holds the whole log. -/
theorem Engaged.settled (hengaged : dialogue.Engaged canon term next matched)
    (hdebt : dialogue.debt canon.length matched = 0) :
    dialogue.due = [] ∧ matched = canon.length := by
  rcases hengaged.due with hdone | ⟨request, hdue, -⟩
  · exact hdone
  · simp [debt, hdue] at hdebt

/-- A peer that a leader may have to bring up to date: its log goes on to match
the leader's, and agrees with it as far as the peer has committed and as far as
the leader believes.  What the leader believes is within its log, as it is for
every leader at all times. -/
structure Lags (leader peer : Node L σ) (leadership : Leadership) : Prop where
  valid : leader.config.validate = .ok ()
  leads : leader.role = .leader
  sound : Sound leader.log
  word : IsWord (LogStore.lastIndex leader.log)
  notes : leader.leadership = some leadership
  within : leadership.Within (LogStore.lastIndex leader.log)
  tracked : (leadership.nextIndex.get? peer.id).isSome
  term : peer.term ≤ leader.term
  stores : Sound peer.log
  writable : Node.Writable peer.log
  matching : LogsMatch (entries peer.log) (entries leader.log)
  committed : (entries peer.log).take peer.commitIndex =
    (entries leader.log).take peer.commitIndex
  believed : (entries peer.log).take (leadership.matchIndex.getD peer.id 0) =
    (entries leader.log).take (leadership.matchIndex.getD peer.id 0)

variable {leader peer : Node L σ} {leadership : Leadership}

omit [StateMachine σ] in
theorem Lags.start (hlags : Lags leader peer leadership) :
    ∃ next, (start leader peer).Engaged (entries leader.log) leader.term next
      (leadership.matchIndex.getD peer.id 0) ∧
      (start leader peer).debt (entries leader.log).length
        (leadership.matchIndex.getD peer.id 0) ≤
          2 * (entries leader.log).length + 1 := by
  have hlast := lastIndex_eq_length hlags.sound
  have hwithin := hlags.within
  rw [hlast] at hwithin
  obtain ⟨next, hnext⟩ := Option.isSome_iff_exists.mp hlags.tracked
  obtain ⟨matched, hmatched⟩ : ∃ matched,
      leadership.matchIndex.get? peer.id = some matched := by
    rw [← Option.isSome_iff_exists, hwithin.paired]
    exact hlags.tracked
  have hknown : leadership.matchIndex.getD peer.id 0 = matched := by
    rw [Table.getD, hmatched, Option.getD_some]
  have hbelieved := hlags.believed
  rw [hknown] at hbelieved ⊢
  have hheld := hwithin.matched peer.id matched hmatched
  have hbatch : 0 < leader.config.maxEntriesPerAppend :=
    Config.maxEntriesPerAppend_pos hlags.valid
  have hpursues : leader.Pursues (entries leader.log) peer.id next matched :=
    ⟨hlags.leads, hlags.sound, rfl, hbatch,
      hwithin.next peer.id next hnext, leadership, hlags.notes, hnext,
      hmatched⟩
  obtain ⟨request, hcreate, hoffers⟩ := hpursues.offers
  have hdue : (Dialogue.start leader peer).due = [request] := by
    simp [Dialogue.start, hcreate]
  have hprevious := hoffers.segment.previous
  refine ⟨next, ⟨⟨hpursues.role, hpursues.sound, hpursues.log, hpursues.batch,
    hpursues.bound, hpursues.beliefs⟩, rfl, rfl, ⟨hlags.stores, hlags.writable,
    hlags.matching, hlags.committed⟩, hlags.term, hbelieved, hheld, ?_,
    Or.inr ⟨request, hdue, hoffers⟩⟩, ?_⟩
  · simp [Dialogue.start]
  · simp only [debt, hdue]
    omega

/-- A leader and a peer whose log goes on to match the leader's exchange
requests and answers only so many times.  Then the leader has nothing more to
send and knows the peer to hold its whole log, and the peer does.  All the time
the leader leads in the same term, and the peer's answers are no errors. -/
theorem catches_up (hlags : Lags leader peer leadership) :
    (∃ count final, count ≤ 2 * LogStore.lastIndex leader.log + 1 ∧
      (start leader peer).after count = .ok final ∧ final.due = [] ∧
      (∃ notes, final.leader.leadership = some notes ∧
        notes.matchIndex.get? peer.id =
          some (LogStore.lastIndex leader.log)) ∧
      entries final.leader.log = entries leader.log ∧
      entries leader.log <+: entries final.peer.log) ∧
    ∀ count, ∃ stage, (start leader peer).after count = .ok stage ∧
      stage.leader.role = .leader ∧ stage.leader.term = leader.term ∧
      ∀ response ∈ stage.answers, ∃ appended, response = .ok appended := by
  have hlast := lastIndex_eq_length hlags.sound
  have hnumbered : Numbered (entries leader.log) := numbered hlags.sound
  have hword := hlags.word
  rw [hlast] at hword ⊢
  have hfits : (entries leader.log).length ≤ wordMax :=
    Nat.le_sub_one_of_lt hword
  obtain ⟨next, hengaged, hbound⟩ := hlags.start
  refine ⟨?_, fun count => ?_⟩
  · obtain ⟨final, tried, held, hafter, hfinal, hid, hleft⟩ :=
      hengaged.after hnumbered hfits (2 * (entries leader.log).length + 1)
    obtain ⟨hdone, rfl⟩ := hfinal.settled (by omega)
    obtain ⟨notes, hnotes, -, hmatched⟩ := hfinal.pursues.beliefs
    rw [hid] at hmatched
    refine ⟨_, final, Nat.le_refl _, hafter, hdone, ⟨notes, hnotes, hmatched⟩,
      hfinal.pursues.log, ?_⟩
    have hagrees := hfinal.agrees
    rw [List.take_length] at hagrees
    exact hagrees ▸ List.take_prefix _ _
  · obtain ⟨stage, _, _, hafter, hstage, -⟩ :=
      hengaged.after hnumbered hfits count
    exact ⟨stage, hafter, hstage.pursues.role, hstage.leads, hstage.polite⟩

end Dialogue

namespace Witness

/-- A candidate that has all the votes that it needs, and sends one entry at a
time. -/
def favourite : Node MemoryLog Tally :=
  { member (L := MemoryLog) ⟨[⟨1, 1, .noOp⟩, ⟨1, 2, .noOp⟩, ⟨3, 3, .noOp⟩], 4,
      some 1⟩ Tally.start 1 with
    config := { maxEntriesPerAppend := 1 }
    role := .candidate
    term := 4
    votedFor := some 1
    votes := [1, 2] }

/-- What it believes of its peers once it leads. -/
def outset : Leadership :=
  { favourite.newLeadership with noopIndex := 4, round := 1 }

/-- A peer whose log went another way after the first entry. -/
def straggler : Node MemoryLog Tally :=
  { member (L := MemoryLog) ⟨[⟨1, 1, .noOp⟩, ⟨2, 2, .noOp⟩, ⟨2, 3, .noOp⟩], 2,
      none⟩ Tally.start 2 with
    term := 2
    commitIndex := 1
    lastApplied := 1 }

theorem outset_within : outset.Within 4 :=
  have hwithin : favourite.standing.newLeadership.Within 4 :=
    (Standing.newLeadership_within favourite.standing).mono (by decide)
  ⟨hwithin.next, hwithin.matched, hwithin.paired⟩

/-- The two logs have no entry of one term past the first. -/
theorem straggler_matches : LogsMatch (entries straggler.log)
    (entries favourite.becomeLeader.log) := by
  rintro (_ | _ | _ | place) left right hleft hright hterm
  · rfl
  · obtain rfl := Option.some.inj hleft
    obtain rfl := Option.some.inj hright
    simp at hterm
  · obtain rfl := Option.some.inj hleft
    obtain rfl := Option.some.inj hright
    simp at hterm
  · cases hleft

theorem straggler_lags :
    Dialogue.Lags favourite.becomeLeader straggler outset where
  valid := rfl
  leads := rfl
  sound := by
    show Numbered _
    decide +kernel
  word := by
    show 4 < wordBound
    decide
  notes := rfl
  within := outset_within
  tracked := rfl
  term := by
    show 2 ≤ 4
    decide
  stores := by
    show Numbered _
    decide
  writable _ _ := ⟨fun _ _ => rfl, fun _ => rfl⟩
  matching := straggler_matches
  committed := rfl
  believed := rfl

/-- Within nine exchanges the peer's log is the leader's. -/
theorem catches_up_straggler : ∃ count final, count ≤ 9 ∧
    (Dialogue.start favourite.becomeLeader straggler).after count =
      .ok final ∧
    final.due = [] ∧
    entries favourite.becomeLeader.log <+: entries final.peer.log := by
  obtain ⟨⟨count, final, hcount, hafter, hdue, -, -, hprefix⟩, -⟩ :=
    Dialogue.catches_up straggler_lags
  exact ⟨count, final, hcount, hafter, hdue, hprefix⟩

end Witness

end SessionRaft
