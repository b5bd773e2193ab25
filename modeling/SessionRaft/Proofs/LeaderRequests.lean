/-
What a leader sends to have its log copied.  Its log only grows while it leads;
whatever its peers have answered, a request with entries describes that log,
and its round tells how many broadcasts there were in the term.
-/
import SessionRaft.ByteProgram
import SessionRaft.Proofs.Broadcasts
import SessionRaft.Proofs.CommitRule
import SessionRaft.Proofs.DurableTerms
import SessionRaft.Proofs.Network

namespace SessionRaft

open FaithfulLog

/-! ### A log that only grows -/

namespace Standing

variable {σ : Type} [StateMachine σ] {steady : Prop} {input : Input}
  {before after : Standing σ}

/-- What holds of a node once it has led in a term over some entries.  It does
not ask for votes in that term again, and while it still leads there its log
goes on from those entries. -/
structure Since (standing : Standing σ) (term : Nat)
    (prior : List LogEntry) : Prop where
  stored : term ≤ standing.stored.1
  reached : term ≤ standing.term
  within : standing.term = term → standing.role ≠ .candidate ∧
    (standing.role = .leader → prior <+: standing.entries)

theorem Since.move {term : Nat} {prior : List LogEntry}
    (hsince : before.Since term prior)
    (hmove : Move steady input before after) : after.Since term prior := by
  obtain ⟨hstored, hreached, hwithin⟩ := hsince
  cases hmove with
  | @adopt newer _ hnewer hkept _ =>
      have hlater : term < newer := Nat.lt_of_le_of_lt hreached hnewer
      refine ⟨?_, Nat.le_of_lt hlater, fun hsame =>
        absurd hsame (Nat.ne_of_gt hlater)⟩
      rcases hkept with rfl | ⟨-, rfl⟩
      · exact Nat.le_of_lt hlater
      · exact hstored
  | yield _ => exact ⟨hstored, hreached, fun _ => by simp⟩
  | stand _ =>
      have hlater : term < before.term + 1 := Nat.lt_succ_of_le hreached
      exact ⟨Nat.le_of_lt hlater, Nat.le_of_lt hlater, fun hsame =>
        absurd hsame (Nat.ne_of_gt hlater)⟩
  | grant _ _ _ _ => exact ⟨hreached, hreached, hwithin⟩
  | lead hrole _ =>
      exact ⟨hstored, hreached, fun hsame => absurd hrole (hwithin hsame).1⟩
  | extend _ _ =>
      refine ⟨hstored, hreached, fun hsame => ⟨(hwithin hsame).1,
        fun hrole => ((hwithin hsame).2 hrole).trans (List.prefix_append _ _)⟩⟩
  | merge _ _ hrole _ _ _ =>
      exact ⟨hstored, hreached, fun _ => by simp [hrole]⟩
  | _ => exact ⟨hstored, hreached, hwithin⟩

theorem Since.moves {term : Nat} {prior : List LogEntry}
    (hsince : before.Since term prior)
    (hmoves : Moves steady input before after) : after.Since term prior := by
  induction hmoves with
  | refl => exact hsince
  | tail _ hmove ih => exact ih.move hmove

/-- A leader tries nobody in front of the first entry. -/
def TriesEntries (standing : Standing σ) : Prop :=
  ∀ leadership, standing.leadership = some leadership → ∀ peer index,
    leadership.nextIndex.get? peer = some index → 1 ≤ index

theorem TriesEntries.move (htries : before.TriesEntries)
    (hmove : Move steady input before after) : after.TriesEntries := by
  intro leadership hleadership peer index hindex
  cases hmove with
  | adopt _ _ _ | yield _ | retire _ => simp at hleadership
  | lead _ _ =>
      obtain rfl := Option.some.inj hleadership
      simp only [newLeadership, Table.get?_ofKeys,
        Option.ite_none_right_eq_some, Option.some.injEq] at hindex
      omega
  | heed _ _ _ hsome _ =>
      obtain rfl := Option.some.inj hleadership
      have hold := htries _ hsome peer index
      unfold Leadership.heed at hindex
      dsimp only at hindex
      split at hindex <;>
        simp only [Node.Leadership.progress, Node.Leadership.retreat,
          Node.Leadership.acknowledge, Table.get?_insert] at hindex
      all_goals
        split at hindex
        · rw [← Option.some.inj hindex]
          omega
        · exact hold hindex
  | round hsome =>
      obtain rfl := Option.some.inj hleadership
      exact htries _ hsome peer index hindex
  | _ => exact htries leadership hleadership peer index hindex

theorem TriesEntries.moves (htries : before.TriesEntries)
    (hmoves : Moves steady input before after) : after.TriesEntries := by
  induction hmoves with
  | refl => exact htries
  | tail _ hmove ih => exact ih.move hmove

end Standing

/-! ### Counting broadcasts -/

namespace Node

variable {L σ : Type} [LogStore L] [FaithfulLog L] {input : Input}
  {before after : Node L σ}

/-- A node that starts was told a valid configuration, does not lead and has
nothing to send. -/
theorem start_cases {id : NodeId} {members : List NodeId} {config : Config}
    {log : L} {machine : σ} {fresh : Node L σ} (hlog : Sound log)
    (hstart : Node.start id members config log machine = .ok fresh) :
    fresh.config.validate = .ok () ∧ fresh.leadership = none ∧
      fresh.requests = [] := by
  unfold Node.start at hstart
  split at hstart
  · simp at hstart
  · rename_i hconfig
    rw [loadVote_eq hlog] at hstart
    obtain rfl := Except.ok.inj hstart
    exact ⟨hconfig, rfl, rfl⟩

/-- Whether a node that has dealt with an input has broadcast in a term: it
leads there, it did not just answer one peer, and it has a request for each of
its peers. -/
def broadcasts (after : Node L σ) (input : Input) (term : Nat) : Bool :=
  !input.isAnswer && decide (after.role = .leader ∧ after.term = term) &&
    after.peers.all (fun peer =>
      after.requests.any (fun sent => sent.1 = peer))

omit [FaithfulLog L] in
/-- Every peer is sent a request, so that was a broadcast. -/
theorem Posts.broadcasts (hposts : Posts before.peers before after)
    (hempty : before.requests = []) (hpeers : after.peers = before.peers)
    (hanswer : input.isAnswer = false) (hrole : after.role = .leader) :
    after.broadcasts input after.term = true := by
  obtain ⟨due, hrequests, -⟩ := hposts
  simp [Node.broadcasts, hanswer, hrole, hrequests, hempty, hpeers]

omit [LogStore L] [FaithfulLog L] in
/-- Nobody is sent a request, so that was no broadcast. -/
theorem Mute.broadcasts (hmute : Mute before after)
    (hempty : before.requests = []) (hpeers : after.peers ≠ []) (term : Nat) :
    after.broadcasts input term = false := by
  obtain ⟨peer, others, hsplit⟩ := List.exists_cons_of_ne_nil hpeers
  simp [Node.broadcasts, hmute.requests, hempty, hsplit]

end Node

/-! ### The broadcasts of a life -/

namespace Life

variable {L σ : Type} [LogStore L] [StateMachine σ]

def broadcasts (life : Life L σ) (term time : Nat) : Bool :=
  match life.incidents[time]? with
  | some (.input input) =>
      match (life.node time).step input with
      | .ok (_, after) => after.broadcasts input term
      | .error _ => false
  | _ => false

/-- How often the node has broadcast in a term up to a time. -/
def rounds (life : Life L σ) (term time : Nat) : Nat :=
  (List.range time).countP (life.broadcasts term)

variable {life : Life L σ} {time : Nat} {input : Input} {output : Output}
  {after : Node L σ}

theorem rounds_succ (life : Life L σ) (term time : Nat) :
    life.rounds term (time + 1) =
      life.rounds term time + (life.broadcasts term time).toNat := by
  rw [rounds, List.range_succ, List.countP_append]
  cases hbroadcasts : life.broadcasts term time <;>
    simp [rounds, hbroadcasts]

theorem Takes.broadcasts_eq (htakes : life.Takes time input output after)
    (term : Nat) : life.broadcasts term time = after.broadcasts input term := by
  simp only [broadcasts, htakes.1, htakes.2]

/-- A broadcast is something that the node does about an input. -/
theorem takes_of_broadcasts {term : Nat}
    (hbroadcasts : life.broadcasts term time = true) :
    ∃ input output after, life.Takes time input output after ∧
      after.broadcasts input term = true := by
  unfold broadcasts at hbroadcasts
  split at hbroadcasts
  · rename_i input hincident
    split at hbroadcasts
    · rename_i output after hstep
      exact ⟨input, output, after, ⟨hincident, hstep⟩, hbroadcasts⟩
    · cases hbroadcasts
  · cases hbroadcasts

variable [FaithfulLog L]

/-- Nobody waits for a message that was taken. -/
theorem Valid.requests (hvalid : life.Valid) (time : Nat) :
    (life.node time).requests = [] := by
  obtain ⟨_, _, _, _, _, hlog, hbegins⟩ := hvalid.begins
  refine hvalid.always (fun node => node.requests = []) (Nat.zero_le time)
    (Node.start_cases hlog hbegins).2.2 ?_
  rintro later incident next - - hempty hundergoes
  cases hundergoes with
  | overflow _ | unfit => exact hempty
  | taken _ => rfl
  | refit _ _ => exact hempty
  | restarted hlog _ hstart => exact (Node.start_cases hlog hstart).2.2

theorem Valid.config_valid (hvalid : life.Valid) (time : Nat) :
    (life.node time).config.validate = .ok () := by
  obtain ⟨_, _, _, _, _, hlog, hbegins⟩ := hvalid.begins
  refine (hvalid.always (fun node => node.Proper ∧
    node.config.validate = .ok ()) (Nat.zero_le time)
    ⟨hvalid.proper 0, (Node.start_cases hlog hbegins).1⟩ ?_).2
  rintro later incident next - - ⟨hproper, hconfig⟩ hundergoes
  refine ⟨hproper.undergoes hundergoes, ?_⟩
  cases hundergoes with
  | overflow _ | unfit => exact hconfig
  | taken hstep =>
      obtain ⟨_, hacts⟩ := Node.step_actsTo hstep hproper.sound
      exact hacts.config ▸ hconfig
  | refit _ _ => exact hconfig
  | restarted hlog _ hstart => exact (Node.start_cases hlog hstart).1

/-- What holds of the node since it has led. -/
theorem Valid.since (hvalid : life.Valid) {first time : Nat}
    (hle : first ≤ time) (hrole : (life.node first).role = .leader) :
    (life.node time).standing.Since (life.node first).term
      (entries (life.node first).log) := by
  have hcandid := hvalid.candid first
  have hstored : (life.node first).standing.stored.1 = (life.node first).term :=
    hcandid.active (by simp [Node.standing, hrole])
  refine (hvalid.always (fun node => node.Proper ∧
    node.standing.Since (life.node first).term
      (entries (life.node first).log)) hle ⟨hvalid.proper first,
    Nat.le_of_eq hstored.symm, Nat.le_refl _, fun _ =>
      ⟨by simp [Node.standing, hrole], fun _ => List.prefix_rfl⟩⟩ ?_).2
  rintro later incident next - - ⟨hproper, hsince⟩ hundergoes
  refine ⟨hproper.undergoes hundergoes, ?_⟩
  cases hundergoes with
  | overflow _ | unfit => exact hsince
  | taken hstep =>
      obtain ⟨hkept, hreached, hwithin⟩ := hsince.moves (hproper.moves hstep)
      exact ⟨hkept, hreached, hwithin⟩
  | refit _ hmemory =>
      rw [(Node.refit_same hmemory).1]
      exact hsince
  | @restarted _ log _ _ hlog hmemory hstart =>
      have hkept : (life.node first).term ≤ (stored log).1 := by
        simp only [stored, hmemory]
        exact hsince.stored
      rw [(Network.start_standing hlog hstart).2]
      exact ⟨hkept, hkept, fun _ => by simp [Standing.start]⟩

theorem Valid.triesEntries (hvalid : life.Valid) (time : Nat) :
    (life.node time).standing.TriesEntries :=
  hvalid.always_standing
    (fun _ _ _ _ _ _ hsome => by simp [Standing.start] at hsome)
    Standing.TriesEntries.moves (fun _ htries => htries) time

/-- Before a node leads in a term it has not broadcast there. -/
theorem Valid.rounds_eq_zero (hvalid : life.Valid) {term time : Nat}
    (hle : (life.node time).term ≤ term)
    (hcandidate : (life.node time).term = term →
      (life.node time).role = .candidate) : life.rounds term time = 0 := by
  rw [rounds, List.countP_eq_zero]
  intro earlier hearlier hbroadcasts
  obtain ⟨input, output, after, htakes, hsent⟩ :=
    takes_of_broadcasts hbroadcasts
  simp only [Node.broadcasts, Bool.and_eq_true, decide_eq_true_eq] at hsent
  obtain ⟨⟨-, hrole, hterm⟩, -⟩ := hsent
  have hsince := hvalid.since (List.mem_range.mp hearlier)
    (show (life.node (earlier + 1)).role = .leader by
      rw [htakes.node_succ]
      exact hrole)
  rw [htakes.node_succ] at hsince
  have hsame : (life.node time).term = term :=
    Nat.le_antisymm hle (hterm ▸ hsince.reached)
  exact (hsince.within (hsame.trans hterm.symm)).1 (hcandidate hsame)

/-- The round of a leadership is the number of broadcasts in its term. -/
def Counts (life : Life L σ) (time : Nat) : Prop :=
  ∀ leadership, (life.node time).leadership = some leadership →
    (life.node time).peers ≠ [] →
      leadership.round = life.rounds (life.node time).term time

theorem Takes.peers_eq (hvalid : life.Valid)
    (htakes : life.Takes time input output after) :
    after.peers = (life.node time).peers := by
  have hmoves := (hvalid.proper time).moves htakes.2
  rw [Node.peers, Node.peers, show after.id = _ from hmoves.id_eq,
    show after.members = _ from hmoves.members_eq]
  rfl

theorem Takes.counts (hvalid : life.Valid)
    (htakes : life.Takes time input output after)
    (hcounts : life.Counts time) : life.Counts (time + 1) := by
  intro leadership hleadership hpeers
  have hrole := (hvalid.proper (time + 1)).leads (by rw [hleadership]; rfl)
  rw [rounds_succ, htakes.broadcasts_eq]
  rw [htakes.node_succ] at hleadership hpeers hrole ⊢
  change after.leadership = some leadership at hleadership
  change after.peers ≠ [] at hpeers
  change after.role = .leader at hrole
  change leadership.round = life.rounds after.term time +
    (after.broadcasts input after.term).toNat
  have hempty := hvalid.requests time
  have hsame := htakes.peers_eq hvalid
  -- A leadership that goes on was counted before.
  have hresumes : ∀ count, Node.Resumes count (life.node time) after →
      leadership.round = life.rounds after.term time + count := by
    intro count hresumes
    obtain ⟨hterm, earlier, hearlier, hround⟩ := hresumes leadership hleadership
    rw [hround, hterm, hcounts earlier hearlier (hsame ▸ hpeers)]
  cases Node.step_sends htakes.2 with
  | mute hmute =>
      rw [hmute.broadcasts hempty hpeers]
      exact hresumes 0 hmute.rounds
  | reply hanswer _ _ hreplies =>
      have hnone : after.broadcasts input after.term = false := by
        simp [Node.broadcasts, hanswer]
      rw [hnone]
      exact hresumes 0 hreplies.resumes
  | rounds hanswer hrounds =>
      rw [hrounds.posts.broadcasts hempty hrounds.peers hanswer hrole]
      exact hresumes 1 hrounds.counts
  | begins hanswer hpeers hposts hfirst =>
      obtain ⟨hround, hle, hcandidate⟩ := hfirst leadership hleadership
      rw [hposts.broadcasts hempty hpeers hanswer hrole, hround,
        hvalid.rounds_eq_zero hle hcandidate]
      rfl

theorem Valid.counts (hvalid : life.Valid) (time : Nat) :
    life.Counts time := by
  induction time with
  | zero =>
      obtain ⟨_, _, _, _, _, hlog, hbegins⟩ := hvalid.begins
      intro leadership hleadership
      have hnone : (life.node 0).leadership = none :=
        (Node.start_cases hlog hbegins).2.1
      simp [hnone] at hleadership
  | succ time ih =>
      -- What is no input is no broadcast.
      have hidle : life.broadcasts (life.node time).term time = false →
          (life.node (time + 1)).leadership = (life.node time).leadership →
          (life.node (time + 1)).peers = (life.node time).peers →
          (life.node (time + 1)).term = (life.node time).term →
          life.Counts (time + 1) := by
        intro hquiet hsame hpeers hterm leadership hleadership hothers
        rw [hterm, rounds_succ, hquiet]
        exact ih leadership (hsame ▸ hleadership) (hpeers ▸ hothers)
      cases hincident : life.incidents[time]? with
      | none =>
          have hnext := node_succ_of_end hincident
          exact hidle (by simp only [broadcasts, hincident])
            (by rw [hnext]) (by rw [hnext]) (by rw [hnext])
      | some incident =>
          have hnext := Life.node_succ hincident
          have hundergoes := (life.node time).undergoes
            (hvalid.possible time incident hincident)
          generalize (life.node time).undergo incident = after at *
          cases hundergoes with
          | overflow hstep =>
              exact hidle (by simp only [broadcasts, hincident, hstep])
                (by rw [hnext]) (by rw [hnext]) (by rw [hnext])
          | taken hstep => exact Takes.counts hvalid ⟨hincident, hstep⟩ ih
          | refit _ _ =>
              exact hidle (by simp only [broadcasts, hincident])
                (by rw [hnext]) (by rw [hnext]; rfl) (by rw [hnext])
          | unfit =>
              exact hidle (by simp only [broadcasts, hincident])
                (by rw [hnext]) (by rw [hnext]) (by rw [hnext])
          | restarted hlog _ hstart =>
              intro leadership hleadership
              rw [hnext, (Node.start_cases hlog hstart).2.1] at hleadership
              cases hleadership

/-- What a step queues is due to a peer. -/
theorem Takes.owes (hvalid : life.Valid)
    (htakes : life.Takes time input output after) {receiver : NodeId}
    {request : AppendRequest}
    (hqueued : .append receiver request ∈ after.outbox) :
    after.Owes receiver request ∧ receiver ∈ after.peers := by
  have hempty := hvalid.requests time
  have hposted : ∀ {receivers}, Node.Posts receivers (life.node time) after →
      after.Owes receiver request ∧ receiver ∈ receivers := by
    rintro receivers ⟨due, hrequests, howes⟩
    rw [← Node.mem_requests, hrequests, hempty, List.nil_append,
      List.mem_map] at hqueued
    obtain ⟨peer, hpeer, heq⟩ := hqueued
    obtain ⟨rfl, rfl⟩ := Prod.mk.inj heq
    exact ⟨howes peer, hpeer⟩
  cases Node.step_sends htakes.2 with
  | mute hmute =>
      rw [← Node.mem_requests, hmute.requests, hempty] at hqueued
      cases hqueued
  | reply _ hleadership hknown hreplies =>
      obtain ⟨howes, hreceiver⟩ := hposted hreplies.posts
      obtain rfl := List.mem_singleton.mp hreceiver
      refine ⟨howes, hreplies.peers ▸ ?_⟩
      rw [← hvalid.matches_peers time hleadership,
        (hvalid.within time hleadership).paired]
      exact hknown
  | rounds _ hrounds => exact hrounds.peers ▸ hposted hrounds.posts
  | begins _ hpeers hposts _ => exact hpeers ▸ hposted hposts

/-- A log grows while its node leads in one term, and what the leader keeps of
its peers stays within it.  Whatever the peers answer, every request with
entries that a step queues describes the log of the leader that the step
leaves, in its term, and its round is the number of broadcasts that there were
in the term. -/
theorem requests_describe_log (hvalid : life.Valid) :
    (∀ first later, first ≤ later →
      (life.node first).role = .leader → (life.node later).role = .leader →
      (life.node later).term = (life.node first).term →
      entries (life.node first).log <+: entries (life.node later).log) ∧
    (∀ time leadership, (life.node time).leadership = some leadership →
      ∀ peer ∈ (life.node time).peers, ∃ next matched,
        leadership.nextIndex.get? peer = some next ∧
        leadership.matchIndex.get? peer = some matched ∧
        1 ≤ next ∧ next ≤ LogStore.lastIndex (life.node time).log + 1 ∧
        matched ≤ LogStore.lastIndex (life.node time).log) ∧
    ∀ time input output after receiver request,
      life.Takes time input output after →
      .append receiver request ∈ after.outbox →
      after.role = .leader ∧ receiver ∈ after.peers ∧
        after.Describes request ∧
        request.round = life.rounds after.term (time + 1) := by
  refine ⟨fun first later hle hfirst hlater hterm => ?_,
    fun time leadership hleadership peer hpeer => ?_,
    fun time input output after receiver request htakes hqueued => ?_⟩
  · exact ((hvalid.since hle hfirst).within hterm).2 hlater
  · have hwithin := hvalid.within time hleadership
    obtain ⟨matched, hmatched⟩ := Option.isSome_iff_exists.mp
      ((hvalid.matches_peers time hleadership peer).mpr hpeer)
    obtain ⟨next, hnext⟩ := Option.isSome_iff_exists.mp
      ((hwithin.paired peer).symm.trans (Option.isSome_of_mem hmatched))
    have hfirst := hvalid.triesEntries time leadership.bare
      (by simp [Node.standing, hleadership]) peer next hnext
    exact ⟨next, matched, hnext, hmatched, hfirst,
      hwithin.next peer next hnext, hwithin.matched peer matched hmatched⟩
  · obtain ⟨howes, hreceiver⟩ := htakes.owes hvalid hqueued
    have hproper := hvalid.proper (time + 1)
    have hconfig := hvalid.config_valid (time + 1)
    have hwithin : ∀ leadership, (life.node (time + 1)).leadership =
        some leadership → leadership.Within _ :=
      fun _ hsome => hvalid.within (time + 1) hsome
    have hcounts := hvalid.counts (time + 1)
    unfold Counts at hcounts
    rw [htakes.node_succ] at hproper hconfig hwithin hcounts
    have hcommit : after.commitIndex ≤ LogStore.lastIndex after.log :=
      Nat.le_trans hproper.settled.committed
        (Nat.le_of_eq (lastIndex_eq_length hproper.sound).symm)
    obtain ⟨hdescribes, leadership, hleadership, hround⟩ := howes.describes
      hproper.sound hcommit (Config.maxEntriesPerAppend_pos hconfig) hwithin
    refine ⟨hproper.leads (Option.isSome_of_mem hleadership), hreceiver,
      hdescribes, hround.trans (hcounts leadership hleadership ?_)⟩
    exact List.ne_nil_of_mem hreceiver

end Life

namespace Witness

/-- A node that wins an election and is told by a peer, which lacks its entry,
to try further on. -/
def consulting : Life MemoryLog Tally where
  start := member .empty .start 1
  incidents := [
    .input .electionTimeout,
    .input (.voteResponse 2 (.ok ⟨1, true⟩)),
    .input (.appendResponse 2 (.ok ⟨1, false, 7, 1⟩))]

theorem consulting_valid : consulting.Valid where
  begins := ⟨1, [1, 2, 3], {}, .empty, .start, numbered_nil, rfl⟩
  possible := Life.possible_of_inputs (by simp [consulting])

/-- The peer is sent the whole log, in the round of the first broadcast. -/
theorem requests_describe_log_consulting : consulting.Valid ∧
    ∃ after request,
      consulting.Takes 2 (.appendResponse 2 (.ok ⟨1, false, 7, 1⟩))
        (.advanced false) after ∧
      .append 2 request ∈ after.outbox ∧ request.entries = [⟨1, 1, .noOp⟩] ∧
      request.round = 1 ∧ consulting.rounds 1 3 = 1 := by
  obtain ⟨-, -, hrequests⟩ := Life.requests_describe_log consulting_valid
  have htakes : consulting.Takes 2
      (.appendResponse 2 (.ok ⟨1, false, 7, 1⟩)) (.advanced false) _ :=
    ⟨rfl, rfl⟩
  obtain ⟨-, -, -, hround⟩ := hrequests _ _ _ _ 2 _ htakes (.head _)
  exact ⟨consulting_valid, _, _, htakes, .head _, rfl, rfl, hround.symm⟩

end Witness

end SessionRaft
