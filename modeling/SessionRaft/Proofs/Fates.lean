/-
What becomes of one member of a network, and what it says, while something
happens in the network; and where the answers that reach a node come from.
-/
import SessionRaft.Proofs.ElectionSafety
import SessionRaft.Proofs.Replay

namespace SessionRaft

namespace Network

open FaithfulLog

variable {L σ : Type} [LogStore L] [FaithfulLog L]

theorem sender_of_mem_posted {standing : Standing σ} {envelope : Envelope}
    (hposted : envelope ∈ standing.posted) : envelope.sender = standing.id := by
  obtain ⟨message, -, henvelope⟩ := List.mem_filterMap.mp hposted
  cases message <;>
    simp only [Outbound.envelope?, Option.some.injEq, reduceCtorEq] at henvelope
  all_goals exact henvelope ▸ rfl

theorem mail_of_mem_posted {standing : Standing σ} {sender receiver : NodeId}
    {packet : Packet} (hposted : ⟨sender, receiver, packet⟩ ∈ standing.posted) :
    (∃ request, packet = .vote request) ∨
      ∃ request, packet = .append request ∧
        .append receiver request ∈ standing.mail := by
  obtain ⟨message, hmail, henvelope⟩ := List.mem_filterMap.mp hposted
  cases message with
  | vote peer request =>
      obtain ⟨-, -, rfl⟩ := Envelope.mk.inj (Option.some.inj henvelope)
      exact Or.inl ⟨request, rfl⟩
  | append peer request =>
      obtain ⟨-, rfl, rfl⟩ := Envelope.mk.inj (Option.some.inj henvelope)
      exact Or.inr ⟨request, rfl, hmail⟩
  | publish _ _ _ => simp [Outbound.envelope?] at henvelope

variable [StateMachine σ]

omit [FaithfulLog L] in
/-- What becomes of a network in which a node takes an input. -/
theorem next_of_taken {network : Network L σ} {happening : Happening L σ}
    {id : NodeId} {input : Input} {output : Output} {node : Node L σ}
    (hinput : happening.input? = some (id, input))
    (hstep : (network.nodes id).step input = .ok (output, node)) :
    ∃ reply?, network.next happening = network.settle id node reply? ∧
      ∀ reply, reply? = some reply → ∃ envelope,
        happening = .delivery envelope ∧ envelope.receiver = id ∧
          envelope.reply? output = some reply := by
  cases happening with
  | input other given =>
      obtain ⟨rfl, rfl⟩ := Prod.mk.inj (Option.some.inj hinput)
      exact ⟨none, by simp only [next, handle, hstep], by simp⟩
  | delivery envelope =>
      obtain ⟨rfl, rfl⟩ := Prod.mk.inj (Option.some.inj hinput)
      exact ⟨envelope.reply? output, by simp only [next, handle, hstep],
        fun reply hreply => ⟨envelope, rfl, rfl, hreply⟩⟩
  | refit other log => simp [Happening.input?] at hinput
  | restart other config log machine => simp [Happening.input?] at hinput

omit [FaithfulLog L] in
theorem sent_subset_next (network : Network L σ) (happening : Happening L σ) :
    network.sent ⊆ (network.next happening).sent := by
  have hsettle : ∀ id node reply?,
      network.sent ⊆ (network.settle id node reply?).sent := by
    intro id node reply? envelope hsent
    exact List.mem_append_left _ (List.mem_append_left _ hsent)
  have hhandle : ∀ id input reply?,
      network.sent ⊆ (network.handle id input reply?).sent := by
    intro id input reply?
    unfold handle
    split
    · exact fun _ hsent => hsent
    · exact hsettle _ _ _
  cases happening with
  | input id given => exact hhandle _ _ _
  | delivery envelope => exact hhandle _ _ _
  | refit id log => exact fun _ hsent => hsent
  | restart id config log machine =>
      simp only [next]
      split <;> exact fun _ hsent => hsent

/-- The answer to a request with entries holds of the one who gives it. -/
theorem confirms_of_reply {before after : Node L σ} {delivered : Envelope}
    {output : Output} {voter leader : NodeId} {response : AppendResponse}
    (hlog : Sound before.log)
    (hstep : before.step delivered.input = .ok (output, after))
    (hreply : delivered.reply? output =
      some ⟨voter, leader, .appendResponse response⟩) :
    ∃ request, delivered = ⟨leader, voter, .append request⟩ ∧
      after.standing.Confirms request response := by
  obtain ⟨sender, receiver, packet⟩ := delivered
  cases packet with
  | append request =>
      obtain ⟨given, restart, rfl⟩ :
          ∃ given restart, output = .append given restart :=
        ⟨_, _, (Prod.mk.inj (Except.ok.inj hstep)).1.symm⟩
      simp only [Envelope.reply?, Option.some.injEq, Envelope.mk.injEq,
        Packet.appendResponse.injEq] at hreply
      obtain ⟨rfl, rfl, rfl⟩ := hreply
      exact ⟨request, rfl, Node.step_confirms hstep hlog⟩
  | vote request =>
      have houtput := (Prod.mk.inj (Except.ok.inj hstep)).1
      rw [← houtput] at hreply
      simp [Envelope.reply?] at hreply
  | voteResponse given =>
      have houtput := (Prod.mk.inj (Except.ok.inj hstep)).1
      rw [← houtput] at hreply
      simp [Envelope.reply?] at hreply
  | appendResponse given =>
      obtain ⟨heeded, -, heq⟩ := exists_of_bind hstep
      rw [← (Prod.mk.inj (Except.ok.inj heq)).1] at hreply
      simp [Envelope.reply?] at hreply

omit [StateMachine σ] in
theorem settle_standing_self (network : Network L σ) {id : NodeId}
    {node : Node L σ} (hnode : node.id = id) (reply? : Option Envelope) :
    ((network.settle id node reply?).nodes id).standing =
      node.standing.emptied := by
  have hscene := scene_settle network hnode reply?
  change (network.settle id node reply?).scene.standings id = _
  rw [hscene, Scene.send_standings, Scene.send_standings, Scene.put_self]

omit [StateMachine σ] in
theorem settle_standing_of_ne (network : Network L σ) {id other : NodeId}
    {node : Node L σ} (hnode : node.id = id) (hne : other ≠ id)
    (reply? : Option Envelope) :
    ((network.settle id node reply?).nodes other).standing =
      (network.nodes other).standing := by
  have hscene := scene_settle network hnode reply?
  change (network.settle id node reply?).scene.standings other = _
  rw [hscene, Scene.send_standings, Scene.send_standings,
    Scene.put_of_ne hne]
  rfl

omit [StateMachine σ] in
theorem settle_sent_cases {network : Network L σ} {id : NodeId}
    {node : Node L σ} (hnode : node.id = id) {reply? : Option Envelope}
    {envelope : Envelope}
    (hsent : envelope ∈ (network.settle id node reply?).sent) :
    envelope ∈ network.sent ∨ envelope ∈ node.standing.posted ∨
      reply? = some envelope := by
  change envelope ∈ (network.settle id node reply?).scene.sent at hsent
  rw [scene_settle network hnode] at hsent
  simp only [Scene.send, Scene.put_sent, List.mem_append,
    Option.mem_toList] at hsent
  rcases hsent with (hold | hposted) | hreply
  · exact Or.inl hold
  · exact Or.inr (Or.inl hposted)
  · exact Or.inr (Or.inr hreply)

theorem sender_of_reply {envelope reply : Envelope} {output : Output}
    (hreply : envelope.reply? output = some reply) :
    reply.sender = envelope.receiver := by
  unfold Envelope.reply? at hreply
  split at hreply <;> simp only [Option.some.injEq, reduceCtorEq] at hreply
  all_goals exact hreply ▸ rfl

end Network

namespace Run

open FaithfulLog

variable {L σ : Type} [LogStore L] [StateMachine σ]

def Given (run : Run L σ) (time : Nat) (id : NodeId) (input : Input) : Prop :=
  run.happenings[time]?.bind Happening.input? = some (id, input)

/-- What was sent stays sent. -/
theorem sent_subset (run : Run L σ) {first second : Nat}
    (hle : first ≤ second) :
    (run.network first).sent ⊆ (run.network second).sent := by
  induction hle with
  | refl => exact fun _ hsent => hsent
  | @step second _ ih =>
      intro envelope hsent
      have hsent := ih hsent
      cases hhappening : run.happenings[second]? with
      | none =>
          rw [network_succ_of_end hhappening]
          exact hsent
      | some happening =>
          rw [network_succ hhappening]
          exact Network.sent_subset_next _ _ hsent

variable [FaithfulLog L] {run : Run L σ}

theorem Valid.members_eq (hvalid : run.Valid) (time : Nat) {id : NodeId}
    (hid : id ∈ run.members) :
    (run.standing time id).id = id ∧
      (run.standing time id).members = run.members := by
  obtain ⟨chron, hscene, helections⟩ := hvalid.elections time
  have hentitled := helections.entitled id hid
  rw [Chronicle.standing, hscene] at hentitled
  exact ⟨hentitled.id_eq, hentitled.members_eq⟩

/-- A node that was given an answer was sent it. -/
theorem Valid.answer_sent (hvalid : run.Valid) {time : Nat} {id peer : NodeId}
    {response : AppendResponse}
    (hgiven : run.Given time id (.appendResponse peer response)) :
    ⟨peer, id, .appendResponse response⟩ ∈ (run.network time).sent := by
  obtain ⟨happening, hhappening, hinput⟩ := Option.bind_eq_some_iff.mp hgiven
  obtain ⟨-, hbrings⟩ := Network.brings_of_possible
    (hvalid.possible time happening hhappening) hinput
  rcases hbrings with hlocal | ⟨⟨sender, receiver, packet⟩, hsent, rfl, heq⟩
  · simp [Input.isLocal] at hlocal
  · cases packet <;> simp only [Envelope.input, reduceCtorEq,
      Input.appendResponse.injEq] at heq
    obtain ⟨rfl, rfl⟩ := heq
    exact hsent

/-- What becomes of a node at a time. -/
inductive Fares (run : Run L σ) (time : Nat) (id : NodeId) : Prop where
  /-- It says nothing and stays as it was. -/
  | idle (hstanding : run.standing (time + 1) id = run.standing time id)
      (hsent : ∀ envelope ∈ (run.network (time + 1)).sent,
        envelope.sender = id → envelope ∈ (run.network time).sent)
  /-- It takes an input and sends off what it has to say. -/
  | taken {input : Input} {output : Output} {after : Node L σ}
      (htakes : run.Takes time id input output after)
      (hstanding : run.standing (time + 1) id = after.standing.emptied)
      (hsent : ∀ envelope ∈ (run.network (time + 1)).sent,
        envelope ∈ (run.network time).sent ∨
          envelope ∈ after.standing.posted ∨
          ∃ delivered, run.happenings[time]? = some (.delivery delivered) ∧
            delivered.input = input ∧
            delivered.reply? output = some envelope)
  | restarted {machine : σ}
      (hstanding : run.standing (time + 1) id =
        .start id (run.standing time id).members (run.standing time id).stored
          (run.standing time id).entries machine)
      (hsent : (run.network (time + 1)).sent = (run.network time).sent)

theorem Fares.of_same {time : Nat} {id : NodeId}
    (hsame : run.network (time + 1) = run.network time) :
    run.Fares time id := by
  have hnode : run.node (time + 1) id = run.node time id :=
    congrArg (fun network => network.nodes id) hsame
  exact .idle (congrArg Node.standing hnode)
    (fun envelope hsent _ => hsame ▸ hsent)

/-- What becomes of a node while a node, it or another, has taken an input. -/
theorem Fares.of_settled {time : Nat} {id taker : NodeId} {input : Input}
    {output : Output} {node : Node L σ} {reply? : Option Envelope}
    (htakes : run.Takes time taker input output node) (hnode : node.id = taker)
    (hnext : run.network (time + 1) =
      (run.network time).settle taker node reply?)
    (hreply : ∀ reply, reply? = some reply → ∃ delivered,
      run.happenings[time]? = some (.delivery delivered) ∧
        delivered.receiver = taker ∧ delivered.input = input ∧
        delivered.reply? output = some reply) :
    run.Fares time id := by
  by_cases heq : taker = id
  · subst heq
    refine .taken htakes ?_ (fun envelope hsent => ?_)
    · rw [standing, Run.node, hnext]
      exact Network.settle_standing_self _ hnode reply?
    · rw [hnext] at hsent
      refine (Network.settle_sent_cases hnode hsent).imp_right
        (Or.imp_right (fun hreplied => ?_))
      obtain ⟨delivered, hdelivery, -, hrest⟩ := hreply envelope hreplied
      exact ⟨delivered, hdelivery, hrest⟩
  · refine .idle ?_ (fun envelope hsent hsender => ?_)
    · rw [standing, Run.node, hnext]
      exact Network.settle_standing_of_ne _ hnode (Ne.symm heq) reply?
    · rw [hnext] at hsent
      rcases Network.settle_sent_cases hnode hsent with
        hold | hposted | hreplied
      · exact hold
      · rw [Network.sender_of_mem_posted hposted] at hsender
        exact absurd (hnode.symm.trans hsender) heq
      · obtain ⟨delivered, -, hreceiver, -, hanswer⟩ :=
          hreply envelope hreplied
        rw [Network.sender_of_reply hanswer] at hsender
        exact absurd (hreceiver.symm.trans hsender) heq

/-- What becomes of a node while a node, it or another, is put into its place
without a word. -/
theorem Fares.of_set {time : Nat} {id other : NodeId} {node : Node L σ}
    (hnext : run.network (time + 1) = (run.network time).set other node)
    (hnode : node.standing = run.standing time other ∨
      ∃ machine, node.standing = .start other (run.standing time other).members
        (run.standing time other).stored (run.standing time other).entries
        machine) :
    run.Fares time id := by
  have hsent : ∀ envelope ∈ (run.network (time + 1)).sent,
      envelope.sender = id → envelope ∈ (run.network time).sent := by
    intro envelope hsent _
    rwa [hnext] at hsent
  have hself : run.standing (time + 1) other = node.standing := by
    rw [standing, Run.node, hnext]
    simp only [Network.set, Function.update_self]
  by_cases heq : id = other
  · subst heq
    rcases hnode with hsame | ⟨machine, hstart⟩
    · exact .idle (hself.trans hsame) hsent
    · exact .restarted (hself.trans hstart)
        (congrArg (fun network => network.sent) hnext)
  · refine .idle ?_ hsent
    rw [standing, Run.node, hnext]
    simp only [Network.set, Function.update_of_ne heq, standing, Run.node]

theorem Valid.fares (hvalid : run.Valid) (time : Nat) (id : NodeId) :
    run.Fares time id := by
  cases hhappening : run.happenings[time]? with
  | none => exact .of_same (network_succ_of_end hhappening)
  | some happening =>
      have hnext := network_succ hhappening
      have hpossible := hvalid.possible time happening hhappening
      cases hinput : happening.input? with
      | some taking =>
          obtain ⟨taker, input⟩ := taking
          obtain ⟨htaker, -⟩ := Network.brings_of_possible hpossible hinput
          cases hstep : (run.node time taker).step input with
          | error overflow =>
              apply Fares.of_same
              rw [hnext]
              cases happening <;>
                simp_all [Network.next, Network.handle, Happening.input?, node]
          | ok result =>
              obtain ⟨output, after⟩ := result
              obtain ⟨-, hnode, -⟩ := Network.taken (hvalid.sane time)
                (run.stores_false time) htaker hstep
              obtain ⟨reply?, hsettled, hreply⟩ :=
                Network.next_of_taken hinput hstep
              refine .of_settled ⟨?_, hstep⟩ hnode (hnext.trans hsettled)
                (fun reply heq => ?_)
              · rw [hhappening]
                exact hinput
              · obtain ⟨delivered, rfl, hreceiver, hanswer⟩ := hreply reply heq
                obtain ⟨-, hgiven⟩ := Prod.mk.inj (Option.some.inj hinput)
                exact ⟨delivered, hhappening, hreceiver, hgiven, hanswer⟩
      | none =>
          cases happening with
          | input other given => simp [Happening.input?] at hinput
          | delivery envelope => simp [Happening.input?] at hinput
          | refit other log =>
              obtain ⟨-, -, hmemory⟩ := hpossible
              refine .of_set hnext (Or.inl ?_)
              simp only [standing, node, Node.standing, entries, stored,
                hmemory]
          | restart other config log machine =>
              obtain ⟨-, hlog, hmemory⟩ := hpossible
              cases hstart : Node.start other
                  ((run.network time).nodes other).members config log machine with
              | error error =>
                  apply Fares.of_same
                  rw [hnext]
                  simp only [Network.next, hstart]
              | ok fresh =>
                  simp only [Network.next, hstart] at hnext
                  refine .of_set hnext (Or.inr ⟨machine, ?_⟩)
                  rw [(Network.start_standing hlog hstart).2]
                  simp only [standing, node, Node.standing, entries, stored,
                    hmemory]

/-- Whoever answers a request with entries was sent it before. -/
theorem Valid.answered (hvalid : run.Valid) {voter leader : NodeId}
    {appended : Appended} {time : Nat}
    (hsent : ⟨voter, leader, .appendResponse (.ok appended)⟩ ∈
      (run.network time).sent) :
    ∃ arrival request, arrival < time ∧
      run.happenings[arrival]? =
        some (.delivery ⟨leader, voter, .append request⟩) ∧
      appended.term = (run.node (arrival + 1) voter).term ∧
      appended.round = request.round ∧ request.term ≤ appended.term := by
  induction time with
  | zero =>
      rw [network_zero, hvalid.silent] at hsent
      simp at hsent
  | succ time ih =>
      have hearlier : ⟨voter, leader, .appendResponse (.ok appended)⟩ ∈
          (run.network time).sent → ∃ arrival request, arrival < time + 1 ∧
            run.happenings[arrival]? =
              some (.delivery ⟨leader, voter, .append request⟩) ∧
            appended.term = (run.node (arrival + 1) voter).term ∧
            appended.round = request.round ∧
            request.term ≤ appended.term := by
        intro hold
        obtain ⟨arrival, request, hlt, hrest⟩ := ih hold
        exact ⟨arrival, request, Nat.lt_succ_of_lt hlt, hrest⟩
      cases hvalid.fares time voter with
      | idle _ hold => exact hearlier (hold _ hsent rfl)
      | restarted _ hsame => exact hearlier (hsame ▸ hsent)
      | taken htakes hstanding hnew =>
          rcases hnew _ hsent with
            hold | hposted | ⟨delivered, hdelivery, rfl, hreply⟩
          · exact hearlier hold
          · rcases Network.mail_of_mem_posted hposted with
              ⟨_, hpacket⟩ | ⟨_, hpacket, -⟩
            · simp at hpacket
            · simp at hpacket
          · obtain ⟨-, -, -, -, hvoter, -⟩ := hvalid.takes htakes
            obtain ⟨request, rfl, hconfirms⟩ := Network.confirms_of_reply
              (hvalid.sane time voter hvoter).1 htakes.2 hreply
            obtain ⟨hterm, hround, hle, -⟩ := hconfirms appended rfl
            refine ⟨time, request, Nat.lt_succ_self time, hdelivery, ?_,
              hround, by omega⟩
            exact hterm.trans (congrArg Standing.term hstanding).symm

/-- The state of a member is what the applied entries of its log, one after the
other, make of a fresh one. -/
theorem Valid.replayed (hvalid : run.Valid) {id : NodeId}
    (hid : id ∈ run.members) (time : Nat) :
    (run.standing time id).Settled ∧
      ∃ machine, (Executor.start machine).Commits
        ((run.standing time id).entries.take (run.standing time id).lastApplied)
        (run.standing time id).executor := by
  induction time with
  | zero =>
      obtain ⟨stored, entries, machine, hstanding⟩ :=
        hvalid.scene_begins.begins id hid
      change run.standing 0 id = _ at hstanding
      rw [hstanding]
      exact ⟨⟨Nat.le_refl 0, Nat.zero_le _⟩, machine, .none⟩
  | succ time ih =>
      cases hvalid.fares time id with
      | idle hstanding _ =>
          rw [hstanding]
          exact ih
      | @restarted machine hstanding _ =>
          rw [hstanding]
          exact ⟨⟨Nat.le_refl 0, Nat.zero_le _⟩, machine, .none⟩
      | @taken input output after htakes hstanding _ =>
          obtain ⟨hsettled, machine, hcommits⟩ := ih
          obtain ⟨-, -, hmoves⟩ := Network.taken (hvalid.sane time)
            (run.stores_false time) hid htakes.2
          obtain ⟨hafter, hadvances⟩ := hmoves.settled hsettled
          rw [hstanding]
          refine ⟨⟨hafter.applied, hafter.committed⟩, machine, ?_⟩
          change (Executor.start machine).Commits
            (after.standing.entries.take after.standing.lastApplied)
            after.standing.executor
          rw [hadvances.take_applied hsettled]
          exact hcommits.trans (hmoves.commits hsettled)

end Run

end SessionRaft
