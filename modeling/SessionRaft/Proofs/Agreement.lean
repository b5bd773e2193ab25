/-
Everything that is remembered of a cluster goes on to hold, whatever happens
in it.
-/
import SessionRaft.Proofs.CommitSafety

namespace SessionRaft

variable {σ : Type}

section Carry

variable {members : List NodeId} {chron next : Chronicle σ} {id : NodeId}
  {standing : Standing σ}

/-- What a member holds and sends still agrees with what is remembered if that
grew without touching the member's own past. -/
theorem Sworn.carry (hsworn : Sworn members chron id standing)
    (hages : chron.Ages next)
    (hbid : ∀ term, term ≤ standing.term →
      next.bid id term = chron.bid id term)
    (hown : ∀ term, next.taken id term = chron.taken id term ∨
      term = standing.term ∧ (standing.role = .leader →
        next.taken id term = standing.entries.length)) :
    Sworn members next id standing where
  stored_term := hsworn.stored_term
  entries_le := hsworn.entries_le
  taken_term term hpositive := by
    rcases hown term with heq | ⟨rfl, -⟩
    · exact hsworn.taken_term term (heq ▸ hpositive)
    · exact Nat.le_refl _
  bid hrole := by
    rw [hbid _ (Nat.le_refl _)]
    exact hsworn.bid hrole
  led hrole := by
    rcases hown standing.term with heq | ⟨-, hled⟩
    · rw [heq]
      exact hsworn.led hrole
    · exact hled hrole
  matched leadership hleadership peer index hget :=
    Nat.le_trans (hsworn.matched leadership hleadership peer index hget)
      (hages.taken peer _)
  asks peer request hmail := by
    obtain ⟨hreached, hasks⟩ := hsworn.asks peer request hmail
    rw [hbid _ hreached]
    exact ⟨hreached, hasks⟩
  commit := hsworn.commit.mono hages (Nat.le_refl _) rfl
  settled := hsworn.settled
  posts peer request hmail := (hsworn.posts peer request hmail).mono hages

theorem Sworn.congr (hsworn : Sworn members chron id standing)
    (hwinner : next.winner = chron.winner) (hcanon : next.canon = chron.canon)
    (hbid : next.bid = chron.bid) (htaken : next.taken = chron.taken) :
    Sworn members next id standing :=
  hsworn.carry (Chronicle.Ages.of_eq hwinner hcanon htaken)
    (fun _ _ => hbid ▸ rfl) (fun _ => Or.inl (htaken ▸ rfl))

/-- Where terms, logs and victories stay, a member may come to hold more of the
log of its present term's leader. -/
theorem Commitment.same (helections : Elections members chron)
    (hcommitment : Commitment members chron)
    (hballot : next.ballot = chron.ballot) (hwinner : next.winner = chron.winner)
    (hcanon : next.canon = chron.canon) (hbid : next.bid = chron.bid)
    (hterm : ∀ voter, (next.standing voter).term = (chron.standing voter).term)
    (hentries : ∀ voter,
      (next.standing voter).entries = (chron.standing voter).entries)
    (htaken : ∀ voter term, next.taken voter term = chron.taken voter term ∨
      chron.taken voter term ≤ next.taken voter term ∧
        term = (chron.standing voter).term ∧
        next.taken voter term ≤ (chron.canon term).length ∧
        (chron.standing voter).entries.take (next.taken voter term) =
          (chron.canon term).take (next.taken voter term))
    (hsworn : ∀ id ∈ members, Sworn members next id (next.standing id))
    (hasked : ∀ sender receiver request,
      ⟨sender, receiver, .vote request⟩ ∈ next.scene.sent →
        chron.Honest sender request)
    (hconfirmed : ∀ voter receiver appended,
      ⟨voter, receiver, .appendResponse (.ok appended)⟩ ∈ next.scene.sent →
        appended.succeeded = true →
          appended.lastLogIndex ≤ next.taken voter appended.term)
    (hbacked : ∀ sender receiver request,
      ⟨sender, receiver, .append request⟩ ∈ next.scene.sent →
        next.Backed members request.term request.commitIndex) :
    Commitment members next := by
  have hchoosable : ∀ term index, next.Choosable members term index →
      chron.Choosable members term index := by
    rintro term index ⟨hpositive, hown, hmajority⟩
    refine ⟨hpositive, hcanon ▸ hown, hmajority.mono (fun voter _ hvoter => ?_)⟩
    rw [hterm voter] at hvoter
    refine hvoter.elim (fun hindex => ?_) Or.inr
    rcases htaken voter term with heq | ⟨-, rfl, -⟩
    · exact Or.inl (heq ▸ hindex)
    · exact Or.inr (Nat.le_refl _)
  -- Nobody has voted in a term later than the one it is in.
  have hpast : ∀ voter ∈ members, ∀ term later candidate,
      chron.ballot voter later = some candidate → term < later →
      next.taken voter term = chron.taken voter term := by
    intro voter hvoter term later candidate hvoted hlt
    rcases htaken voter term with heq | ⟨-, rfl, -⟩
    · exact heq
    · have hreached := helections.ballot_le hvoter hvoted
      omega
  refine ⟨hsworn, hcanon ▸ hcommitment.canon_le, ?_, ?_, ?_, ?_, ?_, ?_, ?_,
    hconfirmed, hbacked⟩
  · intro voter term
    rw [hcanon]
    rcases htaken voter term with heq | ⟨-, -, hle, -⟩
    · exact heq ▸ hcommitment.taken_le voter term
    · exact hle
  · intro term index hnext later hlt hwon
    rw [hwinner] at hwon
    rw [hcanon]
    exact hcommitment.later term index (hchoosable term index hnext) later hlt
      hwon
  · intro term index hnext voter hvoter hindex
    rw [hentries, hcanon]
    rcases htaken voter term with heq | ⟨-, -, -, htake⟩
    · exact hcommitment.held term index (hchoosable term index hnext) voter
        hvoter (heq ▸ hindex)
    · exact take_eq_of_take_eq htake hindex
  · intro term index hnext voter hvoter later candidate hvoted hlt hindex
    rw [hballot] at hvoted
    rw [hpast voter hvoter term later candidate hvoted hlt] at hindex
    rw [hbid, hcanon]
    exact hcommitment.voted term index (hchoosable term index hnext) voter
      hvoter later candidate hvoted hlt hindex
  · intro candidate term
    rw [hbid]
    exact (hcommitment.bids candidate term).mono
      (Chronicle.Grown.of_eq hwinner hcanon)
  · intro voter hvoter term later candidate hvoted hlt hpositive
    rw [hballot] at hvoted
    rw [hpast voter hvoter term later candidate hvoted hlt] at hpositive
    rw [hterm]
    exact hcommitment.stood voter hvoter term later candidate hvoted hlt
      hpositive
  · intro sender receiver request hsent
    obtain ⟨hreached, hindex, hlast⟩ := hasked sender receiver request hsent
    exact ⟨hterm sender ▸ hreached, hbid ▸ hindex, hbid ▸ hlast⟩

/-- An answer changes how far a member has taken over its leader's log only if
it tells of success. -/
theorem Chronicle.credit_cases (chron : Chronicle σ) (id : NodeId)
    (response : AppendResponse) (voter : NodeId) (term : Nat) :
    chron.credit id response voter term = chron.taken voter term ∨
      ∃ appended, response = .ok appended ∧ appended.succeeded = true ∧
        voter = id ∧ term = appended.term ∧
        chron.taken voter term ≤ appended.lastLogIndex ∧
        chron.credit id response voter term = appended.lastLogIndex := by
  rcases response with ⟨reached, _ | _, index, round⟩ | kind
  · exact Or.inl rfl
  · by_cases hne : voter = id ∧ term = reached
    · obtain ⟨rfl, rfl⟩ := hne
      have hcredit : chron.credit voter (.ok ⟨term, true, index, round⟩) voter
          term = max (chron.taken voter term) index := mark_self ..
      rcases Nat.le_total (chron.taken voter term) index with hle | hle
      · exact Or.inr ⟨_, rfl, rfl, rfl, rfl, hle,
          hcredit.trans (Nat.max_eq_right hle)⟩
      · exact Or.inl (hcredit.trans (Nat.max_eq_left hle))
    · exact Or.inl
        (mark_of_ne _ _ (Classical.not_and_iff_not_or_not.mp hne))
  · exact Or.inl rfl

theorem Chronicle.le_credit (chron : Chronicle σ) (id : NodeId)
    {appended : Appended} (hsucceeded : appended.succeeded = true) :
    appended.lastLogIndex ≤
      chron.credit id (.ok appended) id appended.term := by
  obtain ⟨term, succeeded, index, round⟩ := appended
  obtain rfl : succeeded = true := hsucceeded
  simp only [Chronicle.credit, mark_self]
  exact Nat.le_max_right _ _

theorem Chronicle.taken_le_credit (chron : Chronicle σ) (id : NodeId)
    (response : AppendResponse) (voter : NodeId) (term : Nat) :
    chron.taken voter term ≤ chron.credit id response voter term := by
  rcases chron.credit_cases id response voter term with
    heq | ⟨_, -, -, -, -, hle, heq⟩
  · exact Nat.le_of_eq heq.symm
  · rwa [heq]

/-- A member that has answered a request holds what it has confirmed. -/
theorem Commitment.confirm (helections : Elections members chron)
    (hmatching : Matching members chron)
    (hcommitment : Commitment members chron) (hid : id ∈ members)
    {sender : NodeId} {request : AppendRequest} {response : AppendResponse}
    (hsent : ⟨sender, id, .append request⟩ ∈ chron.scene.sent)
    (hconfirms : (chron.standing id).Confirms request response) :
    Commitment members { chron with
      scene := chron.scene.send [⟨id, sender, .appendResponse response⟩]
      taken := chron.credit id response } := by
  have hcopied := hmatching.copied id hid
  have htaken : ∀ voter term,
      chron.credit id response voter term = chron.taken voter term ∨
      chron.taken voter term ≤ chron.credit id response voter term ∧
        term = (chron.standing voter).term ∧
        chron.credit id response voter term ≤ (chron.canon term).length ∧
        (chron.standing voter).entries.take
            (chron.credit id response voter term) =
          (chron.canon term).take (chron.credit id response voter term) := by
    intro voter term
    rcases chron.credit_cases id response voter term with heq |
      ⟨appended, rfl, hsucceeded, rfl, rfl, hle, heq⟩
    · exact Or.inl heq
    · obtain ⟨hterm, -, -, hsuccess⟩ := hconfirms appended rfl
      obtain ⟨hsame, hindex, hjoined⟩ := hsuccess hsucceeded
      obtain ⟨-, hlength, hagree⟩ :=
        (hmatching.requests _ _ _ hsent).joined hcopied.follows
          (hmatching.follows _) hjoined.1 hjoined.2.1 List.prefix_rfl
          hjoined.2.2
      rw [hsame, ← hterm, ← hindex] at hlength hagree
      rw [heq]
      exact Or.inr ⟨hle, hterm, hlength, hagree⟩
  have hle := chron.taken_le_credit id response
  refine hcommitment.same helections rfl rfl rfl rfl (fun _ => rfl)
    (fun _ => rfl) htaken (fun other hother => ?_)
    (fun asker receiver asked hasked => ?_)
    (fun voter receiver appended hconfirmed hsucceeded => ?_)
    (fun leader receiver posted hposted => ?_)
  · refine (hcommitment.sworn other hother).carry ⟨.of_eq rfl rfl, hle⟩
      (fun _ _ => rfl) (fun term => ?_)
    rcases htaken other term with heq | ⟨hgrew, rfl, hlength, -⟩
    · exact Or.inl heq
    · refine Or.inr ⟨rfl, fun hrole => ?_⟩
      have hled := (hcommitment.sworn other hother).led hrole
      rw [(hmatching.copied other hother).leader hrole] at hlength
      exact Nat.le_antisymm hlength (hled ▸ hgrew)
  · exact hcommitment.asked _ _ _
      ((List.mem_append.mp hasked).resolve_right (by simp))
  · rcases List.mem_append.mp hconfirmed with hold | hnew
    · exact Nat.le_trans (hcommitment.confirmed _ _ _ hold hsucceeded)
        (hle voter _)
    · rw [List.mem_singleton, Envelope.mk.injEq,
        Packet.appendResponse.injEq] at hnew
      obtain ⟨rfl, -, rfl⟩ := hnew
      exact chron.le_credit voter hsucceeded
  · exact (hcommitment.backed _ _ _
      ((List.mem_append.mp hposted).resolve_right (by simp))).mono
      ⟨.of_eq rfl rfl, hle⟩

/-- A member that sends off its mail tells what it holds. -/
theorem Commitment.mail (helections : Elections members chron)
    (hcommitment : Commitment members chron) (hid : id ∈ members) :
    Commitment members { chron with
      scene := (chron.scene.put id (chron.standing id).emptied).send
        (chron.standing id).posted } := by
  have hsworn := hcommitment.sworn id hid
  have hname := (helections.entitled id hid).id_eq
  have hstanding : ∀ other,
      Scene.standings ((chron.scene.put id (chron.standing id).emptied).send
        (chron.standing id).posted) other = chron.standing other ∨
      other = id ∧
        Scene.standings ((chron.scene.put id (chron.standing id).emptied).send
          (chron.standing id).posted) other = (chron.standing id).emptied := by
    intro other
    by_cases heq : other = id
    · subst heq
      exact Or.inr ⟨rfl, Scene.put_self ..⟩
    · exact Or.inl (Scene.put_of_ne heq _)
  have hposted : ∀ envelope ∈ (chron.standing id).posted,
      ∃ message ∈ (chron.standing id).mail,
        message.envelope? id = some envelope := by
    intro envelope henvelope
    rw [Standing.posted, hname] at henvelope
    exact List.mem_filterMap.mp henvelope
  refine hcommitment.same helections rfl rfl rfl rfl (fun other => ?_)
    (fun other => ?_) (fun _ _ => Or.inl rfl) (fun other hother => ?_)
    (fun asker receiver asked hasked => ?_)
    (fun voter receiver appended hconfirmed hsucceeded => ?_)
    (fun leader receiver request hrequest => ?_)
  · rcases hstanding other with heq | ⟨rfl, heq⟩
    · rw [Chronicle.standing, heq]
    · rw [Chronicle.standing, heq]
      rfl
  · rcases hstanding other with heq | ⟨rfl, heq⟩
    · rw [Chronicle.standing, heq]
    · rw [Chronicle.standing, heq]
      rfl
  · refine Sworn.congr (?_ : Sworn members chron other _) rfl rfl rfl rfl
    rcases hstanding other with heq | ⟨rfl, heq⟩
    · rw [Chronicle.standing, heq]
      exact hcommitment.sworn other hother
    · rw [Chronicle.standing, heq]
      exact { hsworn with
        asks := by simp [Standing.emptied]
        settled := ⟨hsworn.settled.applied, hsworn.settled.committed⟩
        posts := by simp [Standing.emptied] }
  · rcases List.mem_append.mp hasked with hold | hnew
    · exact hcommitment.asked _ _ _ hold
    · obtain ⟨message, hmessage, heq⟩ := hposted _ hnew
      cases message with
      | vote peer request =>
          simp only [Outbound.envelope?, Option.some.injEq, Envelope.mk.injEq,
            Packet.vote.injEq] at heq
          obtain ⟨rfl, rfl, rfl⟩ := heq
          obtain ⟨hreached, hindex, hterm⟩ := hsworn.asks _ _ hmessage
          exact ⟨hreached, hindex, hterm⟩
      | append peer request => simp [Outbound.envelope?] at heq
      | publish session event recipient => simp [Outbound.envelope?] at heq
  · rcases List.mem_append.mp hconfirmed with hold | hnew
    · exact hcommitment.confirmed _ _ _ hold hsucceeded
    · obtain ⟨message, -, heq⟩ := hposted _ hnew
      cases message <;> simp [Outbound.envelope?] at heq
  · refine Chronicle.Backed.mono (?_ : chron.Backed members _ _)
      (.of_eq rfl rfl rfl)
    rcases List.mem_append.mp hrequest with hold | hnew
    · exact hcommitment.backed _ _ _ hold
    · obtain ⟨message, hmessage, heq⟩ := hposted _ hnew
      cases message with
      | append peer given =>
          simp only [Outbound.envelope?, Option.some.injEq, Envelope.mk.injEq,
            Packet.append.injEq] at heq
          obtain ⟨rfl, rfl, rfl⟩ := heq
          exact hsworn.posts _ _ hmessage
      | vote peer given => simp [Outbound.envelope?] at heq
      | publish session event recipient => simp [Outbound.envelope?] at heq

/-- A member that starts again with its log has what it had stored. -/
theorem Sworn.restart (hsworn : Sworn members chron id standing) (machine : σ) :
    Sworn members chron id
      (.start id standing.members standing.stored standing.entries machine) where
  stored_term := rfl
  entries_le entry hentry := by
    rw [show (Standing.start _ _ standing.stored _ machine).term =
      standing.term from hsworn.stored_term]
    exact hsworn.entries_le entry hentry
  taken_term term hpositive := by
    rw [show (Standing.start _ _ standing.stored _ machine).term =
      standing.term from hsworn.stored_term]
    exact hsworn.taken_term term hpositive
  bid := by simp [Standing.start]
  led := by simp [Standing.start]
  matched := by simp [Standing.start]
  asks := by simp [Standing.start]
  commit := Or.inl rfl
  settled := ⟨Nat.le_refl _, Nat.zero_le _⟩
  posts := by simp [Standing.start]

theorem Commitment.restart (helections : Elections members chron)
    (hcommitment : Commitment members chron) (hid : id ∈ members)
    (machine : σ) :
    Commitment members { chron with
      scene := chron.scene.put id (.start id (chron.standing id).members
        (chron.standing id).stored (chron.standing id).entries machine) } := by
  refine hcommitment.same helections rfl rfl rfl rfl (fun other => ?_)
    (fun other => ?_) (fun _ _ => Or.inl rfl) (fun other hother => ?_)
    hcommitment.asked hcommitment.confirmed (fun _ _ _ hsent =>
      (hcommitment.backed _ _ _ hsent).mono (.of_eq rfl rfl rfl))
  · by_cases heq : other = id
    · subst heq
      simp only [Chronicle.standing, Scene.put_self]
      exact (hcommitment.sworn other hid).stored_term
    · simp only [Chronicle.standing, Scene.put_of_ne heq]
  · by_cases heq : other = id
    · subst heq
      simp only [Chronicle.standing, Scene.put_self]
      rfl
    · simp only [Chronicle.standing, Scene.put_of_ne heq]
  · refine Sworn.congr (?_ : Sworn members chron other _) rfl rfl rfl rfl
    by_cases heq : other = id
    · subst heq
      simp only [Chronicle.standing, Scene.put_self]
      exact (hcommitment.sworn other hid).restart machine
    · simp only [Chronicle.standing, Scene.put_of_ne heq]
      exact hcommitment.sworn other hother

end Carry

variable [StateMachine σ] {members : List NodeId} {chron : Chronicle σ}
  {steady : Prop} {id : NodeId} {input : Input} {after : Standing σ}

theorem Noted.commitment_note
    (hnoted : Noted members chron steady id input after) :
    Commitment members (chron.note id after) where
  sworn other hother := by
    by_cases heq : other = id
    · subst heq
      rw [Chronicle.note_standing_self]
      exact hnoted.sworn_move
    · rw [Chronicle.note_standing_of_ne _ heq]
      refine (hnoted.commitment.sworn other hother).carry hnoted.ages
        (fun term hterm => hnoted.bid_eq hterm)
        (fun term => Or.inl ?_)
      rcases chron.note_taken_cases id after other term with hsame | ⟨rfl, -⟩
      · exact hsame
      · exact absurd rfl heq
  canon_le term entry hentry :=
    hnoted.canon_le_note term hnoted.entries_le_move entry hentry
  taken_le := hnoted.taken_le_note
  later := hnoted.later_note
  held := hnoted.held_note
  voted := hnoted.voted_note
  bids := hnoted.bids_note
  stood := hnoted.stood_note
  asked sender receiver request hsent :=
    hnoted.asked_note (hnoted.commitment.asked sender receiver request hsent)
  confirmed voter receiver appended hsent hsucceeded :=
    Nat.le_trans (hnoted.commitment.confirmed voter receiver appended hsent
      hsucceeded) (hnoted.taken_le voter _)
  backed sender receiver request hsent :=
    (hnoted.commitment.backed sender receiver request hsent).mono
      hnoted.ages

theorem Commitment.step (hsteady : steady) (helections : Elections members chron)
    (hmatching : Matching members chron)
    (hcommitment : Commitment members chron) {next : Chronicle σ}
    (hstep : chron.Step steady members next) : Commitment members next := by
  cases hstep with
  | move hid hbrings hmove =>
      exact (Noted.mk helections hmatching hcommitment hid hbrings hsteady
        hmove).commitment_note
  | mail hid => exact hcommitment.mail helections hid
  | @vouch id sender request response hid hsent hvouches =>
      refine hcommitment.same helections rfl rfl rfl rfl (fun _ => rfl)
        (fun _ => rfl) (fun _ _ => Or.inl rfl)
        (fun other hother => (hcommitment.sworn other hother).congr rfl rfl rfl
          rfl)
        (fun asker receiver asked hasked => hcommitment.asked _ _ _
          ((List.mem_append.mp hasked).resolve_right (by simp)))
        (fun voter receiver appended hconfirmed => hcommitment.confirmed _ _ _
          ((List.mem_append.mp hconfirmed).resolve_right (by simp)))
        (fun leader receiver posted hposted => Chronicle.Backed.mono
          (hcommitment.backed _ _ _
            ((List.mem_append.mp hposted).resolve_right (by simp)))
          (.of_eq rfl rfl rfl))
  | confirm hid hsent hconfirms =>
      exact hcommitment.confirm helections hmatching hid hsent hconfirms
  | restart hid => exact hcommitment.restart helections hid _

/-- All that is remembered agrees with all that is there. -/
structure Agreed (members : List NodeId) (chron : Chronicle σ) : Prop where
  elections : Elections members chron
  matching : Matching members chron
  commitment : Commitment members chron

theorem Agreed.step (hsteady : steady) (hagreed : Agreed members chron)
    {next : Chronicle σ} (hstep : chron.Step steady members next) :
    Agreed members next ∧ chron.Ages next := by
  obtain ⟨helections, hmatching, hcommitment⟩ := hagreed
  obtain ⟨hnext, hgrown⟩ := hmatching.step helections hstep
  refine ⟨⟨(helections.step hstep).1, hnext,
    hcommitment.step hsteady helections hmatching hstep⟩, hgrown, ?_⟩
  cases hstep with
  | move hid hbrings hmove =>
      exact (Noted.mk helections hmatching hcommitment hid hbrings hsteady
        hmove).taken_le
  | @confirm id sender request response hid hsent hconfirms =>
      exact chron.taken_le_credit id response
  | _ => exact fun _ _ => Nat.le_refl _

theorem Agreed.steps (hsteady : steady) (hagreed : Agreed members chron)
    {next : Chronicle σ} (hsteps : chron.Steps steady members next) :
    Agreed members next ∧ chron.Ages next := by
  induction hsteps with
  | refl => exact ⟨hagreed, .refl chron⟩
  | tail _ hstep ih =>
      obtain ⟨hmiddle, hages⟩ := ih
      obtain ⟨hnext, hstepAges⟩ := hmiddle.step hsteady hstep
      exact ⟨hnext, hages.trans hstepAges⟩

omit [StateMachine σ] in
/-- Where no log holds anything yet, there is nothing that could be chosen. -/
theorem Agreed.first {scene : Scene σ} (hbegins : scene.Begins members)
    (hempty : ∀ id ∈ members, (scene.standings id).entries = []) :
    Agreed members (Chronicle.first scene) where
  elections := .first hbegins
  matching := .first hbegins hempty
  commitment := by
    have hnothing : ∀ term index,
        ¬(Chronicle.first scene).Choosable members term index := by
      intro term index hchoosable
      have hbounds :=
        Chronicle.index_bounds hchoosable.own hchoosable.positive
      simp only [Chronicle.first, List.length_nil] at hbounds
      omega
    have hsworn : ∀ id ∈ members, Sworn members (Chronicle.first scene) id
        ((Chronicle.first scene).standing id) := by
      intro id hid
      obtain ⟨stored, entries, machine, hstanding⟩ := hbegins.begins id hid
      have hnone := hempty id hid
      rw [hstanding] at hnone
      obtain rfl : entries = [] := hnone
      rw [Chronicle.standing, Chronicle.first, hstanding]
      exact {
        stored_term := rfl
        entries_le := by simp [Standing.start]
        taken_term := by simp
        bid := by simp [Standing.start]
        led := by simp [Standing.start]
        matched := by simp [Standing.start]
        asks := by simp [Standing.start]
        commit := Or.inl rfl
        settled := ⟨Nat.le_refl _, Nat.zero_le _⟩
        posts := by simp [Standing.start] }
    exact {
      sworn := hsworn
      canon_le := by simp [Chronicle.first]
      taken_le := by simp [Chronicle.first]
      later := fun term index h => absurd h (hnothing term index)
      held := fun term index h => absurd h (hnothing term index)
      voted := fun term index h => absurd h (hnothing term index)
      bids := fun _ _ => .nil _
      stood := by simp [Chronicle.first]
      asked := by simp [Chronicle.first, hbegins.silent]
      confirmed := by simp [Chronicle.first, hbegins.silent]
      backed := by simp [Chronicle.first, hbegins.silent] }

end SessionRaft
