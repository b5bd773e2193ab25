/-
What every turn preserves: the log is numbered and the open sessions were
opened by it, commands stand behind the places of their sessions, lanes know
their backlogs, and as long as nothing is lost and nothing is merged the
commands stay in order.
-/
import SessionRaft.Proofs.Desk

namespace SessionRaft

namespace Desk

variable {loses : Prop} {fails : SessionId → Nat → Prop} {input : Input}
  {desk before after : Desk} {session : SessionId}
  {commands : List PendingCommand}

theorem Issues.extends (hissues : Issues loses desk commands after) :
    desk.Extends after := by
  induction hissues with
  | done => exact ⟨rfl, rfl, rfl, rfl, List.prefix_refl _⟩
  | append now _ _ ih =>
      exact ⟨ih.term, ih.applied, ih.marks, ih.posted,
        (List.prefix_append _ _).trans ih.entries⟩
  | lose _ _ => exact ⟨rfl, rfl, rfl, rfl, List.prefix_refl _⟩

section Founded

theorem Founded.write (hfounded : desk.Founded) (operation : Operation) :
    (desk.write operation).Founded where
  numbered := by
    have hlog : Numbered
        (MemoryLog.append ⟨desk.entries, 0, none⟩ desk.term operation).entries :=
      MemoryLog.numbered_append hfounded.numbered desk.term operation
    exact hlog
  applied_le := by
    have hle := hfounded.applied_le
    simp only [Desk.write, List.length_append]
    omega
  opened := hfounded.opened
  kept := hfounded.kept

theorem Founded.issue (hfounded : desk.Founded) {lanes : SessionId → Lane}
    (hlanes : desk.lanes = some lanes) (request : CommandRequest) (now : Nat) :
    (desk.issue lanes request now).Founded where
  numbered := (hfounded.write _).numbered
  applied_le := (hfounded.write _).applied_le
  opened := hfounded.opened
  kept := by
    intro found hfound other
    obtain rfl := Option.some.inj hfound
    rw [Function.update_apply]
    split
    · rename_i heq
      subst heq
      exact hfounded.kept lanes hlanes request.session
    · exact hfounded.kept lanes hlanes other

theorem Issues.founded (hfounded : desk.Founded)
    (hissues : Issues loses desk commands after) : after.Founded := by
  induction hissues with
  | done => exact hfounded
  | append now hlanes _ ih => exact ih (hfounded.issue hlanes _ now)
  | @lose desk lanes command _ hlanes _ =>
      refine ⟨hfounded.numbered, hfounded.applied_le, hfounded.opened, ?_⟩
      intro found hfound other
      obtain rfl := Option.some.inj hfound
      rw [Function.update_apply]
      split
      · exact Lane.kept_empty other
      · exact hfounded.kept lanes hlanes other

/-- The desk between a submission and the appending of what is due. -/
theorem Founded.submitted (hfounded : desk.Founded)
    {lanes : SessionId → Lane} {lane : Lane} {last : Nat}
    {command : PendingCommand} {submission : Submission}
    (hlanes : desk.lanes = some lanes) (htickets : command.tickets ≠ [])
    (hsubmitted : Lane.Submitted (lanes command.request.session) last command
      lane submission) :
    { desk with lanes := some (Function.update lanes command.request.session
      lane) }.Founded where
  numbered := hfounded.numbered
  applied_le := hfounded.applied_le
  opened := hfounded.opened
  kept := by
    intro found hfound other
    obtain rfl := Option.some.inj hfound
    rw [Function.update_apply]
    split
    · rename_i heq
      subst heq
      exact (hfounded.kept lanes hlanes _).submitted rfl htickets hsubmitted
    · exact hfounded.kept lanes hlanes other

theorem Founded.close (hfounded : desk.Founded) (closed : List SessionId) :
    (desk.close closed).Founded where
  numbered := hfounded.numbered
  applied_le := hfounded.applied_le
  opened session mark hmark := by
    simp only [Desk.close] at hmark
    split at hmark
    · simp at hmark
    · exact hfounded.opened session mark hmark
  kept lanes hlanes session := by
    obtain ⟨earlier, hearlier, rfl⟩ := Option.map_eq_some_iff.mp hlanes
    dsimp only
    split
    · exact Lane.kept_empty session
    · exact hfounded.kept earlier hearlier session

theorem Founded.commit (hfounded : desk.Founded) {entry : LogEntry}
    (hentry : desk.entries[desk.applied]? = some entry) :
    (desk.commit entry).Founded where
  numbered := hfounded.numbered
  applied_le := (List.getElem?_eq_some_iff.mp hentry).1
  opened session mark hmark := by
    have hindex := hfounded.numbered _ entry hentry
    simp only [Desk.commit] at hmark ⊢
    split at hmark
    · rename_i hopens
      exact Nat.le_of_eq (hopens.2.trans hindex)
    · suffices hearlier : ∃ earlier, desk.marks session = some earlier by
        obtain ⟨earlier, hearlier⟩ := hearlier
        exact Nat.le_succ_of_le (hfounded.opened session earlier hearlier)
      split at hmark
      · obtain ⟨earlier, hearlier, -⟩ := Option.map_eq_some_iff.mp hmark
        exact ⟨earlier, hearlier⟩
      · exact ⟨mark, hmark⟩
  kept lanes hlanes session := by
    obtain ⟨earlier, hearlier, rfl⟩ := Option.map_eq_some_iff.mp hlanes
    dsimp only
    cases entry.sequence? session <;>
      exact hfounded.kept earlier hearlier session

end Founded

section Backed

theorem Behind.command {term index now : Nat} {request : CommandRequest}
    (hlt : request.session < index) :
    LogEntry.Behind ⟨term, index, .command request.session request.sequence now
      request.command⟩ := by
  intro session sequence hsequence
  simp only [LogEntry.sequence?] at hsequence
  split at hsequence
  · rename_i heq
    exact heq ▸ hlt
  · simp at hsequence

theorem Issues.backed (hissues : Issues loses desk commands after)
    (hbacked : desk.Backed)
    (hcommands : ∀ command ∈ commands,
      command.request.session < desk.entries.length + 1) : after.Backed := by
  induction hissues with
  | done => exact hbacked
  | @append desk after lanes command commands now _ _ ih =>
      refine ih ⟨fun entry hentry => ?_, hbacked.posted⟩
        (fun later hlater => ?_)
      · rcases List.mem_append.mp hentry with hold | hnew
        · exact hbacked.entries entry hold
        · rw [List.mem_singleton.mp hnew]
          exact Behind.command (hcommands command List.mem_cons_self)
      · refine Nat.lt_of_lt_of_le
          (hcommands later (List.mem_cons_of_mem _ hlater)) ?_
        simp [issue, Desk.write]
  | lose _ _ => exact ⟨hbacked.entries, hbacked.posted⟩

/-- Where commands stand behind the places of their sessions, so do those of
the sessions that may still be opened. -/
theorem Backed.placed (hfounded : desk.Founded) (hbacked : desk.Backed) :
    desk.Placed := by
  rintro session - ⟨sequence, index⟩ hrow
  obtain ⟨place, entry, -, hentry, hsequence, rfl⟩ :=
    (mem_backlog_iff hfounded.numbered).mp hrow
  have hlt := hbacked.entries entry (List.mem_of_getElem? hentry) session
    sequence hsequence
  rwa [hfounded.numbered place entry hentry] at hlt

end Backed

section Placed

/-- Issuing commands of an open session leaves the other backlogs alone. -/
theorem Issues.backlog_of_ne (hissues : Issues loses desk commands after)
    (happlied : desk.applied ≤ desk.entries.length) {owner : SessionId}
    (hcommands : ∀ command ∈ commands, command.request.session = owner)
    (hne : session ≠ owner) : after.backlog session = desk.backlog session := by
  induction hissues with
  | done => rfl
  | @append desk after lanes command commands now _ _ ih =>
      have hnot : ¬command.request.session = session := fun heq =>
        hne (heq.symm.trans (hcommands command List.mem_cons_self))
      rw [ih ?_ (fun later hlater =>
        hcommands later (List.mem_cons_of_mem _ hlater)),
        backlog_issue happlied, if_neg hnot, List.append_nil]
      simp only [issue, Desk.write, List.length_append]
      exact Nat.le_succ_of_le happlied
  | lose _ _ => rfl

/-- What is due after a submission belongs to the session of the command. -/
theorem Founded.due_session (hfounded : desk.Founded)
    {lanes : SessionId → Lane} {lane : Lane} {last : Nat}
    {command : PendingCommand} {submission : Submission}
    (hlanes : desk.lanes = some lanes) (htickets : command.tickets ≠ [])
    (hsubmitted : Lane.Submitted (lanes command.request.session) last command
      lane submission) :
    ∀ due ∈ submission.due, due.request.session = command.request.session := by
  intro due hdue
  obtain ⟨place, hplace⟩ := List.mem_iff_getElem?.mp hdue
  exact ((hfounded.kept lanes hlanes _).due rfl htickets hsubmitted place due
    hplace).1

/-- What is due after a submission to a lane in step follows without a gap on
what was sequenced. -/
theorem Founded.due_sequences (hfounded : desk.Founded)
    {lanes : SessionId → Lane} {lane : Lane} {last : Nat}
    {command : PendingCommand} {submission : Submission}
    (hlanes : desk.lanes = some lanes) (htickets : command.tickets ≠ [])
    (hsubmitted : Lane.Submitted (lanes command.request.session) last command
      lane submission) :
    submission.due.map (fun due => due.request.sequence) =
      List.range' (last + 1) submission.due.length := by
  apply List.ext_getElem (by simp)
  intro place hplace _
  have hsequence := ((hfounded.kept lanes hlanes _).due rfl htickets hsubmitted
    place _ (List.getElem?_eq_getElem (by simpa using hplace))).2.1
  rw [List.getElem_map, hsequence, List.getElem_range']
  omega

end Placed

section Covered

variable {good : SessionId → Nat → Prop}

theorem Issues.covered (hissues : Issues loses desk commands after)
    (hfounded : desk.Founded) (hcovered : desk.Covered good)
    {owner : SessionId} {top : Nat}
    (htop : ∀ lanes, desk.lanes = some lanes →
      (lanes owner).sequenced = some top)
    (hcommands : ∀ command ∈ commands,
      command.request.session = owner ∧ command.request.sequence ≤ top)
    (hgood : good owner desk.term → ¬loses) : after.Covered good := by
  induction hissues with
  | done => exact hcovered
  | @append desk after lanes command commands now hlanes _ ih =>
      obtain ⟨howner, hle⟩ := hcommands command List.mem_cons_self
      refine ih (hfounded.issue hlanes _ now) ?_ ?_
        (fun later hlater => hcommands later (List.mem_cons_of_mem _ hlater))
        hgood
      · intro found hfound session mark hknown hexpects
        obtain rfl := Option.some.inj hfound
        have hbefore := hcovered lanes hlanes session mark hknown
          ((extends_issue desk lanes command.request now).expects hexpects)
        rw [backlog_issue hfounded.applied_le, Function.update_apply]
        by_cases heq : session = command.request.session
        · subst heq
          rw [if_pos rfl, if_pos rfl]
          refine hbefore.append (fun row hrow => ?_) ⟨top, ?_, hle⟩
          · exact Nat.le_succ_of_le (backlog_bound hfounded.numbered row hrow)
          · rw [howner]
            exact htop lanes hlanes
        · rw [if_neg heq, if_neg (Ne.symm heq), List.append_nil]
          exact hbefore
      · intro found hfound
        obtain rfl := Option.some.inj hfound
        rw [Function.update_apply]
        split
        · rw [howner]
          exact htop lanes hlanes
        · exact htop lanes hlanes
  | @lose desk lanes command _ hlanes hloses =>
      obtain ⟨howner, -⟩ := hcommands command List.mem_cons_self
      intro found hfound session mark hknown hexpects
      obtain rfl := Option.some.inj hfound
      rw [Function.update_apply]
      split
      · rename_i heq
        rw [heq, howner] at hknown
        exact absurd hloses (hgood hknown)
      · exact hcovered lanes hlanes session mark hknown hexpects

/-- A submission to a lane, followed by appending what is due. -/
theorem Covered.submit (hcovered : desk.Covered good)
    (hfounded : desk.Founded) {lanes : SessionId → Lane} {mark : Nat}
    {lane : Lane} {command : PendingCommand} {submission : Submission}
    (hlanes : desk.lanes = some lanes) (htickets : command.tickets ≠ [])
    (hsubmitted : Lane.Submitted (lanes command.request.session)
      (max ((lanes command.request.session).sequenced.getD mark) mark)
      command lane submission)
    (hissues : Issues loses
      { desk with
        lanes := some (Function.update lanes command.request.session lane) }
      submission.due after)
    (hgood : good command.request.session desk.term → ¬loses) :
    after.Covered good := by
  obtain ⟨top, htop, hdue⟩ : ∃ top, lane.sequenced = some top ∧
      ∀ due ∈ submission.due,
        due.request.session = command.request.session ∧
          due.request.sequence ≤ top := by
    refine ⟨_, hsubmitted.sequenced_eq, fun due hdue => ?_⟩
    obtain ⟨place, hplace⟩ := List.mem_iff_getElem?.mp hdue
    obtain ⟨hlt, -⟩ := List.getElem?_eq_some_iff.mp hplace
    obtain ⟨howner, hsequence, -⟩ := (hfounded.kept lanes hlanes _).due rfl
      htickets hsubmitted place due hplace
    exact ⟨howner, by omega⟩
  refine hissues.covered (hfounded.submitted hlanes htickets hsubmitted)
    ?_ (fun found hfound => ?_) hdue hgood
  · intro found hfound session other hknown hexpects
    obtain rfl := Option.some.inj hfound
    have hbefore := hcovered lanes hlanes session other hknown hexpects
    rw [Function.update_apply]
    split
    · rename_i heq
      subst heq
      refine hbefore.submitted (fun top htop => ?_) hsubmitted
      rw [htop, Option.getD_some]
      exact Nat.le_max_left _ _
    · exact hbefore
  · obtain rfl := Option.some.inj hfound
    rw [Function.update_self]
    exact htop

end Covered

section Orderly

/-- The commands of the log and the lanes of its leader are in order. -/
structure Orderly (desk : Desk) : Prop where
  founded : desk.Founded
  placed : desk.Placed
  ordered : desk.Ordered
  covered : desk.Covered (fun _ _ => True)
  inStep : desk.InStep

theorem Orderly.agrees (horderly : desk.Orderly) {lanes : SessionId → Lane}
    (hlanes : desk.lanes = some lanes) {mark : Nat}
    (hexpects : desk.Expects session mark) :
    (lanes session).Agrees mark (desk.backlog session) :=
  (horderly.covered lanes hlanes session mark trivial hexpects).agrees
    (horderly.inStep lanes hlanes session mark hexpects)
    (horderly.ordered session mark hexpects)

/-- Where nothing is lost, everything that is due joins the backlog. -/
theorem Issues.backlog_map (hissues : Issues loses desk commands after)
    (hloses : ¬loses) (happlied : desk.applied ≤ desk.entries.length)
    {owner : SessionId}
    (hcommands : ∀ command ∈ commands, command.request.session = owner)
    (session : SessionId) :
    (after.backlog session).map Prod.fst =
      (desk.backlog session).map Prod.fst ++
        if owner = session
        then commands.map (fun command => command.request.sequence)
        else [] := by
  induction hissues with
  | done => simp
  | @append desk after lanes command commands now _ _ ih =>
      rw [ih (Nat.le_trans happlied (by simp [issue, Desk.write]))
        (fun later hlater => hcommands later (List.mem_cons_of_mem _ hlater)),
        backlog_issue happlied, hcommands command List.mem_cons_self]
      split <;> simp
  | lose _ hlost => exact absurd hlost hloses

/-- Where nothing is lost, appending changes nothing but what is in flight. -/
theorem Issues.lanes_eq (hissues : Issues loses desk commands after)
    (hloses : ¬loses) {found : SessionId → Lane}
    (hfound : after.lanes = some found) :
    ∃ lanes, desk.lanes = some lanes ∧ ∀ session,
      (found session).sequenced = (lanes session).sequenced ∧
        (found session).held = (lanes session).held := by
  induction hissues with
  | done => exact ⟨found, hfound, fun _ => ⟨rfl, rfl⟩⟩
  | @append desk after lanes command commands now hlanes _ ih =>
      obtain ⟨issued, hissued, hsame⟩ := ih hfound
      obtain rfl := Option.some.inj hissued
      refine ⟨lanes, hlanes, fun session => ?_⟩
      obtain ⟨hsequenced, hheld⟩ := hsame session
      rw [hsequenced, hheld, Function.update_apply]
      split
      · rename_i heq
        subst heq
        exact ⟨rfl, rfl⟩
      · exact ⟨rfl, rfl⟩
  | lose _ hlost => exact absurd hlost hloses

/-- A submission to a lane in step, followed by appending what is due. -/
theorem Orderly.submit (horderly : desk.Orderly) {lanes : SessionId → Lane}
    {mark : Nat} {lane : Lane} {command : PendingCommand}
    {submission : Submission} (hlanes : desk.lanes = some lanes)
    (hmark : desk.marks command.request.session = some mark)
    (htickets : command.tickets ≠ [])
    (hsubmitted : Lane.Submitted (lanes command.request.session)
      (max ((lanes command.request.session).sequenced.getD mark) mark)
      command lane submission)
    (hissues : Issues loses
      { desk with
        lanes := some (Function.update lanes command.request.session lane) }
      submission.due after) (hloses : ¬loses) :
    after.Ordered ∧ after.InStep := by
  have hexpects : desk.Expects command.request.session mark := Or.inl hmark
  have hagrees := horderly.agrees hlanes hexpects
  rw [hagrees.last_eq] at hsubmitted
  have hstep : lane.InStep (mark +
      (desk.backlog command.request.session).length + submission.due.length) :=
    (horderly.inStep lanes hlanes _ mark hexpects).submitted hsubmitted
  have hdue := horderly.founded.due_sequences hlanes htickets hsubmitted
  have hmap := hissues.backlog_map hloses horderly.founded.applied_le
    (horderly.founded.due_session hlanes htickets hsubmitted)
  have hlength : ∀ session, (after.backlog session).length =
      (desk.backlog session).length +
        if command.request.session = session then submission.due.length
        else 0 := by
    intro session
    have hcount := congrArg List.length (hmap session)
    rw [List.length_map, List.length_append, List.length_map] at hcount
    rw [hcount]
    split <;> simp <;> rfl
  refine ⟨fun session other hother => ?_,
    fun found hfound session other hother => ?_⟩
  · have hbefore : desk.Expects session other := hissues.extends.expects hother
    have hsame : (after.backlog session).map Prod.fst =
        (desk.backlog session).map Prod.fst ++ _ := hmap session
    rw [hsame, horderly.ordered session other hbefore, hlength]
    split
    · rename_i heq
      subst heq
      obtain rfl := hbefore.eq_mark horderly.founded hmark
      rw [hdue, Nat.add_right_comm, ← List.range'_append_1]
    · simp
  · have hbefore : desk.Expects session other := hissues.extends.expects hother
    obtain ⟨middle, hmiddle, hsame⟩ := hissues.lanes_eq hloses hfound
    obtain rfl := Option.some.inj hmiddle
    obtain ⟨hsequenced, hheld⟩ := hsame session
    rw [hlength]
    rw [Function.update_apply] at hsequenced hheld
    by_cases heq : command.request.session = session
    · subst heq
      obtain rfl := hbefore.eq_mark horderly.founded hmark
      rw [if_pos rfl] at hsequenced hheld ⊢
      rw [← Nat.add_assoc]
      exact hstep.congr hsequenced hheld
    · rw [if_neg (Ne.symm heq)] at hsequenced hheld
      rw [if_neg heq]
      exact (horderly.inStep lanes hlanes session other hbefore).congr
        hsequenced hheld

end Orderly

end Desk

namespace Turn

open Desk

variable {fails : SessionId → Nat → Prop} {input : Input}
  {before after : Desk}

theorem founded (hfounded : before.Founded)
    (hturn : Turn fails input before after) : after.Founded := by
  cases hturn with
  | write _ => exact hfounded.write _
  | submit hlanes _ htickets hsubmitted hissues =>
      exact hissues.founded (hfounded.submitted hlanes htickets hsubmitted)
  | close _ => exact hfounded.close _
  | commit hentry => exact hfounded.commit hentry
  | leave _ =>
      exact ⟨hfounded.numbered, hfounded.applied_le, hfounded.opened,
        fun _ hlanes => by simp at hlanes⟩
  | rise _ hlanes =>
      exact ⟨hfounded.numbered, hfounded.applied_le, hfounded.opened,
        hfounded.kept⟩
  | lead hseeded =>
      refine ⟨hfounded.numbered, hfounded.applied_le, hfounded.opened, ?_⟩
      intro found hfound session key command hcommand
      obtain rfl := Option.some.inj hfound
      simp [(hseeded session).held] at hcommand
  | merge _ hlanes hnumbered happlied _ =>
      exact ⟨hnumbered, happlied, hfounded.opened, fun _ hfound => by
        simp [hlanes] at hfound⟩
  | post _ =>
      exact ⟨hfounded.numbered, hfounded.applied_le, hfounded.opened,
        hfounded.kept⟩

theorem backed (hfounded : before.Founded) (hbacked : before.Backed)
    (hturn : Turn fails input before after)
    (hinput : ∀ request, input = .append request →
      ∀ entry ∈ request.entries, entry.Behind) : after.Backed := by
  cases hturn with
  | write hnone =>
      refine ⟨fun entry hentry => ?_, hbacked.posted⟩
      rcases List.mem_append.mp hentry with hold | hnew
      · exact hbacked.entries entry hold
      · intro session sequence hsequence
        rw [List.mem_singleton.mp hnew, hnone] at hsequence
        simp at hsequence
  | submit hlanes hmark htickets hsubmitted hissues =>
      refine hissues.backed ⟨hbacked.entries, hbacked.posted⟩
        (fun due hdue => ?_)
      rw [hfounded.due_session hlanes htickets hsubmitted due hdue]
      exact Nat.lt_succ_of_le (Nat.le_trans (hfounded.opened _ _ hmark)
        hfounded.applied_le)
  | close _ => exact ⟨hbacked.entries, hbacked.posted⟩
  | commit _ => exact ⟨hbacked.entries, hbacked.posted⟩
  | leave _ => exact ⟨hbacked.entries, hbacked.posted⟩
  | rise _ _ => exact ⟨hbacked.entries, hbacked.posted⟩
  | lead _ => exact ⟨hbacked.entries, hbacked.posted⟩
  | merge hgiven _ _ _ hfrom =>
      refine ⟨fun entry hentry => ?_, hbacked.posted⟩
      exact (hfrom entry hentry).elim (hbacked.entries entry)
        (hinput _ hgiven entry)
  | post hentries =>
      refine ⟨hbacked.entries, fun entry hentry => ?_⟩
      rcases List.mem_append.mp hentry with hold | hnew
      · exact hbacked.posted entry hold
      · exact hbacked.entries entry (hentries hnew)

theorem placed (hfounded : before.Founded) (hplaced : before.Placed)
    (hturn : Turn fails input before after)
    (hinput : ∀ request, input ≠ .append request) : after.Placed := by
  -- Whoever may be opened afterwards may be opened before, and only a session
  -- that is open gets new commands.
  suffices hkeeps : ∀ session : Nat, after.Awaits session →
      before.Awaits session ∧
        ∀ row ∈ after.backlog session, row ∈ before.backlog session by
    intro session hawaits row hrow
    obtain ⟨hearlier, hsame⟩ := hkeeps session hawaits
    exact hplaced session hearlier row (hsame row hrow)
  intro session hawaits
  cases hturn with
  | write hnone =>
      refine ⟨(extends_write _ _).awaits hawaits, fun row hrow => ?_⟩
      rwa [backlog_write hfounded.applied_le hnone] at hrow
  | submit hlanes hmark htickets hsubmitted hissues =>
      have hearlier := hissues.extends.awaits hawaits
      refine ⟨hearlier, fun row hrow => ?_⟩
      rwa [hissues.backlog_of_ne hfounded.applied_le
        (hfounded.due_session hlanes htickets hsubmitted) ?_] at hrow
      rintro rfl
      exact absurd (hfounded.opened _ _ hmark) (Nat.not_le_of_lt hearlier.1)
  | close _ => exact ⟨hawaits, fun _ hrow => hrow⟩
  | commit hentry =>
      refine ⟨⟨Nat.lt_of_succ_lt hawaits.1, hawaits.2⟩, fun row hrow => ?_⟩
      rw [backlog_commit hentry]
      exact List.mem_append_right _ hrow
  | leave _ => exact ⟨hawaits, fun _ hrow => hrow⟩
  | rise _ _ => exact ⟨hawaits, fun _ hrow => hrow⟩
  | lead _ => exact ⟨hawaits, fun _ hrow => hrow⟩
  | merge hgiven _ _ _ _ => exact absurd hgiven (hinput _)
  | post _ => exact ⟨hawaits, fun _ hrow => hrow⟩

theorem covered {good : SessionId → Nat → Prop} (hfounded : before.Founded)
    (hplaced : before.Placed) (hcovered : before.Covered good)
    (hturn : Turn fails input before after)
    (hgood : ∀ session term, good session term → ¬fails session term) :
    after.Covered good := by
  cases hturn with
  | write hnone =>
      intro lanes hlanes session mark hknown hexpects
      rw [backlog_write hfounded.applied_le hnone]
      exact hcovered lanes hlanes session mark hknown
        ((extends_write _ _).expects hexpects)
  | submit hlanes _ htickets hsubmitted hissues =>
      exact hcovered.submit hfounded hlanes htickets hsubmitted hissues
        (hgood _ _)
  | close hopen =>
      intro lanes hlanes session mark hknown hexpects
      obtain ⟨earlier, hearlier, rfl⟩ := Option.map_eq_some_iff.mp hlanes
      obtain ⟨hnot, hbefore⟩ := hexpects.of_close hfounded hopen
      dsimp only
      rw [if_neg hnot]
      exact hcovered earlier hearlier session mark hknown hbefore
  | commit hentry =>
      intro lanes hlanes session mark hknown hexpects
      obtain ⟨before, hbefore, rfl⟩ := Option.map_eq_some_iff.mp hlanes
      obtain ⟨earlier, hearlier, rfl⟩ :=
        hexpects.of_commit hfounded hplaced hentry
      have hcovers := hcovered before hbefore session earlier hknown hearlier
      rw [backlog_commit hentry] at hcovers
      exact hcovers.settle
  | leave _ =>
      intro lanes hlanes
      simp at hlanes
  | rise _ hnone =>
      intro lanes hlanes
      simp [hnone] at hlanes
  | lead hseeded =>
      intro found hfound session mark _ _
      obtain rfl := Option.some.inj hfound
      exact (hseeded session).covers.mono (Nat.zero_le mark)
  | merge _ hnone _ _ _ =>
      intro lanes hlanes
      simp [hnone] at hlanes
  | post _ => exact hcovered

/-- Where no command is lost and nothing is merged, everything stays in
order. -/
theorem orderly (horderly : before.Orderly)
    (hturn : Turn fails input before after)
    (hfails : ∀ session term, ¬fails session term)
    (hinput : ∀ request, input ≠ .append request) : after.Orderly := by
  have hfounded := horderly.founded
  have hplaced := horderly.placed
  refine ⟨hturn.founded hfounded, hturn.placed hfounded hplaced hinput, ?_,
    hturn.covered hfounded hplaced horderly.covered
      (fun session term _ => hfails session term), ?_⟩
  · cases hturn with
    | write hnone =>
        intro session mark hexpects
        rw [backlog_write hfounded.applied_le hnone]
        exact horderly.ordered session mark
          ((extends_write _ _).expects hexpects)
    | submit hlanes hmark htickets hsubmitted hissues =>
        exact (horderly.submit hlanes hmark htickets hsubmitted hissues
          (hfails _ _)).1
    | close hopen =>
        intro session mark hexpects
        exact horderly.ordered session mark
          (hexpects.of_close hfounded hopen).2
    | commit hentry =>
        intro session mark hexpects
        obtain ⟨earlier, hearlier, rfl⟩ :=
          hexpects.of_commit hfounded hplaced hentry
        have hordered := horderly.ordered session earlier hearlier
        rw [backlog_commit hentry] at hordered
        exact (Lane.ordered_rest hordered).1
    | merge hgiven _ _ _ _ => exact absurd hgiven (hinput _)
    | _ => exact horderly.ordered
  · cases hturn with
    | write hnone =>
        intro lanes hlanes session mark hexpects
        rw [backlog_write hfounded.applied_le hnone]
        exact horderly.inStep lanes hlanes session mark
          ((extends_write _ _).expects hexpects)
    | submit hlanes hmark htickets hsubmitted hissues =>
        exact (horderly.submit hlanes hmark htickets hsubmitted hissues
          (hfails _ _)).2
    | close hopen =>
        intro lanes hlanes session mark hexpects
        obtain ⟨earlier, hearlier, rfl⟩ := Option.map_eq_some_iff.mp hlanes
        obtain ⟨hnot, hbefore⟩ := hexpects.of_close hfounded hopen
        dsimp only
        rw [if_neg hnot]
        exact horderly.inStep earlier hearlier session mark hbefore
    | commit hentry =>
        intro lanes hlanes session mark hexpects
        obtain ⟨before, hbefore, rfl⟩ := Option.map_eq_some_iff.mp hlanes
        obtain ⟨earlier, hearlier, rfl⟩ :=
          hexpects.of_commit hfounded hplaced hentry
        have hordered := horderly.ordered session earlier hearlier
        have hstep := horderly.inStep before hbefore session earlier hearlier
        rw [backlog_commit hentry] at hordered hstep
        rw [(Lane.ordered_rest hordered).2]
        exact hstep.settle _
    | leave _ =>
        intro lanes hlanes
        simp at hlanes
    | lead hseeded =>
        intro found hfound session mark hexpects
        obtain rfl := Option.some.inj hfound
        exact (hseeded session).inStep (horderly.ordered session mark hexpects)
    | merge hgiven _ _ _ _ => exact absurd hgiven (hinput _)
    | _ => exact horderly.inStep

end Turn

end SessionRaft
