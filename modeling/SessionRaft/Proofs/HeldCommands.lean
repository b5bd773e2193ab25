/-
The commands that a leader holds and those that are in flight.  What is in
flight stands in the log and was not applied; commands are held only of open
sessions; and whoever waits for a held command has asked for it.
-/
import SessionRaft.Proofs.EventDelivery
import SessionRaft.Proofs.Ledger

namespace SessionRaft

namespace Lane

/-- What is in flight is part of a backlog, and commands are held only of an
open session. -/
structure Tracks (lane : Lane) (isOpen : Prop) (backlog : List (Nat × Nat)) :
    Prop where
  inFlight : ∀ sequence index, lane.inFlight.get? sequence = some index →
    (sequence, index) ∈ backlog
  held : ∀ sequence, lane.held.get? sequence ≠ none → isOpen

variable {lane after : Lane} {isOpen : Prop} {backlog : List (Nat × Nat)}
  {sequence index : Nat}

theorem tracks_empty : Lane.empty.Tracks isOpen backlog := by
  constructor
  · intro sequence index hindex
    simp [Lane.empty] at hindex
  · intro sequence hheld
    simp [Lane.empty] at hheld

theorem Seeded.tracks (hseeded : lane.Seeded backlog) :
    lane.Tracks isOpen backlog := by
  constructor
  · exact hseeded.covers.sound
  · intro sequence hheld
    simp [hseeded.held] at hheld

/-- A command is taken of an open session only. -/
theorem Tracks.submitted {last : Nat} {command : PendingCommand}
    {submission : Submission} (htracks : lane.Tracks isOpen backlog)
    (hopen : isOpen)
    (hsubmitted : Submitted lane last command after submission) :
    after.Tracks isOpen backlog where
  inFlight := hsubmitted.inFlight_eq ▸ htracks.inFlight
  held _ _ := hopen

theorem Tracks.append (htracks : lane.Tracks isOpen backlog) :
    { lane with inFlight := lane.inFlight.insert sequence index }.Tracks isOpen
      (backlog ++ [(sequence, index)]) where
  inFlight found place hfound := by
    rw [Table.get?_insert] at hfound
    split at hfound
    · rename_i heq
      obtain rfl := Option.some.inj hfound
      simp [heq]
    · exact List.mem_append_left _ (htracks.inFlight found place hfound)
  held := htracks.held

/-- The first command of the backlog has been applied. -/
theorem Tracks.settle {sequence? : Option Nat} {stays : Prop}
    (htracks : lane.Tracks isOpen
      ((sequence?.map (fun sequence => (sequence, index))).toList ++ backlog))
    (hstays : isOpen → stays) :
    (lane.settle sequence?).Tracks stays backlog := by
  cases sequence? with
  | none =>
      exact ⟨htracks.inFlight, fun sequence hheld =>
        hstays (htracks.held sequence hheld)⟩
  | some applied =>
      refine ⟨fun sequence place hplace => ?_, fun sequence hheld =>
        hstays (htracks.held sequence hheld)⟩
      rw [Lane.settle, Table.get?_erase] at hplace
      split at hplace
      · simp at hplace
      · rename_i hne
        have hmem := htracks.inFlight sequence place hplace
        rcases List.mem_cons.mp hmem with heq | hmem
        · exact absurd (Prod.mk.inj heq).1 hne
        · exact hmem

/-- A request is held because it was, or because its command is submitted. -/
theorem Submitted.held_cases {last : Nat} {command found : PendingCommand}
    {submission : Submission} {ticket : Ticket}
    (hsubmitted : Submitted lane last command after submission)
    (hfound : after.held.get? sequence = some found)
    (hticket : ticket ∈ found.tickets) :
    (∃ earlier, lane.held.get? sequence = some earlier ∧
        ticket ∈ earlier.tickets) ∨
      sequence = command.request.sequence ∧ ticket ∈ command.tickets := by
  cases hsubmitted with
  | inFlight _ _ => exact Or.inl ⟨found, hfound, hticket⟩
  | stale _ _ => exact Or.inl ⟨found, hfound, hticket⟩
  | held _ =>
      simp only [Lane.hold, Table.get?_insert] at hfound
      split at hfound
      · rename_i hsequence
        rw [hsequence]
        cases hheld : lane.held.get? command.request.sequence with
        | none =>
            simp only [hheld, Option.some.injEq] at hfound
            exact Or.inr ⟨rfl, hfound ▸ hticket⟩
        | some earlier =>
            simp only [hheld, Option.some.injEq] at hfound
            rw [← hfound, List.mem_append] at hticket
            rcases hticket with hticket | hticket
            · exact Or.inl ⟨earlier, rfl, hticket⟩
            · exact Or.inr ⟨rfl, hticket⟩
      · exact Or.inl ⟨found, hfound, hticket⟩
  | ready _ hreleased =>
      rw [hreleased.rest_eq] at hfound
      split at hfound
      · simp at hfound
      · exact Or.inl ⟨found, hfound, hticket⟩

/-- What is due was held, or is submitted. -/
theorem Submitted.due_cases {last : Nat} {command due : PendingCommand}
    {submission : Submission}
    (hsubmitted : Submitted lane last command after submission)
    (hdue : due ∈ submission.due) :
    due = command ∨ ∃ sequence, lane.held.get? sequence = some due := by
  cases hsubmitted with
  | ready _ hreleased =>
      rcases List.mem_cons.mp hdue with heq | hmem
      · exact Or.inl heq
      · obtain ⟨place, hplace⟩ := List.mem_iff_getElem?.mp hmem
        exact Or.inr ⟨_, hreleased.commands_eq place due hplace⟩
  | _ => simp [Submission.due] at hdue

end Lane

theorem LogEntry.operation_of_sequence? {entry : LogEntry}
    {session : SessionId} {sequence : Nat}
    (hsequence : entry.sequence? session = some sequence) :
    ∃ timestamp payload,
      entry.operation = .command session sequence timestamp payload := by
  obtain ⟨term, index, operation⟩ := entry
  cases operation with
  | command other number timestamp payload =>
      simp only [sequence?, Option.ite_none_right_eq_some,
        Option.some.injEq] at hsequence
      obtain ⟨rfl, rfl⟩ := hsequence
      exact ⟨timestamp, payload, rfl⟩
  | _ => simp [sequence?] at hsequence

namespace Desk

variable {loses : Prop} {desk after : Desk} {commands : List PendingCommand}

/-- A request waits for a held command. -/
def Holds (desk : Desk) (session : SessionId) (sequence : Nat)
    (ticket : Ticket) : Prop :=
  ∃ lanes command, desk.lanes = some lanes ∧
    (lanes session).held.get? sequence = some command ∧
      ticket ∈ command.tickets

section Holds

variable {session : SessionId} {sequence : Nat} {ticket : Ticket}

theorem Holds.of_close {closed : List SessionId}
    (hholds : (desk.close closed).Holds session sequence ticket) :
    desk.Holds session sequence ticket := by
  obtain ⟨lanes, command, hlanes, hheld, hticket⟩ := hholds
  obtain ⟨earlier, hearlier, rfl⟩ := Option.map_eq_some_iff.mp hlanes
  dsimp only at hheld
  split at hheld
  · simp [Lane.empty] at hheld
  · exact ⟨earlier, command, hearlier, hheld, hticket⟩

theorem Holds.of_commit {entry : LogEntry}
    (hholds : (desk.commit entry).Holds session sequence ticket) :
    desk.Holds session sequence ticket := by
  obtain ⟨lanes, command, hlanes, hheld, hticket⟩ := hholds
  obtain ⟨earlier, hearlier, rfl⟩ := Option.map_eq_some_iff.mp hlanes
  refine ⟨earlier, command, hearlier, ?_, hticket⟩
  dsimp only at hheld
  cases hsequence : entry.sequence? session with
  | none => rwa [hsequence] at hheld
  | some applied => rwa [hsequence] at hheld

/-- A request waits for a held command of the lane that was changed, or waited
before. -/
theorem Holds.of_update {lanes : SessionId → Lane} {owner : SessionId}
    {lane : Lane} (hlanes : desk.lanes = some lanes)
    (hholds : { desk with lanes := some (Function.update lanes owner lane) }.Holds
      session sequence ticket) :
    desk.Holds session sequence ticket ∨ session = owner ∧
      ∃ found, lane.held.get? sequence = some found ∧
        ticket ∈ found.tickets := by
  obtain ⟨found, command, hfound, hheld, hticket⟩ := hholds
  obtain rfl := Option.some.inj hfound
  rw [Function.update_apply] at hheld
  split at hheld
  · rename_i heq
    exact Or.inr ⟨heq, command, hheld, hticket⟩
  · exact Or.inl ⟨lanes, command, hlanes, hheld, hticket⟩

/-- Nothing new is held while commands are appended. -/
theorem Issues.holds (hissues : Issues loses desk commands after)
    (hholds : after.Holds session sequence ticket) :
    desk.Holds session sequence ticket := by
  induction hissues with
  | done => exact hholds
  | @append desk after lanes command commands now hlanes _ ih =>
      have hissued : Holds { desk with
          lanes := some (Function.update lanes command.request.session _) }
          session sequence ticket := ih hholds
      rcases hissued.of_update hlanes with
        hearlier | ⟨rfl, found, hheld, hticket⟩
      · exact hearlier
      · exact ⟨lanes, found, hlanes, hheld, hticket⟩
  | lose hlanes _ =>
      rcases hholds.of_update hlanes with
        hearlier | ⟨rfl, found, hheld, hticket⟩
      · exact hearlier
      · simp [Lane.empty] at hheld

end Holds

/-- What is in flight stands in the log and was not applied, and commands are
held only of open sessions. -/
def Tracked (desk : Desk) : Prop :=
  ∀ lanes, desk.lanes = some lanes → ∀ session,
    (lanes session).Tracks ((desk.marks session).isSome = true)
      (desk.backlog session)

theorem Tracked.update (htracked : desk.Tracked) {lanes : SessionId → Lane}
    (hlanes : desk.lanes = some lanes) {session : SessionId} {lane : Lane}
    (hlane : lane.Tracks ((desk.marks session).isSome = true)
      (desk.backlog session)) :
    { desk with
      lanes := some (Function.update lanes session lane) }.Tracked := by
  intro found hfound other
  obtain rfl := Option.some.inj hfound
  rw [Function.update_apply]
  split
  · rename_i heq
    exact heq ▸ hlane
  · exact htracked lanes hlanes other

theorem Tracked.issue (htracked : desk.Tracked)
    (happlied : desk.applied ≤ desk.entries.length) {lanes : SessionId → Lane}
    (hlanes : desk.lanes = some lanes) (request : CommandRequest)
    (now : Nat) : (desk.issue lanes request now).Tracked := by
  intro found hfound session
  obtain rfl := Option.some.inj hfound
  have htracks := htracked lanes hlanes session
  rw [backlog_issue happlied, Function.update_apply]
  by_cases heq : session = request.session
  · subst heq
    rw [if_pos rfl, if_pos rfl]
    exact htracks.append
  · rw [if_neg heq, if_neg (Ne.symm heq), List.append_nil]
    exact htracks

theorem Issues.tracked (hissues : Issues loses desk commands after)
    (hfounded : desk.Founded) (htracked : desk.Tracked) : after.Tracked := by
  induction hissues with
  | done => exact htracked
  | append now hlanes _ ih =>
      exact ih (hfounded.issue hlanes _ now)
        (htracked.issue hfounded.applied_le hlanes _ now)
  | lose hlanes _ => exact htracked.update hlanes Lane.tracks_empty

theorem Tracked.close (htracked : desk.Tracked) (closed : List SessionId) :
    (desk.close closed).Tracked := by
  intro lanes hlanes session
  obtain ⟨earlier, hearlier, rfl⟩ := Option.map_eq_some_iff.mp hlanes
  by_cases hclosed : session ∈ closed
  · simp only [hclosed, ↓reduceIte]
    exact Lane.tracks_empty
  · simp only [Desk.close, hclosed, ↓reduceIte]
    exact htracked earlier hearlier session

/-- Committing an entry closes no session. -/
theorem commit_marks (desk : Desk) (entry : LogEntry) {session : SessionId}
    (hopen : (desk.marks session).isSome = true) :
    ((desk.commit entry).marks session).isSome = true := by
  simp only [Desk.commit]
  split
  · rfl
  · split
    · rw [Option.isSome_map]
      exact hopen
    · exact hopen

theorem Tracked.commit (htracked : desk.Tracked) {entry : LogEntry}
    (hentry : desk.entries[desk.applied]? = some entry) :
    (desk.commit entry).Tracked := by
  intro lanes hlanes session
  obtain ⟨earlier, hearlier, rfl⟩ := Option.map_eq_some_iff.mp hlanes
  have htracks := htracked earlier hearlier session
  rw [backlog_commit hentry] at htracks
  exact htracks.settle (desk.commit_marks entry)

end Desk

/-- Every turn keeps track of what is in flight and of what is held. -/
theorem Turn.tracked {fails : SessionId → Nat → Prop} {input : Input}
    {before after : Desk} (hfounded : before.Founded)
    (htracked : before.Tracked) (hturn : Turn fails input before after) :
    after.Tracked := by
  cases hturn with
  | write hnone =>
      intro lanes hlanes session
      rw [Desk.backlog_write hfounded.applied_le hnone]
      exact htracked lanes hlanes session
  | submit hlanes hmark htickets hsubmitted hissues =>
      have hopen : (before.marks _).isSome = true :=
        Option.isSome_iff_exists.mpr ⟨_, hmark⟩
      exact hissues.tracked (hfounded.submitted hlanes htickets hsubmitted)
        (htracked.update hlanes
          ((htracked _ hlanes _).submitted hopen hsubmitted))
  | close _ => exact htracked.close _
  | commit hentry => exact htracked.commit hentry
  | leave _ => exact fun _ hlanes => by simp at hlanes
  | rise _ _ => exact htracked
  | lead hseeded =>
      intro lanes hlanes session
      obtain rfl := Option.some.inj hlanes
      exact (hseeded session).tracks
  | merge _ hnone _ _ _ => exact fun _ hlanes => by simp [hnone] at hlanes
  | post _ => exact htracked

theorem Turns.tracked {fails : SessionId → Nat → Prop} {input : Input}
    {before after : Desk} (hfounded : before.Founded)
    (htracked : before.Tracked) (hturns : Turns fails input before after) :
    after.Tracked := by
  induction hturns with
  | refl => exact htracked
  | tail hearlier hturn ih =>
      exact hturn.tracked (Turns.founded hfounded hearlier) ih

/-- A command of some inputs. -/
def Commanded (inputs : List Input) (session : SessionId) (sequence : Nat)
    (ticket : Ticket) : Prop :=
  ∃ request, Input.command ticket request ∈ inputs ∧
    request.session = session ∧ request.sequence = sequence

theorem Commanded.asks {inputs : List Input} {session : SessionId}
    {sequence : Nat} {ticket : Ticket}
    (hcommanded : Commanded inputs session sequence ticket)
    (timestamp : Nat) (payload : Bytes) :
    ∃ input ∈ inputs, input.Asks (.command ticket)
      (.command session sequence timestamp payload) := by
  obtain ⟨request, hmem, rfl, rfl⟩ := hcommanded
  exact ⟨_, hmem, .command timestamp payload⟩

namespace Node

open FaithfulLog

variable {L σ : Type} [LogStore L] [FaithfulLog L] [StateMachine σ]
  {input : Input} {node before middle after : Node L σ} {handed : List LogEntry}
  {demands : List Demand} {inputs : List Input}

omit [StateMachine σ] in
/-- The desk once what the lane says about a command is done. -/
theorem issues_admitted {record : Session} {submission : Submission}
    (hlog : Sound node.log) (hleads : node.leadership.isSome = true)
    (hwaited : ∀ due ∈ submission.due, due.tickets ≠ []) :
    Desk.Issues True node.desk submission.due
      (node.admitted record submission).desk := by
  cases submission with
  | ready commands =>
      exact ((appends_appendReady node commands).issues hlog hleads hwaited
        (fun _ _ => trivial)).2
  | _ => exact .done

omit [StateMachine σ] in
/-- Taking a command changes the lane of its session, and issues what is due
then. -/
theorem issues_submit (hlog : Sound node.log) (hfounded : node.desk.Founded)
    {leadership : Leadership} {sequencer : Sequencer} {applied : Nat}
    {command : PendingCommand} {submission : Submission}
    (hleadership : node.leadership = some leadership)
    (htickets : command.tickets ≠ [])
    (hsubmit : leadership.sequencer.submit applied command =
      .ok (sequencer, submission)) (record : Session) :
    ∃ lane,
      Lane.Submitted (leadership.sequencer.lane command.request.session)
        (max ((leadership.sequencer.lane
          command.request.session).sequenced.getD applied) applied)
        command lane submission ∧
      Desk.Issues True
        { node.desk with
          lanes := some (Function.update leadership.sequencer.lane
            command.request.session lane) }
        submission.due
        ((node.sequenced leadership sequencer).admitted record
          submission).desk := by
  obtain ⟨lane, rfl, hsubmitted⟩ := Sequencer.submitted_of_submit hsubmit
  have hwaited := (hfounded.kept _ (desk_lanes hleadership) _).due_waited rfl
    htickets hsubmitted
  have hissues := @issues_admitted L σ _ _ (node.sequenced leadership
    (leadership.sequencer.setLane command.request.session lane)) record
    submission hlog rfl hwaited
  simp only [sequenced, desk, Option.map_some, Sequencer.lane_setLane]
    at hissues
  exact ⟨lane, hsubmitted, hissues⟩

/-- Every act is a chain of turns of the desk. -/
theorem Act.turnsTo (hled : node.leadership.isSome = true →
      node.role = .leader) (hfounded : node.desk.Founded)
    (habreast : node.Abreast) (hact : Act input node handed demands after) :
    TurnsTo (fun _ _ => True) input node after := by
  have hsame : ∀ {after : Node L σ}, Sound after.log →
      after.desk = node.desk → TurnsTo (fun _ _ => True) input node after := by
    intro after hafter hdesk _
    exact ⟨hafter, hdesk ▸ .refl⟩
  cases hact with
  | follow term hterm =>
      exact turnsTo_becomeFollower node
        (hterm.imp Nat.le_of_eq And.right)
  | fault hafter hentries _ =>
      exact hsame hafter (by simp only [desk, hentries])
  | stand hinput hleadership hafter hentries _ =>
      rw [hinput]
      exact turnsTo_candidacy hleadership hafter hentries
  | grant _ _ hafter hentries _ =>
      exact hsame hafter (by simp only [desk, hentries])
  | count member _ =>
      unfold countVote
      split
      · exact .refl node
      · exact SameDesk.turnsTo ⟨rfl, rfl⟩
  | lead _ _ => exact turnsTo_crowned node
  | inaugurate _ happend =>
      refine (turnsTo_append (fun _ _ _ => rfl) happend).trans ?_
      apply SameDesk.turnsTo
      exact sameDesk_modifyLeadership _ (fun _ => rfl)
  | @merge request outcome log hinput hrole hprevious hjoin hmerge =>
      intro hlog
      have habreastAfter :=
        (Act.merge hinput hrole hprevious hjoin hmerge).goesOn hlog habreast
      have hnone := leadership_eq_none hled (by simp [hrole])
      rw [lastIndex_eq_length hlog] at hprevious
      obtain ⟨hfit, -, hspliced, -⟩ :=
        merge_cases (.of_sound hlog) hprevious hmerge
      have hmerged : Turn (fun _ _ => True) input node.desk
          { node.desk with entries := entries log } := by
        refine .merge hinput (by simp only [desk, hnone, Option.map_none])
          (numbered hfit.sound) ?_ (fun _ => mem_of_spliced hspliced)
        exact Nat.le_trans (Nat.le_of_eq habreast.applied)
          habreastAfter.abreast.committed
      exact ⟨hfit.sound, .single hmerged⟩
  | @advance target _ _ =>
      have hcommitted : SameDesk node { node with commitIndex := target } :=
        ⟨rfl, rfl⟩
      exact hcommitted.turnsTo.trans (turnsTo_applyNext _ _)
  | publish => exact (sameDesk_publishEvents node).turnsTo
  | round =>
      apply SameDesk.turnsTo
      exact sameDesk_modifyLeadership node (fun _ => rfl)
  | post peers => exact turnsTo_sendAppends node peers
  | heed _ _ _ hleadership _ =>
      refine (sameDesk_leadership _ hleadership ?_).turnsTo
      unfold Leadership.heed
      dsimp only
      split <;> rfl
  | @submit _ _ record _ _ _ hinput hrole hrecord hnew hleadership hsubmit =>
      intro hlog
      obtain ⟨lane, hsubmitted, hissues⟩ := issues_submit hlog hfounded
        hleadership (List.cons_ne_nil _ _) hsubmit record
      have hsubmits : Turn (fun _ _ => True) input node.desk _ :=
        .submit (desk_lanes hleadership) (desk_marks hrecord)
          (List.cons_ne_nil _ _) hsubmitted hissues
      exact ⟨Act.sound hlog
        (.submit hinput hrole hrecord hnew hleadership hsubmit),
        .single hsubmits⟩
  | enter hasks hcommand _ happend =>
      refine (turnsTo_append (fun term index session => ?_) happend).trans
        (SameDesk.turnsTo ⟨rfl, rfl⟩)
      cases hasks with
      | command _ _ => exact absurd rfl (hcommand _)
      | _ => rfl
  | acknowledge _ _ => exact (sameDesk_acknowledgeEvents node _ _).turnsTo
  | retire _ => exact turnsTo_shutdown node
  | _ => exact SameDesk.turnsTo ⟨rfl, rfl⟩

omit [StateMachine σ] in
theorem lanes_modifyLeadership (node : Node L σ)
    {f : Leadership → Leadership} (hsequencer : ∀ leadership,
      (f leadership).sequencer = leadership.sequencer) :
    (node.modifyLeadership f).desk.lanes = node.desk.lanes :=
  congrArg Desk.lanes (sameDesk_modifyLeadership node hsequencer).desk

theorem applyNext_holds {session : SessionId} {sequence : Nat}
    {ticket : Ticket} (count : Nat)
    (hholds : (node.applyNext count).desk.Holds session sequence ticket) :
    node.desk.Holds session sequence ticket := by
  refine applyNext_induction
    (fun after => after.desk.Holds session sequence ticket →
      node.desk.Holds session sequence ticket) node count (fun hheld => hheld)
    (fun before entry hbefore _ hheld => hbefore ?_) hholds
  obtain ⟨closed, -, hdesk⟩ := applyEntry_desk before entry
  rw [hdesk] at hheld
  exact hheld.of_close.of_commit.of_close

/-- A request waits for a held command because it did, or because the command
is what the input asks for. -/
theorem Act.holds (hlog : Sound node.log) (hfounded : node.desk.Founded)
    {session : SessionId} {sequence : Nat} {ticket : Ticket}
    (hact : Act input node handed demands after)
    (hholds : after.desk.Holds session sequence ticket) :
    node.desk.Holds session sequence ticket ∨
      Commanded [input] session sequence ticket := by
  have hsame : after.desk.lanes = node.desk.lanes →
      node.desk.Holds session sequence ticket := by
    intro hlanes
    obtain ⟨lanes, command, hfound, hheld⟩ := hholds
    exact ⟨lanes, command, hlanes ▸ hfound, hheld⟩
  cases hact with
  | follow term _ =>
      obtain ⟨lanes, command, hfound, -⟩ := hholds
      simp [desk, becomeFollower_leadership] at hfound
  | count member _ =>
      left
      apply hsame
      unfold countVote
      split <;> rfl
  | lead _ _ =>
      obtain ⟨lanes, command, hfound, hheld, -⟩ := hholds
      obtain rfl := Option.some.inj hfound
      simp [(seeded_newLeadership hlog session).held] at hheld
  | inaugurate _ _ =>
      exact Or.inl (hsame (lanes_modifyLeadership _ (fun _ => rfl)))
  | @advance target _ _ =>
      have hearlier : Desk.Holds (desk { node with commitIndex := target })
          session sequence ticket := applyNext_holds _ hholds
      exact Or.inl hearlier
  | publish =>
      exact Or.inl (hsame (congrArg Desk.lanes
        (sameDesk_publishEvents node).desk))
  | round => exact Or.inl (hsame (lanes_modifyLeadership _ (fun _ => rfl)))
  | heed _ _ _ hleadership _ =>
      refine Or.inl (hsame ?_)
      simp only [desk, hleadership, Leadership.heed]
      split <;> rfl
  | @submit _ request record _ _ _ hinput _ _ _ hleadership hsubmit =>
      obtain ⟨lane, hsubmitted, hissues⟩ := issues_submit hlog hfounded
        hleadership (List.cons_ne_nil _ _) hsubmit record
      have hlanes := desk_lanes hleadership
      rcases (hissues.holds hholds).of_update hlanes with
        hearlier | ⟨rfl, found, hheld, hticket⟩
      · exact Or.inl hearlier
      · rcases hsubmitted.held_cases hheld hticket with
          ⟨earlier, hearlier, hticket⟩ | ⟨rfl, hticket⟩
        · exact Or.inl ⟨_, earlier, hlanes, hearlier, hticket⟩
        · obtain rfl := List.mem_singleton.mp hticket
          exact Or.inr ⟨request, hinput ▸ List.mem_singleton_self _, rfl, rfl⟩
  | acknowledge _ _ =>
      exact Or.inl (hsame (congrArg Desk.lanes
        (sameDesk_acknowledgeEvents node _ _).desk))
  | retire _ =>
      obtain ⟨lanes, command, hfound, -⟩ := hholds
      simp [desk, (shutdown_dismisses node).1] at hfound
  | _ => exact Or.inl (hsame rfl)

omit [StateMachine σ] in
/-- Everybody who waits for a command that is due has asked for it. -/
theorem due_commanded (hfounded : node.desk.Founded)
    (hholds : ∀ session sequence ticket,
      node.desk.Holds session sequence ticket →
        Commanded inputs session sequence ticket)
    {lanes : SessionId → Lane} (hlanes : node.desk.lanes = some lanes)
    {lane : Lane} {last : Nat} {command : PendingCommand}
    {submission : Submission}
    (hsubmitted : Lane.Submitted (lanes command.request.session) last command
      lane submission)
    (hcommand : ∀ ticket ∈ command.tickets, Commanded inputs
      command.request.session command.request.sequence ticket) :
    ∀ due ∈ submission.due, ∀ ticket ∈ due.tickets,
      Commanded inputs due.request.session due.request.sequence ticket := by
  intro due hdue
  rcases hsubmitted.due_cases hdue with rfl | ⟨sequence, hheld⟩
  · exact hcommand
  · obtain ⟨hsession, hsequence, -⟩ :=
      hfounded.kept lanes hlanes _ sequence due hheld
    rw [hsession, hsequence]
    exact fun ticket hticket =>
      hholds _ _ _ ⟨lanes, due, hlanes, hheld, hticket⟩

end Node

end SessionRaft
