/-
What of a node concerns the order of commands, and everything that one step
can do to it.  A step of a node is a chain of turns; what every turn preserves
is preserved by every step.
-/
import Mathlib.Logic.Relation
import SessionRaft.Proofs.Lanes

namespace SessionRaft

/-- The term that a message of another node tells. -/
def Input.term? : Input → Option Nat
  | .vote request => some request.term
  | .voteResponse _ (.ok answer) => some answer.term
  | .append request => some request.term
  | .appendResponse _ (.ok answer) => some answer.term
  | _ => none

namespace LogEntry

/-- The sequence of an entry that is a command of a session. -/
def sequence? (session : SessionId) (entry : LogEntry) : Option Nat :=
  match entry.operation with
  | .command other sequence _ _ =>
      if other = session then some sequence else none
  | _ => none

def isRegister (entry : LogEntry) : Bool :=
  match entry.operation with
  | .register _ _ _ => true
  | _ => false

/-- A command stands behind the place at which its session was opened. -/
def Behind (entry : LogEntry) : Prop :=
  ∀ session sequence : Nat, entry.sequence? session = some sequence →
    session < entry.index

theorem sequence?_of_isRegister {entry : LogEntry}
    (hregister : entry.isRegister = true) (session : SessionId) :
    entry.sequence? session = none := by
  obtain ⟨term, index, operation⟩ := entry
  cases operation <;> simp_all [isRegister, sequence?]

end LogEntry

/-- The sequences and the indices of a session's commands among some
entries. -/
def backlogOf (session : SessionId) (entries : List LogEntry) :
    List (Nat × Nat) :=
  entries.filterMap (fun entry =>
    (entry.sequence? session).map (fun sequence => (sequence, entry.index)))

theorem backlogOf_bound {session : SessionId} {entries : List LogEntry}
    {bound : Nat} (hentries : ∀ entry ∈ entries, entry.index ≤ bound) :
    ∀ row ∈ backlogOf session entries, row.2 ≤ bound := by
  intro row hrow
  obtain ⟨entry, hentry, hmap⟩ := List.mem_filterMap.mp hrow
  obtain ⟨sequence, -, rfl⟩ := Option.map_eq_some_iff.mp hmap
  exact hentries entry hentry

/-- What of a node concerns the order of commands. -/
structure Desk where
  term : Nat
  entries : List LogEntry
  /-- How many entries were applied. -/
  applied : Nat
  /-- The highest sequence that was applied, for each open session. -/
  marks : SessionId → Option Nat
  /-- The lanes of the sequencer, while the node leads. -/
  lanes : Option (SessionId → Lane)
  /-- The entries under way to other nodes that nobody has taken yet. -/
  posted : List LogEntry

namespace Desk

/-- The commands of a session that stand in the log and are not applied. -/
def backlog (desk : Desk) (session : SessionId) : List (Nat × Nat) :=
  backlogOf session (desk.entries.drop desk.applied)

/-- A session may still be opened: its place in the log was not applied and
does not hold anything else than a registration. -/
def Awaits (desk : Desk) (session : SessionId) : Prop :=
  desk.applied < session ∧
    ∀ entry, desk.entries[session - 1]? = some entry →
      entry.isRegister = true

/-- The highest applied sequence of a session that is open or may still be
opened. -/
def Expects (desk : Desk) (session : SessionId) (mark : Nat) : Prop :=
  desk.marks session = some mark ∨ desk.Awaits session ∧ mark = 0

def close (desk : Desk) (closed : List SessionId) : Desk :=
  { desk with
    marks := fun session =>
      if session ∈ closed then none else desk.marks session
    lanes := desk.lanes.map (fun lanes session =>
      if session ∈ closed then .empty else lanes session) }

def commit (desk : Desk) (entry : LogEntry) : Desk :=
  { desk with
    applied := desk.applied + 1
    marks := fun session =>
      if entry.isRegister = true ∧ session = entry.index then some 0
      else
        match entry.sequence? session with
        | some sequence => (desk.marks session).map (max · sequence)
        | none => desk.marks session
    lanes := desk.lanes.map (fun lanes session =>
      (lanes session).settle (entry.sequence? session)) }

def write (desk : Desk) (operation : Operation) : Desk :=
  { desk with
    entries := desk.entries ++
      [⟨desk.term, desk.entries.length + 1, operation⟩] }

def issue (desk : Desk) (lanes : SessionId → Lane) (request : CommandRequest)
    (now : Nat) : Desk :=
  { desk.write
      (.command request.session request.sequence now request.command) with
    lanes := some (Function.update lanes request.session
      { lanes request.session with
        inFlight := (lanes request.session).inFlight.insert request.sequence
          (desk.entries.length + 1) }) }

/-- Append commands that are due, one after the other.  When an append fails,
which it can only where `loses` holds, the lane of the session is dropped. -/
inductive Issues (loses : Prop) : Desk → List PendingCommand → Desk → Prop where
  | done {desk : Desk} : Issues loses desk [] desk
  | append {desk after : Desk} {lanes : SessionId → Lane}
      {command : PendingCommand} {commands : List PendingCommand} (now : Nat)
      (hlanes : desk.lanes = some lanes)
      (hrest : Issues loses (desk.issue lanes command.request now) commands
        after) : Issues loses desk (command :: commands) after
  | lose {desk : Desk} {lanes : SessionId → Lane} {command : PendingCommand}
      {commands : List PendingCommand} (hlanes : desk.lanes = some lanes)
      (hloses : loses) :
      Issues loses desk (command :: commands) { desk with
        lanes :=
          some (Function.update lanes command.request.session .empty) }

end Desk

/-- One thing that a node does while it takes an input.  Where a command of a
session cannot be stored in a term, `fails` holds. -/
inductive Turn (fails : SessionId → Nat → Prop) (input : Input) :
    Desk → Desk → Prop where
  /-- Append an entry that is no command. -/
  | write {desk : Desk} {operation : Operation}
      (hnone : ∀ term index session,
        LogEntry.sequence? session ⟨term, index, operation⟩ = none) :
      Turn fails input desk (desk.write operation)
  /-- Take a command of an open session, and append what is due. -/
  | submit {desk after : Desk} {lanes : SessionId → Lane} {mark : Nat}
      {lane : Lane} {command : PendingCommand} {submission : Submission}
      (hlanes : desk.lanes = some lanes)
      (hmark : desk.marks command.request.session = some mark)
      (htickets : command.tickets ≠ [])
      (hsubmitted : Lane.Submitted (lanes command.request.session)
        (max ((lanes command.request.session).sequenced.getD mark) mark)
        command lane submission)
      (hissues : Desk.Issues (fails command.request.session desk.term)
        { desk with
          lanes := some (Function.update lanes command.request.session lane) }
        submission.due after) :
      Turn fails input desk after
  | close {desk : Desk} {closed : List SessionId}
      (hopen : ∀ session ∈ closed, (desk.marks session).isSome = true) :
      Turn fails input desk (desk.close closed)
  | commit {desk : Desk} {entry : LogEntry}
      (hentry : desk.entries[desk.applied]? = some entry) :
      Turn fails input desk (desk.commit entry)
  /-- Give up leading, and enter a newer term if one was told. -/
  | leave {desk : Desk} {term : Nat}
      (hterm : term = desk.term ∨
        desk.term < term ∧ input.term? = some term) :
      Turn fails input desk { desk with term := term, lanes := none }
  /-- Enter the next term to ask for votes. -/
  | rise {desk : Desk} (hinput : input = .electionTimeout)
      (hlanes : desk.lanes = none) :
      Turn fails input desk { desk with term := desk.term + 1 }
  /-- Begin to lead. -/
  | lead {desk : Desk} {lanes : SessionId → Lane}
      (hseeded : ∀ session, (lanes session).Seeded (desk.backlog session)) :
      Turn fails input desk { desk with lanes := some lanes }
  | merge {desk : Desk} {request : AppendRequest} {entries : List LogEntry}
      (hinput : input = .append request) (hlanes : desk.lanes = none)
      (hnumbered : Numbered entries) (happlied : desk.applied ≤ entries.length)
      (hfrom : ∀ entry ∈ entries,
        entry ∈ desk.entries ∨ entry ∈ request.entries) :
      Turn fails input desk { desk with entries := entries }
  | post {desk : Desk} {entries : List LogEntry}
      (hentries : entries ⊆ desk.entries) :
      Turn fails input desk { desk with posted := desk.posted ++ entries }

def Turns (fails : SessionId → Nat → Prop) (input : Input) :
    Desk → Desk → Prop :=
  Relation.ReflTransGen (Turn fails input)

namespace Desk

/-- What holds of the desk of every node. -/
structure Founded (desk : Desk) : Prop where
  numbered : Numbered desk.entries
  applied_le : desk.applied ≤ desk.entries.length
  opened : ∀ session mark : Nat, desk.marks session = some mark →
    session ≤ desk.applied
  kept : ∀ lanes, desk.lanes = some lanes →
    ∀ session, (lanes session).Kept session

/-- The commands of a session that may still be opened stand behind its
place. -/
def Placed (desk : Desk) : Prop :=
  ∀ session : Nat, desk.Awaits session →
    ∀ row ∈ desk.backlog session, session < row.2

/-- Every command, in the log or under way, stands behind the place at which
its session was opened. -/
structure Backed (desk : Desk) : Prop where
  entries : ∀ entry ∈ desk.entries, entry.Behind
  posted : ∀ entry ∈ desk.posted, entry.Behind

/-- The lanes of sessions of which nothing was lost know their backlogs. -/
def Covered (good : SessionId → Nat → Prop) (desk : Desk) : Prop :=
  ∀ lanes, desk.lanes = some lanes → ∀ session mark,
    good session desk.term → desk.Expects session mark →
      (lanes session).Covers mark (desk.backlog session)

/-- The commands that are not applied follow the applied ones in order and
without a gap. -/
def Ordered (desk : Desk) : Prop :=
  ∀ session mark, desk.Expects session mark →
    (desk.backlog session).map Prod.fst =
      List.range' (mark + 1) (desk.backlog session).length

/-- The lanes are in step with the log. -/
def InStep (desk : Desk) : Prop :=
  ∀ lanes, desk.lanes = some lanes → ∀ session mark,
    desk.Expects session mark →
      (lanes session).InStep (mark + (desk.backlog session).length)

section Backlog

variable {desk before after : Desk} {entry : LogEntry} {session : SessionId}
  {mark : Nat}

/-- Entries were appended, and lanes may have changed. -/
structure Extends (before after : Desk) : Prop where
  term : after.term = before.term
  applied : after.applied = before.applied
  marks : after.marks = before.marks
  posted : after.posted = before.posted
  entries : before.entries <+: after.entries

/-- A longer log leaves less room for registrations. -/
theorem Extends.awaits (hextends : before.Extends after)
    (hawaits : after.Awaits session) : before.Awaits session := by
  obtain ⟨hlt, hregister⟩ := hawaits
  refine ⟨hextends.applied ▸ hlt, fun entry hentry => hregister entry ?_⟩
  obtain ⟨more, hmore⟩ := hextends.entries
  obtain ⟨hplace, -⟩ := List.getElem?_eq_some_iff.mp hentry
  rw [← hmore, List.getElem?_append_left hplace, hentry]

theorem Extends.expects (hextends : before.Extends after)
    (hexpects : after.Expects session mark) : before.Expects session mark :=
  hexpects.imp (fun hmark => hextends.marks ▸ hmark)
    (fun hawaits => ⟨hextends.awaits hawaits.1, hawaits.2⟩)

theorem extends_write (desk : Desk) (operation : Operation) :
    desk.Extends (desk.write operation) :=
  ⟨rfl, rfl, rfl, rfl, List.prefix_append _ _⟩

theorem extends_issue (desk : Desk) (lanes : SessionId → Lane)
    (request : CommandRequest) (now : Nat) :
    desk.Extends (desk.issue lanes request now) :=
  ⟨rfl, rfl, rfl, rfl, List.prefix_append _ _⟩

theorem mem_backlog_iff (hnumbered : Numbered desk.entries)
    {sequence index : Nat} :
    (sequence, index) ∈ desk.backlog session ↔ ∃ place entry,
      desk.applied ≤ place ∧ desk.entries[place]? = some entry ∧
        entry.sequence? session = some sequence ∧ index = place + 1 := by
  have hmem : (sequence, index) ∈ desk.backlog session ↔
      ∃ entry ∈ desk.entries.drop desk.applied,
        entry.sequence? session = some sequence ∧ entry.index = index := by
    simp [backlog, backlogOf, and_left_comm]
  rw [hmem]
  constructor
  · rintro ⟨entry, hentry, hsequence, rfl⟩
    obtain ⟨offset, hoffset⟩ := List.mem_iff_getElem?.mp hentry
    rw [List.getElem?_drop] at hoffset
    exact ⟨_, entry, Nat.le_add_right _ _, hoffset, hsequence,
      hnumbered _ entry hoffset⟩
  · rintro ⟨place, entry, hle, hentry, hsequence, rfl⟩
    refine ⟨entry, List.mem_iff_getElem?.mpr ⟨place - desk.applied, ?_⟩,
      hsequence, hnumbered _ entry hentry⟩
    rwa [List.getElem?_drop, Nat.add_sub_cancel' hle]

theorem backlog_bound (hnumbered : Numbered desk.entries) :
    ∀ row ∈ desk.backlog session, row.2 ≤ desk.entries.length := by
  refine backlogOf_bound (fun entry hentry => ?_)
  obtain ⟨place, hplace⟩ :=
    List.mem_iff_getElem?.mp (List.mem_of_mem_drop hentry)
  rw [hnumbered place entry hplace]
  exact (List.getElem?_eq_some_iff.mp hplace).1

/-- An entry at the end of the log joins the backlog of its session. -/
theorem backlog_append (happlied : desk.applied ≤ desk.entries.length)
    (hsame : after.applied = desk.applied)
    (hentries : after.entries = desk.entries ++ [entry]) :
    after.backlog session = desk.backlog session ++
      ((entry.sequence? session).map
        (fun sequence => (sequence, entry.index))).toList := by
  simp only [backlog, backlogOf, hsame, hentries]
  rw [List.drop_append_of_le_length happlied, List.filterMap_append,
    List.filterMap_cons]
  cases entry.sequence? session <;> rfl

theorem backlog_write (happlied : desk.applied ≤ desk.entries.length)
    {operation : Operation} (hnone : ∀ term index session,
      LogEntry.sequence? session ⟨term, index, operation⟩ = none)
    (session : SessionId) :
    (desk.write operation).backlog session = desk.backlog session := by
  have happend : (desk.write operation).backlog session =
      desk.backlog session ++ _ := backlog_append happlied rfl rfl
  rw [happend, hnone]
  exact List.append_nil _

theorem backlog_issue (happlied : desk.applied ≤ desk.entries.length)
    (lanes : SessionId → Lane) (request : CommandRequest) (now : Nat)
    (session : SessionId) :
    (desk.issue lanes request now).backlog session =
      desk.backlog session ++
        if request.session = session
        then [(request.sequence, desk.entries.length + 1)] else [] := by
  have happend : (desk.issue lanes request now).backlog session =
      desk.backlog session ++ _ := backlog_append happlied rfl rfl
  rw [happend, LogEntry.sequence?]
  dsimp only
  split <;> rfl

/-- The entry that is applied leaves the backlog of its session. -/
theorem backlog_commit (hentry : desk.entries[desk.applied]? = some entry) :
    desk.backlog session = ((entry.sequence? session).map
        (fun sequence => (sequence, entry.index))).toList ++
      (desk.commit entry).backlog session := by
  obtain ⟨hlt, rfl⟩ := List.getElem?_eq_some_iff.mp hentry
  simp only [backlog, backlogOf, commit]
  rw [List.drop_eq_getElem_cons hlt, List.filterMap_cons]
  cases (desk.entries[desk.applied]).sequence? session <;> rfl

theorem Expects.eq_mark (hfounded : desk.Founded) {other : Nat}
    (hmark : desk.marks session = some mark)
    (hexpects : desk.Expects session other) : other = mark := by
  rcases hexpects with hother | ⟨⟨hlt, -⟩, -⟩
  · rw [hmark, Option.some.injEq] at hother
    exact hother.symm
  · have hle := hfounded.opened session mark hmark
    omega

theorem Expects.of_close (hfounded : desk.Founded) {closed : List SessionId}
    (hopen : ∀ session ∈ closed, (desk.marks session).isSome = true)
    (hexpects : (desk.close closed).Expects session mark) :
    session ∉ closed ∧ desk.Expects session mark := by
  have hnot : session ∉ closed := by
    intro hmem
    rcases hexpects with hmark | ⟨⟨hlt, -⟩, -⟩
    · simp [close, hmem] at hmark
    · obtain ⟨mark, hmark⟩ := Option.isSome_iff_exists.mp (hopen session hmem)
      have hle := hfounded.opened session mark hmark
      simp only [close] at hlt
      omega
  refine ⟨hnot, ?_⟩
  rcases hexpects with hmark | hawaits
  · exact Or.inl (by simpa [close, hnot] using hmark)
  · exact Or.inr hawaits

/-- A session's mark after an entry was applied. -/
theorem Expects.of_commit (hfounded : desk.Founded) (hplaced : desk.Placed)
    (hentry : desk.entries[desk.applied]? = some entry)
    (hexpects : (desk.commit entry).Expects session mark) :
    ∃ earlier, desk.Expects session earlier ∧
      mark = max earlier ((entry.sequence? session).getD 0) := by
  have hindex := hfounded.numbered _ entry hentry
  rcases hexpects with hmark | ⟨⟨hlt, hregister⟩, rfl⟩
  · simp only [commit] at hmark
    split at hmark
    · rename_i hopens
      obtain ⟨hregister, rfl⟩ := hopens
      refine ⟨0, Or.inr ⟨⟨by omega, fun found hfound => ?_⟩, rfl⟩, ?_⟩
      · rw [hindex, Nat.add_sub_cancel, hentry, Option.some.injEq] at hfound
        exact hfound ▸ hregister
      · rw [LogEntry.sequence?_of_isRegister hregister]
        exact (Option.some.inj hmark).symm
    · split at hmark
      · rename_i sequence hsequence
        obtain ⟨earlier, hearlier, rfl⟩ := Option.map_eq_some_iff.mp hmark
        exact ⟨earlier, Or.inl hearlier, by rw [hsequence]; rfl⟩
      · rename_i hnone
        exact ⟨mark, Or.inl hmark, by simp [hnone]⟩
  · -- A session that is opened later has no command at the applied place.
    have hawaits : desk.Awaits session :=
      ⟨Nat.lt_of_succ_lt hlt, hregister⟩
    refine ⟨0, Or.inr ⟨hawaits, rfl⟩, ?_⟩
    cases hsequence : entry.sequence? session with
    | none => rfl
    | some sequence =>
        have hrow : (sequence, entry.index) ∈ desk.backlog session := by
          rw [backlog_commit hentry, hsequence]
          exact List.mem_append_left _ List.mem_cons_self
        have hbehind := hplaced session hawaits _ hrow
        simp only [commit] at hlt
        simp only at hbehind
        omega

end Backlog

end Desk

end SessionRaft
