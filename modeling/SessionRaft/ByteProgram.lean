/-
A small state machine whose commands are programs of bytes.  A program adds to
a running total, publishes events and writes output; it shows every part of
what a command can do.
-/
import SessionRaft.StateMachine
import SessionRaft.Wire.Layout

namespace SessionRaft

/-- The state of the machine. -/
structure Tally where
  total : Nat
  /-- The commands that were run, in order. -/
  applied : List Commit
deriving DecidableEq

namespace Tally

def start : Tally := ⟨0, []⟩

/-- The eight bytes of a number. -/
def wordBytes (value : Nat) : Bytes := bigEndian 8 value

/-- What a program has done so far. -/
structure Progress where
  total : Nat
  output : Bytes
  events : List (SessionId × Bytes)
deriving DecidableEq

/-- The event with a group byte that tells the current total. -/
def event (group : UInt8) (total : Nat) : Bytes :=
  [group, UInt8.ofNat (total % 256)]

/-- Run a program.  Byte 0 fails, 1 adds its argument, 2 publishes to the
sender and 3 to a given session, 4 writes what is known of the commit, and
every other byte writes itself.  A missing argument fails as well; the flag
tells whether the program came to its end. -/
def execute (commit : Commit) : Bytes → Progress → Progress × Bool
  | [], progress => (progress, true)
  | instruction :: rest, progress =>
      match instruction.toNat, rest with
      | 0, _ => (progress, false)
      | 1, amount :: rest =>
          execute commit rest
            { progress with total := progress.total + amount.toNat }
      | 2, group :: rest =>
          execute commit rest
            { progress with
              events := progress.events ++
                [(commit.session, event group progress.total)] }
      | 3, recipient :: group :: rest =>
          execute commit rest
            { progress with
              events := progress.events ++
                [(recipient.toNat, event group progress.total)] }
      | 1, [] => (progress, false)
      | 2, [] => (progress, false)
      | 3, [] => (progress, false)
      | 3, [_] => (progress, false)
      | 4, rest =>
          execute commit rest
            { progress with
              output := progress.output ++ wordBytes commit.index ++
                wordBytes commit.session ++ wordBytes commit.sequence ++
                wordBytes commit.timestamp }
      | _, rest =>
          execute commit rest
            { progress with output := progress.output ++ [instruction] }

/-- Run a command; an empty program fails. -/
def apply (tally : Tally) (commit : Commit) : Effect Tally :=
  let (progress, finished) := execute commit commit.operation ⟨tally.total, [], []⟩
  { state := ⟨progress.total, tally.applied ++ [commit]⟩
    events := progress.events
    output :=
      if finished ∧ commit.operation ≠ [] then
        some (progress.output ++ wordBytes progress.total)
      else none }

/-- Answer with the query itself and what is known of it; a query that is
empty or starts with 0 fails. -/
def answer (tally : Tally) (query : Query) : Option Bytes :=
  match query.query with
  | [] => none
  | first :: _ =>
      if first = 0 then none
      else some (query.query ++ wordBytes query.session ++
        wordBytes query.index ++ wordBytes tally.total)

instance : StateMachine Tally where
  apply := apply
  query := answer

end Tally

end SessionRaft
