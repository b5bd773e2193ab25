/-
The numbers that fit so many bytes.  A machine word has eight of them; the
signed words are the numbers around zero, the negative half and the positive.
-/

namespace SessionRaft

/-- How many values so many bytes can tell apart. -/
def capacity : Nat → Nat
  | 0 => 1
  | width + 1 => 256 * capacity width

/-- Numbers that fit a machine word are below this bound. -/
def wordBound : Nat := capacity 8

/-- The largest number that fits a machine word. -/
def wordMax : Nat := wordBound - 1

/-- Signed numbers that fit a machine word are below this bound, and not below
its negative. -/
def signedBound : Nat := wordBound / 2

/-- A number that fits a machine word. -/
def IsWord (value : Nat) : Prop := value < wordBound

/-- A number around zero that fits a machine word. -/
def IsSigned (value : Int) : Prop :=
  -(signedBound : Int) ≤ value ∧ value < signedBound

theorem capacity_pos (width : Nat) : 0 < capacity width := by
  induction width with
  | zero => exact Nat.one_pos
  | succ width ih => exact Nat.mul_pos (by decide) ih

theorem wordBound_eq : wordBound = 18446744073709551616 := rfl

theorem wordMax_eq : wordMax = 18446744073709551615 := rfl

theorem signedBound_eq : signedBound = 9223372036854775808 := rfl

end SessionRaft
