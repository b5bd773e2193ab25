/-
JSON values and the access to their parts.  A text is a list of code points,
because an escape may name half of a surrogate pair, which is no character.
-/

namespace SessionRaft

/-- The code points of a JSON text. -/
abbrev Json.Text := List Nat

/-- A JSON value. -/
inductive Json where
  | null
  | bool (value : Bool)
  /-- A number without fraction and exponent, other than a negative zero. -/
  | integer (value : Int)
  /-- Any other number, as it is spelled. -/
  | decimal (spelling : List Char)
  | text (points : Json.Text)
  | array (items : List Json)
  | object (members : List (Json.Text × Json))

namespace Json

def pointsOf (text : String) : Text := text.toList.map Char.toNat

def isSurrogate (point : Nat) : Bool :=
  decide (0xD800 ≤ point ∧ point < 0xE000)

/-- Whether every code point of a text is a character. -/
def isWellFormed (text : Text) : Bool := text.all (fun point => !isSurrogate point)

/-- The natural number below `bound` that a value spells. -/
def natural? (bound : Nat) : Json → Option Nat
  | integer value =>
      if 0 ≤ value ∧ value < bound then some value.toNat else none
  | _ => none

/-- The integer below `bound`, and not below its negative, that a value
spells. -/
def signed? (bound : Nat) : Json → Option Int
  | integer value =>
      if -(bound : Int) ≤ value ∧ value < bound then some value else none
  | _ => none

def items? : Json → Option (List Json)
  | array items => some items
  | _ => none

/-- The value of the only member of a name; `some none` if there is none. -/
def member? (name : String) (members : List (Text × Json)) :
    Option (Option Json) :=
  match members.filter (fun member => member.1 == pointsOf name) with
  | [] => some none
  | [member] => some (some member.2)
  | _ => none

/-- The fields of a record, which is written as an object in any order of its
members or as an array in the order of the fields.  A field may be absent; an
object may hold other members, whose names are well formed, and an array may
not hold more items than there are fields. -/
def record? (names : List String) : Json → Option (List (Option Json))
  | object members =>
      if members.all (fun member => isWellFormed member.1) then
        names.mapM (fun name => member? name members)
      else none
  | array items =>
      if items.length ≤ names.length then
        some (items.map some ++
          List.replicate (names.length - items.length) none)
      else none
  | _ => none

end Json

end SessionRaft
