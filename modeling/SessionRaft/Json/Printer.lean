/-
Printing JSON over several lines.  Every item and every member stands on a
line of its own, two blanks deeper than what holds it; an empty array or
object is closed at once.
-/
import SessionRaft.Json.Value

namespace SessionRaft.Json

def decimalDigits (value : Nat) : List Char := Nat.toDigits 10 value

def spellInteger (value : Int) : List Char :=
  if value < 0 then '-' :: decimalDigits value.natAbs
  else decimalDigits value.natAbs

def hexDigit (value : Nat) : Char :=
  if value < 10 then Char.ofNat ('0'.toNat + value)
  else Char.ofNat ('a'.toNat + (value - 10))

/-- The escape of a code unit. -/
def spellUnit (unit : Nat) : List Char :=
  ['\\', 'u', hexDigit (unit / 4096 % 16), hexDigit (unit / 256 % 16),
    hexDigit (unit / 16 % 16), hexDigit (unit % 16)]

/-- The spelling of one code point inside a text. -/
def spellPoint (point : Nat) : List Char :=
  if point = '"'.toNat then ['\\', '"']
  else if point = '\\'.toNat then ['\\', '\\']
  else if point = 0x08 then ['\\', 'b']
  else if point = 0x0C then ['\\', 'f']
  else if point = 0x0A then ['\\', 'n']
  else if point = 0x0D then ['\\', 'r']
  else if point = 0x09 then ['\\', 't']
  else if point < 0x20 ∨ isSurrogate point then spellUnit point
  else [Char.ofNat point]

/-- The spelling of a text with its quotes. -/
def spellText (text : Text) : List Char :=
  '"' :: (text.flatMap spellPoint ++ ['"'])

/-- A line break and the blanks of a depth. -/
def lineBreak (depth : Nat) : List Char :=
  '\n' :: List.replicate (2 * depth) ' '

mutual

/-- The spelling of a value whose first line stands at a depth. -/
def spell (depth : Nat) : Json → List Char
  | null => ['n', 'u', 'l', 'l']
  | bool true => ['t', 'r', 'u', 'e']
  | bool false => ['f', 'a', 'l', 's', 'e']
  | integer value => spellInteger value
  | decimal spelling => spelling
  | text points => spellText points
  | array [] => ['[', ']']
  | array (item :: items) =>
      '[' :: (lineBreak (depth + 1) ++ spell (depth + 1) item ++
        spellItems depth items)
  | object [] => ['\x7b', '\x7d']
  | object ((name, value) :: members) =>
      '\x7b' :: (lineBreak (depth + 1) ++ spellText name ++ [':', ' '] ++
        spell (depth + 1) value ++ spellMembers depth members)

/-- The items after the first one and the closing bracket. -/
def spellItems (depth : Nat) : List Json → List Char
  | [] => lineBreak depth ++ [']']
  | item :: items =>
      ',' :: (lineBreak (depth + 1) ++ spell (depth + 1) item ++
        spellItems depth items)

/-- The members after the first one and the closing brace. -/
def spellMembers (depth : Nat) : List (Text × Json) → List Char
  | [] => lineBreak depth ++ ['\x7d']
  | (name, value) :: members =>
      ',' :: (lineBreak (depth + 1) ++ spellText name ++ [':', ' '] ++
        spell (depth + 1) value ++ spellMembers depth members)

end

def print (value : Json) : List Char := spell 0 value

end SessionRaft.Json
