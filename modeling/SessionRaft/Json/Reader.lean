/-
Reading JSON from characters.  The grammar is strict: no leading zeros, no
trailing commas, no control characters in texts, and nothing but blanks after
the value.
-/
import SessionRaft.Json.Value

namespace SessionRaft.Json

/-- The characters that may stand between tokens. -/
def isBlank (c : Char) : Bool :=
  c == ' ' || c == '\n' || c == '\t' || c == '\r'

def skipBlanks (input : List Char) : List Char := input.dropWhile isBlank

/-- The number that decimal digits spell. -/
def digitsValue (digits : List Char) : Nat :=
  digits.foldl (fun value c => 10 * value + (c.toNat - '0'.toNat)) 0

def hexValue? (c : Char) : Option Nat :=
  if c.isDigit then some (c.toNat - '0'.toNat)
  else if 'a' ≤ c ∧ c ≤ 'f' then some (c.toNat - 'a'.toNat + 10)
  else if 'A' ≤ c ∧ c ≤ 'F' then some (c.toNat - 'A'.toNat + 10)
  else none

/-- The number that four hexadecimal digits spell. -/
def hexUnit? (a b c d : Char) : Option Nat := do
  let a ← hexValue? a
  let b ← hexValue? b
  let c ← hexValue? c
  let d ← hexValue? d
  return ((a * 16 + b) * 16 + c) * 16 + d

/-- Put the code unit of an escape in front of a text; two units that form a
surrogate pair become one code point.  Only units that were escaped pair up,
so `escaped` tells whether the text begins with one. -/
def joinUnit (unit : Nat) (escaped : Bool) : Text → Text
  | [] => [unit]
  | next :: rest =>
      if escaped ∧ 0xD800 ≤ unit ∧ unit < 0xDC00 ∧ 0xDC00 ≤ next ∧
          next < 0xE000 then
        (0x10000 + (unit - 0xD800) * 0x400 + (next - 0xDC00)) :: rest
      else unit :: next :: rest

/-- The character that a one-letter escape stands for. -/
def escaped? : Char → Option Char
  | '"' => some '"'
  | '\\' => some '\\'
  | '/' => some '/'
  | 'b' => some '\x08'
  | 'f' => some '\x0c'
  | 'n' => some '\n'
  | 'r' => some '\r'
  | 't' => some '\t'
  | _ => none

/-- Read a text up to its closing quote.  The flag tells whether it begins
with an escaped code unit. -/
def readText : List Char → Option (Text × Bool × List Char)
  | [] => none
  | '"' :: rest => some ([], false, rest)
  | '\\' :: 'u' :: a :: b :: c :: d :: rest => do
      let unit ← hexUnit? a b c d
      let (points, escaped, rest) ← readText rest
      return (joinUnit unit escaped points, true, rest)
  | '\\' :: letter :: rest => do
      let c ← escaped? letter
      let (points, _, rest) ← readText rest
      return (c.toNat :: points, false, rest)
  | c :: rest =>
      if c.toNat < 0x20 ∨ c = '\\' then none
      else do
        let (points, _, rest) ← readText rest
        return (c.toNat :: points, false, rest)

/-- Read at least one digit. -/
def readDigits (input : List Char) : Option (List Char × List Char) :=
  match input.takeWhile Char.isDigit with
  | [] => none
  | digits => some (digits, input.dropWhile Char.isDigit)

/-- Read the part of a number after a point, if there is one. -/
def readFraction : List Char → Option (List Char × List Char)
  | '.' :: rest => do
      let (digits, rest) ← readDigits rest
      return ('.' :: digits, rest)
  | input => some ([], input)

/-- Read an exponent without its letter. -/
def readExponentDigits : List Char → Option (List Char × List Char)
  | '+' :: rest => do
      let (digits, rest) ← readDigits rest
      return ('+' :: digits, rest)
  | '-' :: rest => do
      let (digits, rest) ← readDigits rest
      return ('-' :: digits, rest)
  | input => readDigits input

def readExponent : List Char → Option (List Char × List Char)
  | 'e' :: rest => do
      let (digits, rest) ← readExponentDigits rest
      return ('e' :: digits, rest)
  | 'E' :: rest => do
      let (digits, rest) ← readExponentDigits rest
      return ('E' :: digits, rest)
  | input => some ([], input)

/-- Read the digits before the point; a zero stands alone. -/
def readWhole (input : List Char) : Option (List Char × List Char) :=
  match readDigits input with
  | some ('0' :: _ :: _, _) => none
  | outcome => outcome

/-- Read a number after its sign. -/
def readUnsigned (negative : Bool) (input : List Char) :
    Option (Json × List Char) := do
  let (whole, rest) ← readWhole input
  let (fraction, rest) ← readFraction rest
  let (exponent, rest) ← readExponent rest
  let sign := if negative then ['-'] else []
  if fraction ++ exponent ≠ [] ∨ (negative ∧ digitsValue whole = 0) then
    return (decimal (sign ++ whole ++ fraction ++ exponent), rest)
  else if negative then
    return (integer (-(digitsValue whole : Int)), rest)
  else
    return (integer (digitsValue whole), rest)

def readNumber : List Char → Option (Json × List Char)
  | '-' :: rest => readUnsigned true rest
  | input => readUnsigned false input

mutual

/-- Read a value; every nested value costs one unit of fuel. -/
def readValue : Nat → List Char → Option (Json × List Char)
  | 0, _ => none
  | fuel + 1, input =>
      match skipBlanks input with
      | 'n' :: 'u' :: 'l' :: 'l' :: rest => some (null, rest)
      | 't' :: 'r' :: 'u' :: 'e' :: rest => some (bool true, rest)
      | 'f' :: 'a' :: 'l' :: 's' :: 'e' :: rest => some (bool false, rest)
      | '"' :: rest => do
          let (points, _, rest) ← readText rest
          return (text points, rest)
      | '[' :: rest =>
          match skipBlanks rest with
          | ']' :: rest => some (array [], rest)
          | rest => do
              let (item, rest) ← readValue fuel rest
              let (items, rest) ← readItems fuel rest
              return (array (item :: items), rest)
      | '\x7b' :: rest =>
          match skipBlanks rest with
          | '\x7d' :: rest => some (object [], rest)
          | rest => do
              let (member, rest) ← readMember fuel rest
              let (members, rest) ← readMembers fuel rest
              return (object (member :: members), rest)
      | rest => readNumber rest

/-- Read the items that follow an item, up to the closing bracket. -/
def readItems : Nat → List Char → Option (List Json × List Char)
  | 0, _ => none
  | fuel + 1, input =>
      match skipBlanks input with
      | ']' :: rest => some ([], rest)
      | ',' :: rest => do
          let (item, rest) ← readValue fuel rest
          let (items, rest) ← readItems fuel rest
          return (item :: items, rest)
      | _ => none

/-- Read the name of a member, a colon and its value. -/
def readMember : Nat → List Char → Option ((Text × Json) × List Char)
  | 0, _ => none
  | fuel + 1, input =>
      match skipBlanks input with
      | '"' :: rest => do
          let (name, _, rest) ← readText rest
          match skipBlanks rest with
          | ':' :: rest => do
              let (value, rest) ← readValue fuel rest
              return ((name, value), rest)
          | _ => none
      | _ => none

/-- Read the members that follow a member, up to the closing brace. -/
def readMembers : Nat → List Char → Option (List (Text × Json) × List Char)
  | 0, _ => none
  | fuel + 1, input =>
      match skipBlanks input with
      | '\x7d' :: rest => some ([], rest)
      | ',' :: rest => do
          let (member, rest) ← readMember fuel rest
          let (members, rest) ← readMembers fuel rest
          return (member :: members, rest)
      | _ => none

end

/-- The value that the characters spell, if they spell exactly one. -/
def read? (input : List Char) : Option Json := do
  let (value, rest) ← readValue (2 * input.length + 2) input
  if skipBlanks rest = [] then some value else none

end SessionRaft.Json
