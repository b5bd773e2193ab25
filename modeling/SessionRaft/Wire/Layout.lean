/-
Binary layouts.  A layout pairs a writer with a reader that takes one value
off the front of a byte string and leaves the rest unread.  Layouts are built
from a few parts: big-endian words, lists behind a length, sequences of fields
and choices behind a tag.
-/
import SessionRaft.Message
import SessionRaft.Word

namespace SessionRaft

/-- Why a value cannot be written or read. -/
inductive WireError where
  /-- The bytes end before the value does. -/
  | truncated
  | unknownStatus (id : UInt8)
  | unknownErrorKind (id : UInt8)
  | unknownTag (what : String) (tag : UInt8)
  | invalid (reason : BuildError)
  /-- A complete message is followed by so many more bytes. -/
  | trailingBytes (count : Nat)
  /-- A list or a byte string is too long for its length field. -/
  | tooLarge (length : Nat)
  /-- A number does not fit its field. -/
  | outOfRange (value : Int)
deriving DecidableEq

def WireError.message : WireError → String
  | truncated => "frame truncated"
  | unknownStatus id => "unknown response status " ++ toString id.toNat
  | unknownErrorKind id => "unknown error kind " ++ toString id.toNat
  | unknownTag what tag =>
      "unknown " ++ what ++ " tag " ++ toString tag.toNat
  | invalid reason => "invalid field: " ++ reason.message
  | trailingBytes count => toString count ++ " trailing bytes after message"
  | tooLarge length =>
      "length " ++ toString length ++ " does not fit a u32 prefix"
  | outOfRange value =>
      "number " ++ toString value ++ " does not fit its field"

/-- A writer for values and a reader that undoes it. -/
structure Layout (α : Type) where
  encode : α → Except WireError Bytes
  decode : Bytes → Except WireError (α × Bytes)

/-- The digits of a number to base 256, most significant first. -/
def bigEndian : Nat → Nat → Bytes
  | 0, _ => []
  | width + 1, value =>
      UInt8.ofNat (value / capacity width) :: bigEndian width value

/-- The number whose digits to base 256 are given, most significant first. -/
def ofBigEndian (bytes : Bytes) : Nat :=
  bytes.foldl (fun high byte => 256 * high + byte.toNat) 0

namespace Layout

variable {α β : Type}

/-- Split off a given number of bytes. -/
def splitBytes (count : Nat) (bytes : Bytes) :
    Except WireError (Bytes × Bytes) :=
  if bytes.length < count then .error .truncated
  else .ok (bytes.take count, bytes.drop count)

/-- A natural number in `width` bytes. -/
def word (width : Nat) : Layout Nat where
  encode value :=
    if value < capacity width then .ok (bigEndian width value)
    else .error (.outOfRange value)
  decode bytes := do
    let (digits, rest) ← splitBytes width bytes
    return (ofBigEndian digits, rest)

/-- A natural number in eight bytes. -/
def number : Layout Nat := word 8

/-- An integer in eight bytes, in two's complement. -/
def signed : Layout Int where
  encode value :=
    if -(signedBound : Int) ≤ value ∧ value < signedBound then
      number.encode (value % wordBound).toNat
    else .error (.outOfRange value)
  decode bytes := do
    let (value, rest) ← number.decode bytes
    return (if value < signedBound then (value : Int) else value - wordBound, rest)

def byte : Layout UInt8 where
  encode value := .ok [value]
  decode
    | [] => .error .truncated
    | value :: rest => .ok (value, rest)

def unit : Layout Unit where
  encode _ := .ok []
  decode bytes := .ok ((), bytes)

/-- One value after another. -/
def seq (first : Layout α) (second : Layout β) : Layout (α × β) where
  encode value := do
    let front ← first.encode value.1
    let back ← second.encode value.2
    return front ++ back
  decode bytes := do
    let (value, rest) ← first.decode bytes
    let (other, rest) ← second.decode rest
    return ((value, other), rest)

/-- The same bytes, read as values of another type. -/
def imap (forth : α → β) (back : β → α) (layout : Layout α) : Layout β where
  encode value := layout.encode (back value)
  decode bytes := do
    let (value, rest) ← layout.decode bytes
    return (forth value, rest)

/-- The same bytes, where some of the values that are read get refused. -/
def refine (check : α → Except WireError β) (back : β → α)
    (layout : Layout α) : Layout β where
  encode value := layout.encode (back value)
  decode bytes := do
    let (value, rest) ← layout.decode bytes
    let checked ← check value
    return (checked, rest)

def decodeMany (item : Layout α) :
    Nat → Bytes → Except WireError (List α × Bytes)
  | 0, bytes => .ok ([], bytes)
  | count + 1, bytes => do
      let (value, rest) ← item.decode bytes
      let (values, rest) ← decodeMany item count rest
      return (value :: values, rest)

def encodeMany (item : Layout α) : List α → Except WireError Bytes
  | [] => .ok []
  | value :: values => do
      let front ← item.encode value
      let back ← encodeMany item values
      return front ++ back

/-- The length field in front of lists and byte strings. -/
def length : Layout Nat where
  encode count :=
    if count < capacity 4 then (word 4).encode count else .error (.tooLarge count)
  decode := (word 4).decode

def list (item : Layout α) : Layout (List α) where
  encode values := do
    let count ← length.encode values.length
    let body ← encodeMany item values
    return count ++ body
  decode bytes := do
    let (count, rest) ← length.decode bytes
    decodeMany item count rest

def bytes : Layout Bytes where
  encode value := do
    let count ← length.encode value.length
    return count ++ value
  decode input := do
    let (count, rest) ← length.decode input
    splitBytes count rest

/-- The arm of a choice that serves the values in the image of `inject`. -/
def arm (inject : β → α) (project : α → Option β) (layout : Layout β) :
    Layout α where
  encode value :=
    match project value with
    | some part => layout.encode part
    | none => .error (.outOfRange 0)
  decode bytes := do
    let (part, rest) ← layout.decode bytes
    return (inject part, rest)

/-- The layout listed under a tag. -/
def findArm (arms : List (UInt8 × Layout α)) (tag : UInt8) :
    Option (Layout α) :=
  (arms.find? (fun arm => arm.1 == tag)).map (·.2)

/-- A tag, followed by the arm that the tag selects. -/
def choice (unknown : UInt8 → WireError) (tagOf : α → UInt8)
    (arms : List (UInt8 × Layout α)) : Layout α where
  encode value :=
    match findArm arms (tagOf value) with
    | none => .error (unknown (tagOf value))
    | some layout => do
        let body ← layout.encode value
        return tagOf value :: body
  decode
    | [] => .error .truncated
    | tag :: rest =>
        match findArm arms tag with
        | none => .error (unknown tag)
        | some layout => layout.decode rest

/-- Read a complete message, which must not be followed by anything. -/
def decodeAll (layout : Layout α) (input : Bytes) : Except WireError α := do
  let (value, rest) ← layout.decode input
  match rest with
  | [] => return value
  | _ :: _ => throw (.trailingBytes rest.length)

/-- Read messages one after another, at most `limit` of them, together with
the number of bytes each leaves; the first error ends the stream. -/
def decodeStream (layout : Layout α) :
    Nat → Bytes → List (α × Nat) × Option WireError
  | 0, _ => ([], none)
  | _, [] => ([], none)
  | limit + 1, input =>
      match layout.decode input with
      | .error error => ([], some error)
      | .ok (value, rest) =>
          let (values, error) := decodeStream layout limit rest
          ((value, rest.length) :: values, error)

end Layout

end SessionRaft
