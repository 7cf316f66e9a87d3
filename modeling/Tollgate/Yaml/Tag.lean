import Tollgate.Yaml.Scalar

/-!
# Tags

A tag names the kind of a node.  It is a string of bytes, which percent signs
may introduce one by one; those of one character come together, and a tag ends
before its first zero byte.
-/

namespace Tollgate.Yaml

structure Tag where
  bytes : List UInt8
  deriving DecidableEq, Repr

namespace Tag

def ofBytes (bytes : List UInt8) : Tag := ⟨bytes.takeWhile (· != 0)⟩

def ofString (text : String) : Tag := ofBytes text.toUTF8.toList

def append (first second : Tag) : Tag := ⟨first.bytes ++ second.bytes⟩

def isEmpty (tag : Tag) : Bool := tag.bytes.isEmpty

def isOwn (tag : Tag) : Bool := tag.bytes.head? == some '!'.toUInt8

def name? (tag : Tag) : Option String :=
  let name := if tag.bytes.length = 1 then tag.bytes else tag.bytes.drop 1
  if tag.isOwn then String.fromUTF8? ⟨name.toArray⟩ else none

def following? (byte : Nat) : Option Nat :=
  if byte < 0x80 then some 0
  else if 0xC0 ≤ byte && byte < 0xE0 then some 1
  else if 0xE0 ≤ byte && byte < 0xF0 then some 2
  else if 0xF0 ≤ byte && byte < 0xF8 then some 3
  else none

def isFollowing (byte : Nat) : Bool := 0x80 ≤ byte && byte < 0xC0

/-- Decodes percent signs, of which the first `pending` belong to a character that has begun. -/
def unescape : Nat → List Char → Option (List UInt8)
  | 0, [] => some []
  | _ + 1, [] => none
  | pending, '%' :: a :: b :: rest => do
      let byte ← Quoted.hexNumber? [a, b]
      let pending ← match pending with
        | 0 => following? byte
        | left + 1 => if isFollowing byte then some left else none
      return byte.toUInt8 :: (← unescape pending rest)
  | 0, c :: rest => if c == '%' then none else (unescape 0 rest).map (c.toUInt8 :: ·)
  | _ + 1, _ :: _ => none

def isUriChar (all : Bool) (c : Char) : Bool :=
  isWordChar c || ";/?:@&=+$.%!~*'()".toList.contains c ||
    (all && ",[]".toList.contains c)

def bytesAt (all : Bool) (cursor : Cursor) : Option (List UInt8 × Cursor) :=
  let (chars, cursor) := cursor.span (isUriChar all)
  (unescape 0 chars).map fun bytes => (bytes, cursor)

def partAt (all : Bool) (cursor : Cursor) : Option (Tag × Cursor) := do
  let (bytes, cursor) ← bytesAt all cursor
  if bytes.isEmpty then failure
  return (ofBytes bytes, cursor)

def handleAt (cursor : Cursor) : String × Cursor :=
  let (word, cursor) := cursor.skip.span isWordChar
  if cursor.is '!' then (String.ofList ('!' :: word ++ ['!']), cursor.skip)
  else (String.ofList ('!' :: word), cursor)

def partsAt (cursor : Cursor) : Option (String × Tag × Cursor) := do
  if cursor.peekAt 1 == some '<' then
    let (tag, cursor) ← partAt true (cursor.advance 2)
    if !cursor.is '>' then failure
    return ("", tag, cursor.skip)
  let (handle, after) := handleAt cursor
  if handle != "!" && handle.endsWith "!" then
    let (suffix, cursor) ← partAt false after
    return (handle, suffix, cursor)
  let (bytes, cursor) ← bytesAt false after
  let suffix := (ofString (String.ofList (handle.toList.drop 1))).append (ofBytes bytes)
  return if suffix.isEmpty then ("", ofString "!", cursor) else ("!", suffix, cursor)

end Tag

end Tollgate.Yaml
