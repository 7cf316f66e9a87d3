import Tollgate.Text.Blank

/-!
# Cursors

A cursor is a place in a YAML text: what follows it, and its line and column.
Columns count characters, offsets bytes.
-/

namespace Tollgate.Yaml

def isAllowed (c : Char) : Bool :=
  let n := c.toNat
  n == 0x09 || n == 0x0A || n == 0x0D || (0x20 ≤ n && n ≤ 0x7E) || n == 0x85 ||
    (0xA0 ≤ n && n ≤ 0xD7FF) || (0xE000 ≤ n && n ≤ 0xFFFD) || 0x10000 ≤ n

def isBlank (c : Char) : Bool := c == ' ' || c == '\t'

def isBreak (c : Char) : Bool :=
  c == '\r' || c == '\n' || c == '\u0085' || c == '\u2028' || c == '\u2029'

def isGap (c : Char) : Bool := isBlank c || isBreak c

def isWordChar (c : Char) : Bool := c.isAlphanum || c == '_' || c == '-'

def isFlowIndicator (c : Char) : Bool :=
  c == ',' || c == '[' || c == ']' || c == '\x7b' || c == '\x7d'

/-- Line separators stand for themselves, all other breaks for a line feed. -/
def breakChar (c : Char) : Char :=
  if c == '\u2028' || c == '\u2029' then c else '\n'

structure Cursor where
  rest : List Char
  offset : Nat := 0
  line : Nat := 0
  column : Nat := 0

namespace Cursor

def peek (cursor : Cursor) : Option Char := cursor.rest.head?

def peekAt (cursor : Cursor) (n : Nat) : Option Char := cursor.rest[n]?

def is (cursor : Cursor) (c : Char) : Bool := cursor.peek == some c

def nextIs (cursor : Cursor) (p : Char → Bool) : Bool := cursor.peek.any p

def gapAt (cursor : Cursor) (n : Nat) : Bool := (cursor.peekAt n).all isGap

def atEnd (cursor : Cursor) : Bool := cursor.rest.isEmpty

def advance (cursor : Cursor) (n : Nat) : Cursor :=
  { cursor with
    rest := cursor.rest.drop n
    offset := (cursor.rest.take n).foldl (fun bytes c => bytes + c.utf8Size) cursor.offset
    column := cursor.column + n }

def skip (cursor : Cursor) : Cursor := cursor.advance 1

def skipBreak (cursor : Cursor) : Cursor :=
  match cursor.rest with
  | '\r' :: '\n' :: rest => ⟨rest, cursor.offset + 2, cursor.line + 1, 0⟩
  | c :: rest =>
      if isBreak c then ⟨rest, cursor.offset + c.utf8Size, cursor.line + 1, 0⟩ else cursor
  | [] => cursor

def skipByteOrderMark (cursor : Cursor) : Cursor :=
  if cursor.column == 0 && cursor.is '\ufeff' then cursor.skip else cursor

def span (cursor : Cursor) (p : Char → Bool) : List Char × Cursor :=
  let taken := cursor.rest.takeWhile p
  (taken, cursor.advance taken.length)

def skipWhile (cursor : Cursor) (p : Char → Bool) : Cursor := (cursor.span p).2

def atMark (cursor : Cursor) (c : Char) : Bool :=
  cursor.column == 0 && cursor.peekAt 0 == some c && cursor.peekAt 1 == some c &&
    cursor.peekAt 2 == some c && cursor.gapAt 3

def atDocumentMark (cursor : Cursor) : Bool := cursor.atMark '-' || cursor.atMark '.'

def toLineEnd (cursor : Cursor) : Cursor :=
  let cursor := cursor.skipWhile isBlank
  if cursor.is '#' then cursor.skipWhile (!isBreak ·) else cursor

def atLineEnd (cursor : Cursor) : Bool := cursor.peek.all isBreak

end Cursor

end Tollgate.Yaml
