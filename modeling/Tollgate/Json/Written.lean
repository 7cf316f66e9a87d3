import Tollgate.Decimal.Reading

/-!
# JSON as it is written

`Json.Written.parse?` cuts a text into the literals, numerals, strings, arrays
and objects of one document.  What they stand for is not yet asked: a numeral
may be out of range, escapes in a string need not pair up, names of members may
repeat, and nesting has no limit.
-/

namespace Tollgate.Json

inductive Written.Piece where
  | char (c : Char)
  | unit (n : Nat)
  deriving DecidableEq

inductive Written where
  | null
  | bool (value : Bool)
  | number (negative : Bool) (numeral : Decimal.Numeral)
  | string (pieces : List Written.Piece)
  | array (items : List Written)
  | object (members : List (List Written.Piece × Written))

namespace Written

instance : Inhabited Written := ⟨.null⟩

def isBlankChar (c : Char) : Bool :=
  c == ' ' || c == '\n' || c == '\t' || c == '\r'

def skipBlanks (chars : List Char) : List Char := chars.dropWhile isBlankChar

/-- The form of a numeral: no needless leading zero, digits on both sides of a point. -/
def wellFormed (n : Decimal.Numeral) : Bool :=
  (match n.whole with
    | [] => false
    | '0' :: _ :: _ => false
    | _ => true) &&
  !(n.fraction.any List.isEmpty)

def startsExponent : List Char → Bool
  | c :: _ => c == 'e' || c == 'E'
  | [] => false

def readNumber (chars : List Char) : Option (Written × List Char) :=
  let (negative, body) := match chars with
    | '-' :: rest => (true, rest)
    | rest => (false, rest)
  let (n, rest) := Decimal.Numeral.scan body
  if wellFormed n && !(n.exponent.isNone && startsExponent rest) then
    some (.number negative n, rest)
  else none

def hexValue? (c : Char) : Option Nat :=
  if c.isDigit then some (c.toNat - 48)
  else if 'a' ≤ c && c ≤ 'f' then some (c.toNat - 87)
  else if 'A' ≤ c && c ≤ 'F' then some (c.toNat - 55)
  else none

def unit? (a b c d : Char) : Option Nat := do
  let a ← hexValue? a
  let b ← hexValue? b
  let c ← hexValue? c
  let d ← hexValue? d
  some (((a * 16 + b) * 16 + c) * 16 + d)

def simpleEscape? : Char → Option Char
  | '"' => some '"'
  | '\\' => some '\\'
  | '/' => some '/'
  | 'b' => some '\x08'
  | 'f' => some '\x0c'
  | 'n' => some '\n'
  | 'r' => some '\r'
  | 't' => some '\t'
  | _ => none

def readString : List Char → Option (List Piece × List Char)
  | [] => none
  | '"' :: rest => some ([], rest)
  | '\\' :: 'u' :: a :: b :: c :: d :: rest =>
      match unit? a b c d with
      | none => none
      | some n => (readString rest).map fun (pieces, rest) => (.unit n :: pieces, rest)
  | '\\' :: c :: rest =>
      match simpleEscape? c with
      | none => none
      | some c => (readString rest).map fun (pieces, rest) => (.char c :: pieces, rest)
  | c :: rest =>
      if c.toNat < 0x20 || c == '\\' then none
      else (readString rest).map fun (pieces, rest) => (.char c :: pieces, rest)

def readLiteral (word : List Char) (value : Written) (chars : List Char) :
    Option (Written × List Char) :=
  if word.isPrefixOf chars then some (value, chars.drop word.length) else none

mutual

def readValue : Nat → List Char → Option (Written × List Char)
  | 0, _ => none
  | fuel + 1, chars =>
      match skipBlanks chars with
      | '"' :: rest => (readString rest).map fun (pieces, rest) => (.string pieces, rest)
      | '[' :: rest =>
          match skipBlanks rest with
          | ']' :: rest => some (.array [], rest)
          | rest => (readItems fuel rest).map fun (items, rest) => (.array items, rest)
      | '\x7b' :: rest =>
          match skipBlanks rest with
          | '\x7d' :: rest => some (.object [], rest)
          | rest => (readMembers fuel rest).map fun (members, rest) => (.object members, rest)
      | 'n' :: rest => readLiteral "null".toList .null ('n' :: rest)
      | 't' :: rest => readLiteral "true".toList (.bool true) ('t' :: rest)
      | 'f' :: rest => readLiteral "false".toList (.bool false) ('f' :: rest)
      | chars => readNumber chars

def readItems : Nat → List Char → Option (List Written × List Char)
  | 0, _ => none
  | fuel + 1, chars =>
      match readValue fuel chars with
      | none => none
      | some (item, rest) =>
          match skipBlanks rest with
          | ',' :: rest => (readItems fuel rest).map fun (items, rest) => (item :: items, rest)
          | ']' :: rest => some ([item], rest)
          | _ => none

def readMembers : Nat → List Char → Option (List (List Piece × Written) × List Char)
  | 0, _ => none
  | fuel + 1, chars =>
      match skipBlanks chars with
      | '"' :: rest =>
          match readString rest with
          | none => none
          | some (name, rest) =>
              match skipBlanks rest with
              | ':' :: rest =>
                  match readValue fuel rest with
                  | none => none
                  | some (value, rest) =>
                      match skipBlanks rest with
                      | ',' :: rest =>
                          (readMembers fuel rest).map fun (members, rest) =>
                            ((name, value) :: members, rest)
                      | '\x7d' :: rest => some ([(name, value)], rest)
                      | _ => none
              | _ => none
      | _ => none

end

def parse? (text : String) : Option Written :=
  let chars := text.toList
  match readValue (2 * chars.length + 2) chars with
  | some (document, rest) => if (skipBlanks rest).isEmpty then some document else none
  | none => none

end Written

end Tollgate.Json
