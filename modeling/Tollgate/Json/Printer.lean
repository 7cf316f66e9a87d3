import Tollgate.Decimal.Layout
import Tollgate.Json.Basic

/-!
# JSON text

`compact` writes a value without blanks and `pretty` with one member a line.
Only quotes, backslashes and control characters are escaped.
-/

namespace Tollgate.Json

/-- The shortest digits, positional from `0.00001` to below `1e+16`. -/
def numberLayout : Decimal.Layout where
  plain := fun e => -5 ≤ e && e < 16
  pointZero := true
  exponentPlus := true
  tie := .toEven
  nan := "null"
  infinity := "null"

def Number.text : Number → String
  | .integer n _ => toString n
  | .float x _ => numberLayout.write x

def hexDigit (n : Nat) : Char := Nat.digitChar n

def escapeChar (c : Char) : List Char :=
  if c = '"' then ['\\', '"']
  else if c = '\\' then ['\\', '\\']
  else if c = '\n' then ['\\', 'n']
  else if c = '\r' then ['\\', 'r']
  else if c = '\t' then ['\\', 't']
  else if c = '\x08' then ['\\', 'b']
  else if c = '\x0c' then ['\\', 'f']
  else if c.toNat < 0x20 then
    ['\\', 'u', '0', '0', hexDigit (c.toNat / 16), hexDigit (c.toNat % 16)]
  else [c]

def escape (chars : List Char) : List Char := chars.flatMap escapeChar

def quoted (text : String) : String :=
  "\"" ++ String.ofList (escape text.toList) ++ "\""

mutual

def compact : Json → String
  | .null => "null"
  | .bool b => if b then "true" else "false"
  | .number n => n.text
  | .string s => quoted s
  | .array items => "[" ++ compactItems items ++ "]"
  | .object fields => "\x7b" ++ compactFields fields ++ "\x7d"

def compactItems : List Json → String
  | [] => ""
  | [item] => compact item
  | item :: rest => compact item ++ "," ++ compactItems rest

def compactFields : List (String × Json) → String
  | [] => ""
  | [(key, value)] => quoted key ++ ":" ++ compact value
  | (key, value) :: rest =>
      quoted key ++ ":" ++ compact value ++ "," ++ compactFields rest

end

def indent (depth : Nat) : String :=
  "\n" ++ String.ofList (List.replicate (2 * depth) ' ')

mutual

def prettyAt (depth : Nat) : Json → String
  | .array [] => "[]"
  | .array items =>
      "[" ++ indent (depth + 1) ++ prettyItems (depth + 1) items ++ indent depth ++ "]"
  | .object [] => "\x7b\x7d"
  | .object fields =>
      "\x7b" ++ indent (depth + 1) ++ prettyFields (depth + 1) fields ++ indent depth ++ "\x7d"
  | value => compact value

def prettyItems (depth : Nat) : List Json → String
  | [] => ""
  | [item] => prettyAt depth item
  | item :: rest => prettyAt depth item ++ "," ++ indent depth ++ prettyItems depth rest

def prettyFields (depth : Nat) : List (String × Json) → String
  | [] => ""
  | [(key, value)] => quoted key ++ ": " ++ prettyAt depth value
  | (key, value) :: rest =>
      quoted key ++ ": " ++ prettyAt depth value ++ "," ++ indent depth ++
        prettyFields depth rest

end

def pretty (value : Json) : String := prettyAt 0 value

end Tollgate.Json
