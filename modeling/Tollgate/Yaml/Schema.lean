import Tollgate.Decimal.Reading
import Tollgate.Json.Basic
import Tollgate.Yaml.Tag

/-!
# The core schema

A plain scalar stands for null, a truth value or a number if it is written as
one, and for its own text otherwise.  A run of digits that begins with a
needless zero is a text.
-/

namespace Tollgate.Yaml.Schema

def isNull (text : String) : Bool := ["null", "Null", "NULL", "~"].contains text

def bool? (text : String) : Option Bool :=
  if ["true", "True", "TRUE"].contains text then some true
  else if ["false", "False", "FALSE"].contains text then some false
  else none

def digitsIn? (base : Nat) (chars : List Char) : Option Nat :=
  if chars.isEmpty then none
  else
    chars.foldl
      (fun total c =>
        total.bind fun n => ((Quoted.hexValue? c).filter (· < base)).map fun d => n * base + d)
      (some 0)

/-- Hexadecimal, octal and binary numerals are marked by a letter after a zero. -/
def base? (mark : Char) : Option Nat := [('x', 16), ('o', 8), ('b', 2)].lookup mark

def isPadded : List Char → Bool
  | '0' :: rest => !rest.isEmpty && rest.all Char.isDigit
  | _ => false

def magnitude? (chars : List Char) : Option Nat :=
  match chars with
  | '0' :: mark :: rest =>
      match base? mark with
      | some base => digitsIn? base rest
      | none => if isPadded chars then none else Text.digits? chars
  | _ => Text.digits? chars

def natural? (text : String) : Option Nat :=
  match text.toList with
  | '+' :: rest => magnitude? rest
  | chars => magnitude? chars

def integer? (text : String) : Option Int :=
  match text.toList with
  | '-' :: rest => (magnitude? rest).map fun n => -(n : Int)
  | _ => (natural? text).map Int.ofNat

/-- A decimal numeral of a finite float, or a name that begins with a point. -/
def float? (text : String) : Option Float :=
  let unsigned := match text.toList with
    | '+' :: rest => String.ofList rest
    | _ => text
  if unsigned != text && (unsigned.startsWith "+" || unsigned.startsWith "-") then none
  else if [".inf", ".Inf", ".INF"].contains unsigned then some Decimal.infinity
  else if ["-.inf", "-.Inf", "-.INF"].contains text then some (-Decimal.infinity)
  else if [".nan", ".NaN", ".NAN"].contains text then some Decimal.notANumber
  else Decimal.finite? unsigned

/-- Integers are read as such up to 128 bits, but only those of 64 bits are values. -/
def wideInteger? (text : String) : Option Int :=
  (integer? text).filter fun n =>
    decide (-0x80000000000000000000000000000000 ≤ n ∧ n < 0x100000000000000000000000000000000)

def ofInteger? (n : Int) : Option Json := (Json.Number.ofInt? n).map .number

def unsignedChars (text : String) : List Char :=
  match text.toList with
  | '-' :: rest => rest
  | '+' :: rest => rest
  | chars => chars

def plain? (text : String) : Option Json :=
  if text = "" || isNull text then some .null
  else
    match bool? text, wideInteger? text with
    | some b, _ => some (.bool b)
    | none, some n => ofInteger? n
    | none, none =>
        match (if isPadded (unsignedChars text) then none else float? text) with
        | some x => some (Json.ofFloat x)
        | none => some (.string text)

def boolTag : Tag := Tag.ofString "tag:yaml.org,2002:bool"
def intTag : Tag := Tag.ofString "tag:yaml.org,2002:int"
def floatTag : Tag := Tag.ofString "tag:yaml.org,2002:float"
def nullTag : Tag := Tag.ofString "tag:yaml.org,2002:null"

/-- The value of a scalar under one of the tags of the schema; other tags stand for texts. -/
def tagged? (tag : Tag) (text : String) : Option Json :=
  if tag = boolTag then (bool? text).map .bool
  else if tag = intTag then (wideInteger? text).bind ofInteger?
  else if tag = floatTag then (float? text).map Json.ofFloat
  else if tag = nullTag then (if isNull text then some .null else none)
  else some (.string text)

end Tollgate.Yaml.Schema
