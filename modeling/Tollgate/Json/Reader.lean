import Tollgate.Json.Basic
import Tollgate.Json.Written

/-!
# Reading JSON

`Json.parse?` reads the value of a document.  Nesting is limited to 127 levels.
A numeral that is no 64-bit integer becomes a float: the digits that fit 64
bits are scaled once by a power of ten, and a result out of range is refused.
Of members with one name the last one counts.
-/

namespace Tollgate.Json

namespace Number

def significant : Nat → List Char → Nat × Nat
  | total, [] => (total, 0)
  | total, c :: rest =>
      let next := total * 10 + (c.toNat - 48)
      if next < Bound.longWord then significant next rest else (total, rest.length + 1)

def powerOfTen (n : Nat) : Float := Float.ofScientific 1 false n

/-- Scales by `10 ^ exponent` in one step, or from below in steps of `10 ^ 308`. -/
def scaleFloat (x : Float) (exponent : Int) : Option Float :=
  if 0 ≤ exponent then
    if x == 0.0 then some x
    else if 308 < exponent then none
    else some (x * powerOfTen exponent.toNat)
  else if exponent < -700 then some 0.0
  else
    let size := exponent.natAbs
    let x := (List.range ((size - 1) / 308)).foldl (fun x _ => x / powerOfTen 308) x
    some (x / powerOfTen (size - (size - 1) / 308 * 308))

def ofNumeral? (negative : Bool) (n : Decimal.Numeral) : Option Number :=
  let (head, dropped) := significant 0 n.whole
  let signed (x : Float) : Float := if negative then -x else x
  match n.fraction, n.exponent, dropped with
  | none, none, 0 =>
      if negative && (head = 0 || 0x8000000000000000 < head) then
        Number.ofFloat? (signed (Float.ofNat head))
      else Number.ofInt? (if negative then -head else head)
  | fraction, exponent, dropped =>
      let places := fraction.getD []
      let (total, cut) := significant head places
      let shift : Int := dropped - (places.length - cut : Nat)
      ((scaleFloat (Float.ofNat total) (shift + exponent.getD 0)).map signed).bind
        Number.ofFloat?

end Number

namespace Written

def isLeading (n : Nat) : Bool := 0xD800 ≤ n && n ≤ 0xDBFF

def isTrailing (n : Nat) : Bool := 0xDC00 ≤ n && n ≤ 0xDFFF

def decode : List Piece → Option (List Char)
  | [] => some []
  | .char c :: rest => (decode rest).map (c :: ·)
  | .unit high :: .unit low :: rest =>
      if isLeading high then
        if isTrailing low then
          (decode rest).map
            (Char.ofNat (0x10000 + (high - 0xD800) * 0x400 + (low - 0xDC00)) :: ·)
        else none
      else if isTrailing high then none
      else (decode (.unit low :: rest)).map (Char.ofNat high :: ·)
  | .unit n :: rest =>
      if isLeading n || isTrailing n then none else (decode rest).map (Char.ofNat n :: ·)

def text? (pieces : List Piece) : Option String := (decode pieces).map String.ofList

def depthLimit : Nat := 127

def valueWithin? : Nat → Written → Option Json
  | _, .null => some .null
  | _, .bool b => some (.bool b)
  | _, .number negative numeral => (Number.ofNumeral? negative numeral).map .number
  | _, .string pieces => (text? pieces).map .string
  | 0, _ => none
  | depth + 1, .array items => (items.mapM (valueWithin? depth)).map .array
  | depth + 1, .object members =>
      (members.mapM fun (name, content) => do
        return (← text? name, ← valueWithin? depth content)).map fun pairs =>
          .object (ofPairs pairs)

def value? (document : Written) : Option Json := valueWithin? depthLimit document

end Written

def parse? (text : String) : Option Json := (Written.parse? text).bind Written.value?

end Tollgate.Json
