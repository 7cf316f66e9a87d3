import Tollgate.Decimal.Shortest

/-!
# Writing numbers

A layout records the decisions of one output format.  `Layout.write` lays
out the shortest decimal of a float by it, and `fixed` writes a float with a
set number of places, rounding the exact binary value with ties to even.
-/

namespace Tollgate.Decimal

open Float.Model (UnpackedFloat)

def isNegative : Float.Model.UnpackedFloat.Sign → Bool
  | .positive => false
  | .negative => true

def signText (negative : Bool) : String := if negative then "-" else ""

structure Layout where
  plain : Int → Bool
  pointZero : Bool
  exponentPlus : Bool
  tie : Tie
  nan : String
  infinity : String

def padLeft (width : Nat) (text : String) : String :=
  String.ofList (List.replicate (width - text.length) '0') ++ text

namespace Layout

def positional (style : Layout) (digits : String) (point : Int) : String :=
  let count : Int := digits.length
  if point ≤ 0 then "0." ++ String.ofList (List.replicate (-point).toNat '0') ++ digits
  else if count ≤ point then
    digits ++ String.ofList (List.replicate (point - count).toNat '0') ++
      (if style.pointZero then ".0" else "")
  else
    String.ofList (digits.toList.take point.toNat) ++ "." ++
      String.ofList (digits.toList.drop point.toNat)

def withExponent (style : Layout) (digits : String) (exponent : Int) : String :=
  let body := match digits.toList with
    | [] => ""
    | [d] => String.ofList [d]
    | d :: rest => String.ofList (d :: '.' :: rest)
  let mark := if exponent < 0 then "e-" else if style.exponentPlus then "e+" else "e"
  body ++ mark ++ toString exponent.natAbs

def place (style : Layout) (d : Scientific) : String :=
  let digits := toString d.digits
  let leading : Int := d.exponent + digits.length - 1
  if style.plain leading then style.positional digits (leading + 1)
  else style.withExponent digits leading

def write (style : Layout) (x : Float) : String :=
  match x.toModel.unpack with
  | .notANumber => style.nan
  | .infinity sign => signText (isNegative sign) ++ style.infinity
  | .zero sign => signText (isNegative sign) ++ (if style.pointZero then "0.0" else "0")
  | .finite sign mantissa exponent _ =>
      signText (isNegative sign) ++
        style.place ((Magnitude.ofFinite mantissa exponent).shortest style.tie)

end Layout

def roundDiv (num den : Nat) : Nat :=
  let quotient := num / den
  match compare (2 * (num % den)) den with
  | .lt => quotient
  | .gt => quotient + 1
  | .eq => quotient + quotient % 2

def fixedDigits (places scaled : Nat) : String :=
  let digits := (padLeft (places + 1) (toString scaled)).toList
  let whole := digits.take (digits.length - places)
  if places = 0 then String.ofList whole
  else String.ofList (whole ++ '.' :: digits.drop (digits.length - places))

def fixed (places : Nat) (x : Float) : String :=
  match x.toModel.unpack with
  | .notANumber => "NaN"
  | .infinity sign => signText (isNegative sign) ++ "inf"
  | .zero sign => signText (isNegative sign) ++ fixedDigits places 0
  | .finite sign mantissa exponent _ =>
      let num := mantissa * twoTo exponent.toNat * tenTo places
      signText (isNegative sign) ++
        fixedDigits places (roundDiv num (twoTo (-exponent).toNat))

/-- Numbers inside messages: positional at every size, without a trailing `.0`. -/
def message : Layout where
  plain := fun _ => true
  pointZero := false
  exponentPlus := false
  tie := .up
  nan := "NaN"
  infinity := "inf"

/-- Numbers inside a bracketed list: `.0` is kept and far magnitudes take an exponent. -/
def listed : Layout where
  plain := fun e => -4 ≤ e && e < 16
  pointZero := true
  exponentPlus := false
  tie := .up
  nan := "NaN"
  infinity := "inf"

end Tollgate.Decimal
