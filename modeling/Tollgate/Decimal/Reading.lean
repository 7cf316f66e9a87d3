import Tollgate.Text.Blank

/-!
# Reading numbers

A decimal text is cut into its digits and a power of ten, and the nearest
float is taken.  Texts of any length are read, so the power of ten is first
compared with the range of finite floats.
-/

namespace Tollgate.Decimal

def infinity : Float := Float.ofBits 0x7FF0000000000000

def notANumber : Float := Float.ofBits 0x7FF8000000000000

/-- The float nearest to `digits * 10 ^ exponent`. -/
def nearest (digits : Nat) (exponent : Int) : Float :=
  if digits = 0 then 0.0
  else
    let leading : Int := (Nat.toDigits 10 digits).length + exponent
    if 310 < leading then infinity
    else if leading < -330 then 0.0
    else Float.ofScientific digits (exponent < 0) exponent.natAbs

structure Numeral where
  whole : List Char
  fraction : Option (List Char)
  exponent : Option Int

namespace Numeral

def digitValue (chars : List Char) : Nat :=
  chars.foldl (fun total c => total * 10 + (c.toNat - 48)) 0

def value (n : Numeral) : Float :=
  let places := n.fraction.getD []
  nearest (digitValue (n.whole ++ places)) (n.exponent.getD 0 - places.length)

def readExponent : List Char → Option (Int × List Char)
  | mark :: rest =>
      if mark = 'e' || mark = 'E' then
        let (negative, rest) := match rest with
          | '-' :: rest => (true, rest)
          | '+' :: rest => (false, rest)
          | rest => (false, rest)
        let digits := rest.takeWhile Char.isDigit
        if digits.isEmpty then none
        else
          let size : Int := digitValue digits
          some (if negative then -size else size, rest.dropWhile Char.isDigit)
      else none
  | [] => none

/-- The longest numeral that starts the text, and what follows it. -/
def scan (chars : List Char) : Numeral × List Char :=
  let whole := chars.takeWhile Char.isDigit
  let rest := chars.dropWhile Char.isDigit
  let (fraction, rest) := match rest with
    | '.' :: rest => (some (rest.takeWhile Char.isDigit), rest.dropWhile Char.isDigit)
    | rest => (none, rest)
  match readExponent rest with
  | some (exponent, rest) => (⟨whole, fraction, some exponent⟩, rest)
  | none => (⟨whole, fraction, none⟩, rest)

def hasDigits (n : Numeral) : Bool :=
  !(n.whole.isEmpty && (n.fraction.getD []).isEmpty)

end Numeral

def lower (chars : List Char) : List Char := chars.map Char.toLower

/-- Reads an optional sign and either a decimal numeral or a name of infinity or not-a-number. -/
def float? (text : String) : Option Float :=
  let (negative, body) := match text.toList with
    | '-' :: rest => (true, rest)
    | '+' :: rest => (false, rest)
    | rest => (false, rest)
  let signed (x : Float) : Float := if negative then -x else x
  if lower body = "inf".toList || lower body = "infinity".toList then some (signed infinity)
  else if lower body = "nan".toList then some notANumber
  else
    match Numeral.scan body with
    | (n, []) => if n.hasDigits then some (signed n.value) else none
    | (_, _ :: _) => none

def finite? (text : String) : Option Float :=
  (float? text).filter Float.isFinite

end Tollgate.Decimal
