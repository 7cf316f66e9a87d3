import Tollgate.Decimal.Power

/-!
# Shortest decimals

A finite non-zero float is `m * 2 ^ q`.  The reals that round to it form an
interval that reaches half way to each neighbour, ends included exactly when
`m` is even.  The shortest decimal is the one with the fewest digits in that
interval, and among those the one nearest the value.
-/

namespace Tollgate.Decimal

structure Scientific where
  digits : Nat
  exponent : Int
  deriving DecidableEq, Repr

inductive Tie where
  | toEven
  | up
  deriving DecidableEq, Repr

/-- A positive binary number; below a power of two the neighbour is only half as far away. -/
structure Magnitude where
  mantissa : Nat
  exponent : Int
  narrowBelow : Bool
  deriving DecidableEq, Repr

def Magnitude.ofFinite (mantissa : Nat) (exponent : Int) : Magnitude :=
  ⟨mantissa, exponent, mantissa == 0x10000000000000 && decide (-1074 < exponent)⟩

namespace Magnitude

def scaled (x : Magnitude) (shift : Int) : Nat × Nat :=
  (x.mantissa * twoTo x.exponent.toNat * tenTo shift.toNat,
    twoTo (-x.exponent).toNat * tenTo (-shift).toNat)

/-- The decimal lies in the interval of reals that round to `x`. -/
def readsBack (x : Magnitude) (d : Scientific) : Bool :=
  -- four times the value and four times the ends, over a common denominator
  let unit := twoTo x.exponent.toNat * tenTo (-d.exponent).toNat
  let value := 4 * d.digits * twoTo (-x.exponent).toNat * tenTo d.exponent.toNat
  let below := (4 * x.mantissa - if x.narrowBelow then 1 else 2) * unit
  let above := (4 * x.mantissa + 2) * unit
  if x.mantissa % 2 = 0 then below ≤ value && value ≤ above
  else below < value && value < above

def scale (x : Magnitude) : Int :=
  let bits : Int := x.mantissa.log2 + x.exponent
  -- log10 2 is a little more than 0.30102, so the estimate is at most the answer
  let estimate : Int := (bits * 30102) / 100000 - 1
  let fits (k : Int) : Bool :=
    let (num, den) := x.scaled (-k)
    num < den
  ((List.range 8).map (estimate + Int.ofNat ·)).find? fits |>.getD (estimate + 8)

def onGrid (x : Magnitude) (tie : Tie) (exponent : Int) : Option Scientific :=
  let (num, den) := x.scaled (-exponent)
  let low := num / den
  let lower : Scientific := ⟨low, exponent⟩
  let upper : Scientific := ⟨low + 1, exponent⟩
  match x.readsBack lower && low != 0, x.readsBack upper with
  | false, false => none
  | true, false => some lower
  | false, true => some upper
  | true, true =>
      match compare (2 * num) ((2 * low + 1) * den), tie with
      | .lt, _ => some lower
      | .gt, _ => some upper
      | .eq, .up => some upper
      | .eq, .toEven => some (if low % 2 = 0 then lower else upper)

end Magnitude

def Scientific.strip (d : Scientific) : Scientific :=
  if h : d.digits = 0 then ⟨0, 0⟩
  else if d.digits % 10 = 0 then strip ⟨d.digits / 10, d.exponent + 1⟩
  else d
  termination_by d.digits
  decreasing_by exact Nat.div_lt_self (Nat.pos_of_ne_zero h) (by decide)

def Magnitude.exact (x : Magnitude) : Scientific :=
  if 0 ≤ x.exponent then ⟨x.mantissa * twoTo x.exponent.toNat, 0⟩
  else ⟨x.mantissa * Nat.pow 5 (-x.exponent).toNat, x.exponent⟩

def Magnitude.shortest (x : Magnitude) (tie : Tie) : Scientific :=
  let top := x.scale
  let grids := (List.range 17).map fun n => top - 1 - Int.ofNat n
  ((grids.findSome? (x.onGrid tie)).getD x.exact).strip

end Tollgate.Decimal
