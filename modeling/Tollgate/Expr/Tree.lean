import Tollgate.Expr.Token
import Tollgate.Json.Basic

/-!
# Expression trees

The tree of an expression, the references in it in source order, and the value
that a numeral of the text stands for.
-/

namespace Tollgate

namespace Json.Number

/-- The integer of size below `2 ^ 53` that a float is equal to, if there is one. -/
def whole? (x : Float) : Option Int :=
  match x.toModel.unpack with
  | .zero _ => some 0
  | .finite sign mantissa exponent _ =>
      let unit := Decimal.twoTo (-exponent).toNat
      if mantissa % unit = 0 then
        let size := mantissa * Decimal.twoTo exponent.toNat / unit
        if size < 0x20000000000000 then
          some (match sign with
            | .positive => Int.ofNat size
            | .negative => -Int.ofNat size)
        else none
      else none
  | _ => none

/-- The number written for a computed float: small integral values are integers. -/
def ofComputed? (x : Float) : Option Number :=
  match whole? x with
  | some n => ofInt? n
  | none => ofFloat? x

end Json.Number

namespace Expr

inductive Tree where
  | literal (value : Json)
  | variable (target : Reference)
  | not (operand : Tree)
  | negate (operand : Tree)
  | and (left right : Tree)
  | or (left right : Tree)
  | binary (op : Operator) (left right : Tree)
  | conditional (condition yes no : Tree)

namespace Tree

instance : Inhabited Tree := ⟨.literal .null⟩

/-- A numeral too large for a finite number stands for `null`. -/
def numeral (x : Float) : Tree :=
  .literal (((Json.Number.ofComputed? x).map Json.number).getD .null)

def references : Tree → List Reference
  | .literal _ => []
  | .variable target => [target]
  | .not operand => operand.references
  | .negate operand => operand.references
  | .and left right => left.references ++ right.references
  | .or left right => left.references ++ right.references
  | .binary _ left right => left.references ++ right.references
  | .conditional condition yes no => condition.references ++ yes.references ++ no.references

def encode : Tree → Json
  | .literal value => .object [("lit", value)]
  | .variable target => .object [("var", .string target.text)]
  | .not operand => .object [("not", operand.encode)]
  | .negate operand => .object [("neg", operand.encode)]
  | .and left right => .object [("and", .array [left.encode, right.encode])]
  | .or left right => .object [("or", .array [left.encode, right.encode])]
  | .binary op left right =>
      .object [("op", .string op.text), ("args", .array [left.encode, right.encode])]
  | .conditional condition yes no =>
      .object [("if", .array [condition.encode, yes.encode, no.encode])]

end Tree

end Expr

end Tollgate
