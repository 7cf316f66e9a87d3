import Tollgate.Expr.Parser
import Tollgate.Json.Printer

/-!
# Evaluating expressions

A scope gives values to references; what it does not resolve is `null`.
Comparisons are numeric when both sides are numbers or numeric texts, a sum
with a text concatenates, and arithmetic on anything but numbers is an error.
-/

namespace Tollgate

namespace Json

/-- `null`, `false`, zero and everything empty are false. -/
def truthy : Json → Bool
  | .null => false
  | .bool b => b
  | .number n => !(n.toFloat == 0.0)
  | .string s => !s.isEmpty
  | .array items => !items.isEmpty
  | .object fields => !fields.isEmpty

/-- The text of a value inside other text: strings bare, `null` empty. -/
def display : Json → String
  | .string s => s
  | .null => ""
  | value => value.compact

def kindName : Json → String
  | .null => "null"
  | .bool _ => "boolean"
  | .number _ => "number"
  | .string _ => "string"
  | .array _ => "array"
  | .object _ => "object"

def isNumber : Json → Bool
  | .number _ => true
  | _ => false

def isString : Json → Bool
  | .string _ => true
  | _ => false

/-- Numbers, and texts that read as a finite number once trimmed. -/
def numeric? : Json → Option Float
  | .number n => some n.toFloat
  | .string s => Decimal.finite? (Text.trim s)
  | _ => none

end Json

abbrev Scope := Reference → Option Json

namespace Expr

def compareFloats (a b : Float) : Option Ordering :=
  if a < b then some .lt
  else if a == b then some .eq
  else if b < a then some .gt
  else none

def compareTexts (a b : String) : Ordering :=
  if a < b then .lt else if a = b then .eq else .gt

/-- Numeric when both sides are numeric, by characters between two texts, otherwise absent. -/
def ordering? (l r : Json) : Option Ordering :=
  match l.numeric?, r.numeric? with
  | some a, some b => compareFloats a b
  | _, _ =>
      match l, r with
      | .string a, .string b => some (compareTexts a b)
      | _, _ => none

/-- Numeric when both sides are numeric and one is a number, otherwise structural. -/
def equal (l r : Json) : Bool :=
  match l.numeric?, r.numeric? with
  | some a, some b => if l.isNumber || r.isNumber then a == b else l.same r
  | _, _ => l.same r

def computed (x : Float) : Except EvalError Json :=
  if !x.isFinite then .error .nonFinite
  else
    match Json.Number.ofComputed? x with
    | some n => .ok (.number n)
    | none => .error .nonFinite

def arithmetic (op : Operator) (l r : Json)
    (f : Float → Float → Except EvalError Float) : Except EvalError Json :=
  match l.float?, r.float? with
  | some a, some b =>
      match f a b with
      | .ok x => computed x
      | .error error => .error error
  | _, _ => .error (.typeMismatch op.text l.kindName r.kindName)

def divide (a b : Float) : Except EvalError Float :=
  if b == 0.0 then .error .divisionByZero else .ok (a / b)

def binary (op : Operator) (l r : Json) : Except EvalError Json :=
  match op with
  | .eq => .ok (.bool (equal l r))
  | .ne => .ok (.bool (!equal l r))
  | .gt => .ok (.bool ((ordering? l r).any Ordering.isGT))
  | .lt => .ok (.bool ((ordering? l r).any Ordering.isLT))
  | .ge => .ok (.bool ((ordering? l r).any Ordering.isGE))
  | .le => .ok (.bool ((ordering? l r).any Ordering.isLE))
  | .add =>
      if l.isString || r.isString then .ok (.string (l.display ++ r.display))
      else arithmetic op l r fun a b => .ok (a + b)
  | .sub => arithmetic op l r fun a b => .ok (a - b)
  | .mul => arithmetic op l r fun a b => .ok (a * b)
  | .div => arithmetic op l r divide

def negate (value : Json) : Except EvalError Json :=
  match value.float? with
  | some x => computed (-x)
  | none => .error (.invalidNegation value.kindName)

def Tree.eval (scope : Scope) : Tree → Except EvalError Json
  | .literal value => .ok value
  | .variable target => .ok ((scope target).getD .null)
  | .not operand =>
      match operand.eval scope with
      | .ok value => .ok (.bool (!value.truthy))
      | .error error => .error error
  | .negate operand =>
      match operand.eval scope with
      | .ok value => Expr.negate value
      | .error error => .error error
  | .and left right =>
      match left.eval scope with
      | .ok value =>
          if value.truthy then
            match right.eval scope with
            | .ok value => .ok (.bool value.truthy)
            | .error error => .error error
          else .ok (.bool false)
      | .error error => .error error
  | .or left right =>
      match left.eval scope with
      | .ok value =>
          if value.truthy then .ok (.bool true)
          else
            match right.eval scope with
            | .ok value => .ok (.bool value.truthy)
            | .error error => .error error
      | .error error => .error error
  | .binary op left right =>
      match left.eval scope with
      | .ok l =>
          match right.eval scope with
          | .ok r => Expr.binary op l r
          | .error error => .error error
      | .error error => .error error
  | .conditional condition yes no =>
      match condition.eval scope with
      | .ok value => if value.truthy then yes.eval scope else no.eval scope
      | .error error => .error error

/-- The value of a text; a blank text is true. -/
def evaluate (scope : Scope) (text : String) : Except EvalError Json :=
  if Text.isBlank text then .ok (.bool true)
  else
    match parse (Text.trim text) with
    | .ok tree => tree.eval scope
    | .error error => .error (.parse error)

def holds (scope : Scope) (text : String) : Except EvalError Bool :=
  (evaluate scope text).map Json.truthy

end Expr

end Tollgate
