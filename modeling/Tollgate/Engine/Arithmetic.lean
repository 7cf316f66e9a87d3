import Tollgate.Decimal.Layout
import Tollgate.Engine.Basic
import Tollgate.Expr.Tree
import Tollgate.Json.Printer

/-!
# The arithmetic engine

The functions of the engine `math`.  Each returns an object with one field,
`result`.
-/

namespace Tollgate.Arithmetic

def functions : List String := ["add", "subtract", "multiply", "divide", "sum", "identity"]

def wrap (value : Json) : Json := .object [("result", value)]

def argument (arguments : Json) (name : String) : Except EngineError Float :=
  match (arguments.get? name).bind Json.float? with
  | some x => .ok x
  | none => .error (.permanent ("argument '" ++ name ++ "' must be a number"))

def ofFloat (x : Float) : Except EngineError Json :=
  match Json.Number.ofComputed? x with
  | some n => .ok (wrap (.number n))
  | none =>
      .error (.permanent ("result " ++ Decimal.message.write x ++ " is not a finite number"))

def onPair (arguments : Json) (f : Float → Float → Float) : Except EngineError Json := do
  let a ← argument arguments "a"
  let b ← argument arguments "b"
  ofFloat (f a b)

/-- The divisor is looked at before the dividend. -/
def divide (arguments : Json) : Except EngineError Json := do
  let b ← argument arguments "b"
  if b == 0.0 then .error (.permanent "division by zero")
  else
    let a ← argument arguments "a"
    ofFloat (a / b)

def total (sum : Float) : List Json → Except EngineError Float
  | [] => .ok sum
  | value :: rest =>
      match value.float? with
      | some x => total (sum + x) rest
      | none => .error (.permanent ("'" ++ value.compact ++ "' is not a number"))

def sum (arguments : Json) : Except EngineError Json := do
  match (arguments.get? "values").bind Json.items? with
  | some values => ofFloat (← total 0.0 values)
  | none => .error (.permanent "'values' must be an array")

def call (function : String) (arguments : Json) : Except EngineError Json :=
  match function with
  | "add" => onPair arguments (· + ·)
  | "subtract" => onPair arguments (· - ·)
  | "multiply" => onPair arguments (· * ·)
  | "divide" => divide arguments
  | "sum" => sum arguments
  | "identity" => .ok (wrap ((arguments.get? "value").getD .null))
  | other => .error (.unknownFunction "math" other)

def engine {σ : Type} : Engine σ := .ofFunction "math" functions call

end Tollgate.Arithmetic
