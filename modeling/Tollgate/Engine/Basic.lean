import Tollgate.Json.Basic

/-!
# Engines

An engine serves named functions.  A call reads and changes a state of the
engine's choosing, and its reply says how long it took besides what came of it.
-/

namespace Tollgate

inductive EngineError where
  /-- Worth another attempt. -/
  | transient (reason : String)
  | permanent (reason : String)
  | unknownFunction (tool function : String)
  | timedOut (millis : Nat)
  deriving DecidableEq, Repr

namespace EngineError

def isTransient : EngineError → Bool
  | .transient _ | .timedOut _ => true
  | .permanent _ | .unknownFunction .. => false

def message : EngineError → String
  | .transient reason => "transient engine error: " ++ reason
  | .permanent reason => "engine error: " ++ reason
  | .unknownFunction tool function =>
      "unknown function '" ++ function ++ "' on engine '" ++ tool ++ "'"
  | .timedOut millis => "step timed out after " ++ toString millis ++ " ms"

end EngineError

structure Reply where
  outcome : Except EngineError Json
  millis : Nat := 0

structure Engine (σ : Type) where
  name : String
  functions : List String
  call : String → Json → σ → Reply × σ

namespace Engine

def serves {σ : Type} (engine : Engine σ) (function : String) : Bool :=
  engine.functions.contains function

def ofFunction {σ : Type} (name : String) (functions : List String)
    (call : String → Json → Except EngineError Json) : Engine σ where
  name := name
  functions := functions
  call := fun function arguments state => ({ outcome := call function arguments }, state)

end Engine

end Tollgate
