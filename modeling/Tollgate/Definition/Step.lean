import Tollgate.Expr.Scan
import Tollgate.Json.Basic

/-!
# Steps

A step calls one function of an engine.  Its inputs and its condition may refer
to the run input, to metadata and to the outputs of other steps; the references
found here are what a plan is made from.
-/

namespace Tollgate

/-- What becomes of a run when a step fails for good. -/
inductive FailurePolicy where
  | fail
  | continue
  | skip
  deriving DecidableEq, Repr

structure Step where
  number : Nat
  name : String
  tool : String
  function : String
  inputs : List (String × Json)
  output : String
  condition : Option String
  retries : Nat
  onError : FailurePolicy
  fallback : Option Json
  timeoutSeconds : Option Nat
  deriving BEq

namespace Json

mutual

def references : Json → List (String × Reference)
  | .string s =>
      (Template.split s).filterMap fun
        | .text _ => none
        | .reference raw target => some (raw, target)
  | .array items => itemReferences items
  | .object fields => fieldReferences fields
  | _ => []

def itemReferences : List Json → List (String × Reference)
  | [] => []
  | item :: rest => references item ++ itemReferences rest

def fieldReferences : List (String × Json) → List (String × Reference)
  | [] => []
  | (_, value) :: rest => references value ++ fieldReferences rest

end

end Json

namespace Step

def make (number : Nat) (tool function : String) : Step where
  number := number
  name := "Step " ++ toString number
  tool := Text.trim tool
  function := Text.trim function
  inputs := []
  output := "step" ++ toString number ++ "_output"
  condition := none
  retries := 0
  onError := .fail
  fallback := none
  timeoutSeconds := none

def withInput (step : Step) (name : String) (value : Json) : Step :=
  { step with inputs := Json.insert name value step.inputs }

def withOutput (step : Step) (output : String) : Step :=
  { step with output := Text.trim output }

def target (step : Step) : String := step.tool ++ "." ++ step.function

def activeCondition (step : Step) : Option String :=
  (step.condition.map Text.trim).filter (· ≠ "")

/-- The distinct reference texts of the inputs, then those of the condition. -/
def references (step : Step) : List String :=
  ((Json.fieldReferences step.inputs).map Prod.fst ++
    (step.activeCondition.map Reference.scan).getD []).eraseDups

def stepReferences (step : Step) : List (String × Reference × Nat) :=
  step.references.filterMap fun raw =>
    (Reference.parse? raw).bind fun target => target.step?.map fun n => (raw, target, n)

end Step

end Tollgate
