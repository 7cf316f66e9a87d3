/-!
# Structural issues

What can be wrong with a list of steps.  A definition with any issue is
rejected as a whole, with all of them in the order in which they were found.
-/

namespace Tollgate

inductive Issue where
  | noSteps
  | duplicateNumber (number : Nat)
  | notContiguous (expected found : Nat)
  | duplicateOutput (step other : Nat) (output : String)
  | emptyOutput (step : Nat)
  | dangling (step reference : Nat)
  | forward (step reference : Nat)
  | selfReference (step : Nat)
  | outputMismatch (step target : Nat) (reference expected : String)
  | invalidCondition (step : Nat) (message : String)
  | unknownTarget (step : Nat) (tool function : String)
  | cycle (path : List Nat)
  deriving DecidableEq, Repr

namespace Issue

def pathText (path : List Nat) : String :=
  String.intercalate " -> " (path.map fun n => "step" ++ toString n)

def message : Issue → String
  | .noSteps => "Workflow has no steps"
  | .duplicateNumber number => s!"Step number {number} appears more than once"
  | .notContiguous expected found =>
      s!"Step numbers must be contiguous from 1: expected {expected}, found {found}"
  | .duplicateOutput step other output =>
      s!"Step {step}: output variable '{output}' is already produced by step {other}"
  | .emptyOutput step => s!"Step {step} has an empty output variable"
  | .dangling step reference => s!"Step {step} references unknown step {reference}"
  | .forward step reference =>
      s!"Step {step} references step {reference}, which does not run before it"
  | .selfReference step => s!"Step {step} references its own output"
  | .outputMismatch step target reference expected =>
      s!"Step {step}: reference '{reference}' must start with '{expected}', " ++
        s!"the output of step {target}"
  | .invalidCondition step message => s!"Step {step}: condition does not parse: {message}"
  | .unknownTarget step tool function =>
      s!"Step {step}: no calculation engine registered for '{tool}.{function}'"
  | .cycle path => "Dependency cycle: " ++ pathText path

def cycle? : Issue → Option (List Nat)
  | .cycle path => some path
  | _ => none

end Issue

structure Rejection where
  issues : List Issue
  deriving DecidableEq, Repr

namespace Rejection

def message (rejection : Rejection) : String :=
  "Workflow validation failed:\n" ++
    String.intercalate "\n" (rejection.issues.map fun issue => "  - " ++ issue.message)

def cycles (rejection : Rejection) : List (List Nat) :=
  rejection.issues.filterMap Issue.cycle?

end Rejection

end Tollgate
