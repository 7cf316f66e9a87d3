import Tollgate.Ascending
import Tollgate.Definition.Issue
import Tollgate.Definition.Step
import Tollgate.Expr.Parser

/-!
# The structure of step lists

Steps are numbered from one without gaps, each produces a variable of its own,
and a reference names an earlier step together with that step's variable.
Every departure from this is reported.
-/

namespace Tollgate.Structure

def repeats (numbers : List Nat) : List Nat :=
  (Ascending.ofList numbers).flatMap fun n => List.replicate (numbers.count n - 1) n

/-- The first of the ascending numbers that is not the next one from `expected`. -/
def firstGap (expected : Nat) : List Nat → Option Issue
  | [] => none
  | n :: rest =>
      if n = expected then firstGap (expected + 1) rest else some (.notContiguous expected n)

def numberIssues (steps : List Step) : List Issue :=
  let numbers := steps.map Step.number
  (repeats numbers).map .duplicateNumber ++ (firstGap 1 (Ascending.ofList numbers)).toList

/-- The number of the latest of the earlier steps, given last first, with this output. -/
def producer? (earlier : List Step) (output : String) : Option Nat :=
  (earlier.find? fun step => step.output == output).map Step.number

def outputIssuesFrom (earlier : List Step) : List Step → List Issue
  | [] => []
  | step :: rest =>
      if Text.isBlank step.output then
        .emptyOutput step.number :: outputIssuesFrom earlier rest
      else
        match producer? earlier step.output with
        | some other =>
            .duplicateOutput step.number other step.output ::
              outputIssuesFrom (step :: earlier) rest
        | none => outputIssuesFrom (step :: earlier) rest

def outputIssues (steps : List Step) : List Issue := outputIssuesFrom [] steps

/-- The variable of a step; where a number is used twice the last step counts. -/
def outputOf? (steps : List Step) (number : Nat) : Option String :=
  (steps.reverse.find? fun step => step.number == number).map Step.output

def referenceIssues (steps : List Step) (step : Step)
    (reference : String × Reference × Nat) : List Issue :=
  let (raw, target, number) := reference
  match outputOf? steps number with
  | none => [.dangling step.number number]
  | some expected =>
      (if number = step.number then [.selfReference step.number]
        else if step.number < number then [.forward step.number number]
        else []) ++
      (if target.path.head? = some expected then []
        else [.outputMismatch step.number number raw s!"$step{number}.{expected}"])

def conditionIssues (step : Step) : List Issue :=
  match step.activeCondition with
  | none => []
  | some condition =>
      match Expr.parse condition with
      | .ok _ => []
      | .error error => [.invalidCondition step.number error.message]

def stepIssues (steps : List Step) (step : Step) : List Issue :=
  step.stepReferences.flatMap (referenceIssues steps step) ++ conditionIssues step

/-- All issues of a list of steps, except cycles. -/
def issues (steps : List Step) : List Issue :=
  if steps.isEmpty then [.noSteps]
  else numberIssues steps ++ outputIssues steps ++ steps.flatMap (stepIssues steps)

end Tollgate.Structure
