import Tollgate.Clock.Moment
import Tollgate.Definition.Document

/-!
# Step results

What became of one step of a run.  An output is present exactly for the two
completed states of the results that the executor makes.
-/

namespace Tollgate

inductive StepStatus where
  | completed
  | completedWithFallback
  | skipped
  | failed
  deriving DecidableEq, Repr

namespace StepStatus

def hasOutput : StepStatus → Bool
  | .completed | .completedWithFallback => true
  | .skipped | .failed => false

def name : StepStatus → String
  | .completed => "completed"
  | .completedWithFallback => "completed_with_fallback"
  | .skipped => "skipped"
  | .failed => "failed"

def all : List StepStatus := [.completed, .completedWithFallback, .skipped, .failed]

def ofName? (name : String) : Option StepStatus := all.find? fun s => s.name == name

end StepStatus

structure StepResult where
  number : Nat
  name : String
  target : String
  status : StepStatus
  output : Option Json := none
  error : Option String := none
  /-- Calls made to the engine; none when the step did not reach it. -/
  attempts : Nat := 0
  retries : Nat := 0
  backoffs : List Nat := []
  startedAt : Moment
  finishedAt : Moment
  /-- A failure that ends the run after the current level. -/
  abortsRun : Bool := false

namespace StepResult

def ofStep (step : Step) (status : StepStatus) (startedAt finishedAt : Moment) : StepResult where
  number := step.number
  name := step.name
  target := step.target
  status := status
  startedAt := startedAt
  finishedAt := finishedAt

def skipped (step : Step) (reason : Option String) (now : Moment) : StepResult :=
  { ofStep step .skipped now now with error := reason }

def failure (step : Step) (message : String) (startedAt now : Moment) : StepResult :=
  let error := s!"step {step.number} ({step.target}): {message}"
  match step.onError with
  | .fail =>
      { ofStep step .failed startedAt now with error := some error, abortsRun := true }
  | .continue =>
      let status := if step.fallback.isSome then .completedWithFallback else .failed
      { ofStep step status startedAt now with error := some error, output := step.fallback }
  | .skip => { ofStep step .skipped startedAt now with error := some error }

def durationMs (result : StepResult) : Nat :=
  (Moment.millisBetween result.startedAt result.finishedAt).toNat

end StepResult

end Tollgate
