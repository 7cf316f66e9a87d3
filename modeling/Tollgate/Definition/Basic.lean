import Tollgate.Ascending
import Tollgate.Definition.Step
import Tollgate.Risk.Rule

/-!
# Definitions

A definition is a list of steps with the risk thresholds and the rules that
govern its runs.
-/

namespace Tollgate

/-- Where autonomy ends: completion without approval, review, and a human in the loop. -/
structure Thresholds where
  autoApprove : Float := 0.3
  requireReview : Float := 0.5
  requireHuman : Float := 0.8
  deriving BEq

structure Definition where
  id : String
  version : String := "1"
  name : String := ""
  description : Option String := none
  thresholds : Thresholds := {}
  steps : List Step
  rules : List Rule := []
  deriving BEq

structure NumberTaken where
  number : Nat
  deriving DecidableEq, Repr

def NumberTaken.message (taken : NumberTaken) : String :=
  "Step " ++ toString taken.number ++ " already exists"

namespace Definition

def named (id : String) : Definition := { id, name := id, steps := [] }

def step? (definition : Definition) (number : Nat) : Option Step :=
  definition.steps.find? fun step => step.number == number

def addStep? (definition : Definition) (step : Step) : Except NumberTaken Definition :=
  match definition.step? step.number with
  | some _ => .error ⟨step.number⟩
  | none => .ok { definition with steps := definition.steps ++ [step] }

def addRule (definition : Definition) (rule : Rule) : Definition :=
  { definition with rules := definition.rules ++ [rule] }

def targets (definition : Definition) : List String :=
  Ascending.ofList (definition.steps.map Step.target)

def sorted (definition : Definition) : Definition :=
  { definition with
    steps := definition.steps.mergeSort fun a b => decide (a.number ≤ b.number) }

end Definition

end Tollgate
