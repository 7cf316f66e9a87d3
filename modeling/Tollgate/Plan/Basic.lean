import Tollgate.Definition.Basic
import Tollgate.Definition.Structure
import Tollgate.Plan.Cycles
import Tollgate.Plan.Levels

/-!
# Plans

A plan is made from a list of steps without issues and without cycles.
`Plan.build` fails with everything that is wrong; `Plan.analyze` reports on any
definition.
-/

namespace Tollgate

structure Plan where
  dependencies : Edges
  dependents : Edges
  levels : List (List Nat)
  criticalPath : List Nat
  deriving DecidableEq, Repr

namespace Plan

def ofEdges (edges : Edges) : Plan where
  dependencies := edges
  dependents := edges.converse
  levels := edges.levels
  criticalPath := edges.criticalPath edges.levels

/-- One minus the share of the critical path in all steps. -/
def parallelization (plan : Plan) : Float :=
  if plan.dependencies.isEmpty then 0.0
  else 1.0 - Float.ofNat plan.criticalPath.length / Float.ofNat plan.dependencies.length

def level? (plan : Plan) (node : Nat) : Option Nat :=
  plan.levels.findIdx? fun level => level.contains node

def areIndependent (plan : Plan) (a b : Nat) : Bool :=
  a != b && plan.dependencies.nodes.contains a && plan.dependencies.nodes.contains b &&
    !(plan.dependencies.ancestors a).contains b && !(plan.dependencies.ancestors b).contains a

/-- Everything that is wrong with a list of steps, cycles last. -/
def issues (steps : List Step) : List Issue :=
  Structure.issues steps ++ (Edges.ofSteps steps).cycles.map .cycle

def build (steps : List Step) : Except Rejection Plan :=
  match issues steps with
  | [] => .ok (ofEdges (Edges.ofSteps steps))
  | found => .error ⟨found⟩

end Plan

structure Analysis where
  levels : List (List Nat)
  criticalPath : List Nat
  parallelization : Float
  hasCycles : Bool
  cycles : List (List Nat)
  errors : List String

def Plan.analyze (steps : List Step) : Analysis :=
  let issues := Structure.issues steps
  let edges := Edges.ofSteps steps
  let cycles := edges.cycles
  let errors := issues.map Issue.message ++ cycles.map fun cycle => (Issue.cycle cycle).message
  if !cycles.isEmpty then
    { levels := [], criticalPath := [], parallelization := 0.0, hasCycles := true, cycles, errors }
  else
    let plan := Plan.ofEdges edges
    { levels := plan.levels
      criticalPath := plan.criticalPath
      parallelization := plan.parallelization
      hasCycles := false
      cycles
      errors }

def Analysis.encode (analysis : Analysis) : Json :=
  .object
    [("execution_order", .array (analysis.levels.map Json.ofNats)),
      ("critical_path", Json.ofNats analysis.criticalPath),
      ("parallelization_factor", Json.ofFloat analysis.parallelization),
      ("has_cycles", .bool analysis.hasCycles),
      ("cycles", .array (analysis.cycles.map Json.ofNats)),
      ("validation_errors", Json.ofStrings analysis.errors)]

end Tollgate
