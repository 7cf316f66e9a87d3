import Tollgate.Definition.Document
import Tollgate.Json.Printer
import Tollgate.Plan.Basic

/-!
# The plan cache

A plan that was built is kept under the id and the version of its definition
and the text of its steps, together with a serial number that tells one kept
plan from another.
-/

namespace Tollgate

structure PlanKey where
  id : String
  version : String
  steps : String
  deriving DecidableEq, Repr

structure KeptPlan where
  serial : Nat
  plan : Plan
  deriving DecidableEq, Repr

structure PlanCache where
  kept : List (PlanKey × KeptPlan) := []
  built : Nat := 0

namespace PlanCache

def keyOf (definition : Definition) : PlanKey where
  id := definition.id
  version := definition.version
  steps := (Json.array (definition.steps.map Step.encode)).compact

def planFor (cache : PlanCache) (definition : Definition) :
    Except Rejection KeptPlan × PlanCache :=
  match cache.kept.lookup (keyOf definition) with
  | some kept => (.ok kept, cache)
  | none =>
      match Plan.build definition.steps with
      | .error rejection => (.error rejection, cache)
      | .ok plan =>
          let kept : KeptPlan := ⟨cache.built, plan⟩
          (.ok kept, ⟨(keyOf definition, kept) :: cache.kept, cache.built + 1⟩)

def clear (cache : PlanCache) : PlanCache := { cache with kept := [] }

end PlanCache

end Tollgate
