import Tollgate.Definition.Settings
import Tollgate.Definition.Issue
import Tollgate.Engine.Basic

/-!
# The engine registry

Engines are registered under their trimmed names.  A step's target resolves to
the engine of that name if it serves the function.
-/

namespace Tollgate

structure Registry (σ : Type) where
  engines : List (String × Engine σ) := []

namespace Registry

variable {σ : Type}

def register (registry : Registry σ) (engine : Engine σ) :
    Except ConfigError (Registry σ) :=
  let name := Text.trim engine.name
  if name = "" then .error (.invalid "engine name must not be empty")
  else if (registry.engines.lookup name).isSome then .error (.duplicateEngine name)
  else if engine.functions.isEmpty then
    .error (.invalid ("engine '" ++ name ++ "' serves no functions"))
  else .ok ⟨(name, engine) :: registry.engines⟩

def resolve (registry : Registry σ) (tool function : String) : Except EngineError (Engine σ) :=
  match (registry.engines.lookup tool).filter fun engine => engine.serves function with
  | some engine => .ok engine
  | none => .error (.unknownFunction tool function)

def supports (registry : Registry σ) (step : Step) : Bool :=
  (registry.resolve step.tool step.function).isOk

def names (registry : Registry σ) : List String :=
  Ascending.ofList (registry.engines.map Prod.fst)

def verify (registry : Registry σ) (steps : List Step) : Except Rejection Unit :=
  match steps.filter fun step => !registry.supports step with
  | [] => .ok ()
  | missing =>
      .error ⟨missing.map fun step => .unknownTarget step.number step.tool step.function⟩

end Registry

end Tollgate
