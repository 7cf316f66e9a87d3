import Tollgate.Definition.Settings
import Tollgate.Plan.Basic

/-!
# The definition store

Only definitions with sound settings and a plan get in; a later version
replaces an earlier one of the same id.
-/

namespace Tollgate

inductive StoreError where
  | notFound (id : String)
  | config (error : ConfigError)
  | rejected (rejection : Rejection)
  deriving DecidableEq, Repr

def StoreError.message : StoreError → String
  | .notFound id => "workflow definition '" ++ id ++ "' not found"
  | .config error => error.message
  | .rejected rejection => rejection.message

def Definition.check (definition : Definition) : Except StoreError Unit :=
  match definition.checkSettings with
  | .error error => .error (.config error)
  | .ok () =>
      match Plan.build definition.steps with
      | .error rejection => .error (.rejected rejection)
      | .ok _ => .ok ()

structure Store where
  definitions : List Definition := []

namespace Store

def insert (store : Store) (definition : Definition) : Except StoreError Store :=
  match definition.check with
  | .error error => .error error
  | .ok () =>
      .ok ⟨definition :: store.definitions.filter fun other => other.id != definition.id⟩

def get (store : Store) (id : String) : Except StoreError Definition :=
  match store.definitions.find? fun definition => definition.id == id with
  | some definition => .ok definition
  | none => .error (.notFound id)

def ids (store : Store) : List String :=
  Ascending.ofList (store.definitions.map Definition.id)

end Store

end Tollgate
