import Tollgate.Definition.Document
import Tollgate.Definition.Settings
import Tollgate.Document.OfYaml

/-!
# Loading definitions

A loaded definition has its steps in the order of their numbers and sound
settings.  Whether its steps have a plan is found out later.
-/

namespace Tollgate.Definition

def load {α : Type} [Document α] (doc : α) : Except ConfigError Definition :=
  match Definition.read doc with
  | .error _ => .error .malformed
  | .ok definition =>
      let definition := definition.sorted
      match definition.checkSettings with
      | .error error => .error error
      | .ok () => .ok definition

def ofYaml (text : String) : Except ConfigError Definition :=
  match Yaml.parse? outline text with
  | none => .error .malformed
  | some node => load node

end Tollgate.Definition
