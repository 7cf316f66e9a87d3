import Tollgate.Document.Basic
import Tollgate.Yaml.Expansion
import Tollgate.Yaml.Schema

/-!
# YAML documents

In YAML any scalar can be read as a text, and nothing at all as an empty list
or record.  Numbers and truth values are read from plain scalars.  Nodes are
read after their aliases have been expanded.
-/

namespace Tollgate.Yaml.Node

def customTag? (tag : Option Tag) : Option String := tag.bind Tag.name?

def typedText? (tag : Tag) : Node → Option String
  | .scalar _ .plain text => some text
  | .scalar (some other) .literal text => if other = tag then some text else none
  | _ => none

def natural? (node : Node) : Option Nat := (typedText? Schema.intTag node).bind Schema.natural?

def float? (node : Node) : Option Float := (typedText? Schema.floatTag node).bind Schema.float?

def bool? (node : Node) : Option Bool := (typedText? Schema.boolTag node).bind Schema.bool?

/-- Whether nothing or a null is written; a null tag allows nothing else. -/
def absent? : Node → Option Bool
  | .scalar none .plain text => some (text = "" || Schema.isNull text)
  | .scalar (some tag) .plain text =>
      if tag = Schema.nullTag then (if Schema.isNull text then some true else none)
      else some false
  | _ => some false

def items? : Node → Option (List Node)
  | .sequence _ items => some items
  | .scalar _ .plain "" => some []
  | _ => none

def members? : Node → Option (List (String × Node))
  | .mapping _ entries => entries.mapM fun (key, value) => do return (← text? key, value)
  | .scalar _ .plain "" => some []
  | _ => none

def valueWithin? : Nat → Node → Option Json
  | _, .scalar none .plain text => Schema.plain? text
  | _, .scalar none _ text => some (.string text)
  | _, .scalar (some tag) style text =>
      if tag.name?.isSome then none
      else if tag.isOwn && style = .plain then Schema.plain? text
      else Schema.tagged? tag text
  | 0, _ => none
  | depth + 1, .sequence tag items =>
      if (customTag? tag).isSome then none
      else (items.mapM (valueWithin? depth)).map .array
  | depth + 1, .mapping tag entries =>
      if (customTag? tag).isSome then none
      else
        (entries.mapM fun (key, value) => do
          return (← text? key, ← valueWithin? depth value)).map fun pairs =>
            .object (Json.ofPairs pairs)
  | _ + 1, .alias _ => none

def value? (node : Node) : Option Json := valueWithin? depthLimit node

def variant? : Node → Option (String × Option Node)
  | .scalar tag style text =>
      match customTag? tag with
      | some name => some (name, some (.scalar none style text))
      | none => some (text, none)
  | .sequence tag items => (customTag? tag).map fun name => (name, some (.sequence none items))
  | .mapping tag entries => (customTag? tag).map fun name => (name, some (.mapping none entries))
  | .alias _ => none

instance : Document Node where
  text? := text?
  natural? := natural?
  float? := float?
  bool? := bool?
  absent? := absent?
  items? := items?
  row? := fun _ => none
  members? := members?
  value? := value?
  variant? := variant?

end Tollgate.Yaml.Node
