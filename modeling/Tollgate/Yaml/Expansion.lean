import Tollgate.Document.Outline
import Tollgate.Yaml.Node

/-!
# Expanding aliases

A document is expanded along an outline: an alias gives way to the node that it
stands for, and the fields that nobody looks at are left out with all aliases
in them.  The steps from an alias to its node are limited by the size of the
document, and the depth of the result is limited too, so that a node may well
contain an alias of itself where nobody looks.
-/

namespace Tollgate.Yaml

def depthLimit : Nat := 128

namespace Node

mutual

def size : Node → Nat
  | .scalar .. | .alias _ => 1
  | .sequence _ items => sizeOfItems items + 2
  | .mapping _ entries => sizeOfEntries entries + 2

def sizeOfItems : List Node → Nat
  | [] => 0
  | item :: items => size item + sizeOfItems items

def sizeOfEntries : List (Node × Node) → Nat
  | [] => 0
  | (key, value) :: entries => size key + size value + sizeOfEntries entries

end

end Node

namespace Graph

abbrev Walk (α : Type) := StateT Nat Option α

def follow (graph : Graph) : Node → Walk Node
  | .alias number => do
      match ← get with
      | 0 => failure
      | left + 1 => do
          set left
          graph.targets[number]?
  | node => return node

def expandWithin (graph : Graph) : Nat → Outline → Node → Walk Node
  | 0, _, node => do
      match ← graph.follow node with
      | .scalar tag style text => return .scalar tag style text
      | _ => failure
  | depth + 1, outline, node => do
      match ← graph.follow node with
      | .sequence tag items =>
          return .sequence tag (← items.mapM (graph.expandWithin depth outline.item))
      | .mapping tag entries =>
          let entries ← entries.filterMapM fun (key, value) => do
            let key ← graph.follow key
            match outline.field? (← key.text?) with
            | some field => return some (key, ← graph.expandWithin depth field value)
            | none => return none
          return .mapping tag entries
      | node => return node

def expand? (graph : Graph) (outline : Outline) : Option Node :=
  (graph.expandWithin depthLimit outline graph.root).run' (100 * graph.root.size)

end Graph

def parse? (outline : Outline) (text : String) : Option Node := do
  (← Graph.parse? text).expand? outline

end Tollgate.Yaml
