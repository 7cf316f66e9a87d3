import Tollgate.Yaml.Token

/-!
# Nodes

A YAML text holds at most one document, which is one node: a scalar, a sequence,
a mapping or an alias.  Anchors are numbered: a node gets the number of anchors
that have been named before it.  An anchor that is named again leaves its old
number behind and gets a new one, which the next new name gets as well, and a
number stands for the last node that begins with it.
-/

namespace Tollgate.Yaml

inductive Node where
  | scalar (tag : Option Tag) (style : Style) (text : String)
  | sequence (tag : Option Tag) (items : List Node)
  | mapping (tag : Option Tag) (entries : List (Node × Node))
  | alias (number : Nat)

instance : Inhabited Node := ⟨.scalar none .plain ""⟩

namespace Node

def blank : Node := .scalar none .plain ""

def text? : Node → Option String
  | .scalar _ _ text => some text
  | _ => none

end Node

structure Anchored where
  number : Nat
  place : Nat

structure Assembly where
  tokens : List Token
  handles : List (String × Tag) := []
  anchors : List (String × Nat) := []
  begun : List Anchored := []
  targets : List (Nat × Node) := []

structure Properties where
  anchor : Option String := none
  tag : Option (String × Tag) := none

namespace Assembly

def skip (a : Assembly) : Assembly := { a with tokens := a.tokens.drop 1 }

def nextIn (a : Assembly) (tokens : List Token) : Bool := a.tokens.head?.any tokens.contains

def properties (a : Assembly) : Properties × Assembly :=
  match a.tokens with
  | .anchor name :: .tag handle suffix :: rest =>
      (⟨some name, some (handle, suffix)⟩, { a with tokens := rest })
  | .tag handle suffix :: .anchor name :: rest =>
      (⟨some name, some (handle, suffix)⟩, { a with tokens := rest })
  | .anchor name :: rest => (⟨some name, none⟩, { a with tokens := rest })
  | .tag handle suffix :: rest => (⟨none, some (handle, suffix)⟩, { a with tokens := rest })
  | _ => ({}, a)

/-- Writes a tag in full.  A tag without a handle is complete. -/
def resolveTag (a : Assembly) : Option (String × Tag) → Option (Option Tag)
  | none => some none
  | some ("", suffix) => some (some suffix)
  | some (handle, suffix) => do return some ((← a.handles.lookup handle).append suffix)

def begin (a : Assembly) (name : String) : Anchored × Assembly :=
  let number := a.anchors.length
  let others := a.anchors.filter fun anchor => anchor.1 != name
  let anchored := ⟨number, a.begun.length⟩
  (anchored, { a with anchors := (name, number) :: others, begun := anchored :: a.begun })

/-- Ends a node with an anchor, unless a later node has taken over its number. -/
def define (a : Assembly) (anchored : Anchored) (node : Node) : Assembly :=
  match a.begun.find? fun other => other.number == anchored.number with
  | some last =>
      if last.place = anchored.place then
        { a with targets := (anchored.number, node) :: a.targets }
      else a
  | none => a

end Assembly

inductive Place where
  | block
  | entry
  | flow
  deriving DecidableEq

namespace Assembly

mutual

def node : Nat → Place → Assembly → Option (Node × Assembly)
  | 0, _, _ => none
  | fuel + 1, place, a =>
      match a.tokens with
      | .alias name :: _ => do return (.alias (← a.anchors.lookup name), a.skip)
      | _ => do
          let (properties, a) := a.properties
          let tag ← a.resolveTag properties.tag
          match properties.anchor with
          | some name =>
              let (anchored, a) := a.begin name
              let (node, a) ← content fuel place tag true a
              return (node, a.define anchored node)
          | none => content fuel place tag tag.isSome a

def content : Nat → Place → Option Tag → Bool → Assembly → Option (Node × Assembly)
  | 0, _, _, _, _ => none
  | fuel + 1, place, tag, marked, a => do
      let block := place != .flow
      match a.tokens with
      | .scalar style text :: _ => return (.scalar tag style text, a.skip)
      | .flowSequenceStart :: _ =>
          let (items, a) ← flowItems fuel true a.skip
          return (.sequence tag items, a)
      | .flowMappingStart :: _ =>
          let (entries, a) ← flowEntries fuel true a.skip
          return (.mapping tag entries, a)
      | .blockEntry :: _ =>
          if place == .entry then
            let (items, a) ← hangingItems fuel a
            return (.sequence tag items, a)
          else if marked then return (.scalar tag .plain "", a)
          else failure
      | .blockSequenceStart :: _ =>
          if block then
            let (items, a) ← blockItems fuel a.skip
            return (.sequence tag items, a)
          else if marked then return (.scalar tag .plain "", a)
          else failure
      | .blockMappingStart :: _ =>
          if block then
            let (entries, a) ← blockEntries fuel a.skip
            return (.mapping tag entries, a)
          else if marked then return (.scalar tag .plain "", a)
          else failure
      | _ => if marked then return (.scalar tag .plain "", a) else failure

def nodeBefore : Nat → Place → List Token → Assembly → Option (Node × Assembly)
  | 0, _, _, _ => none
  | fuel + 1, place, stops, a =>
      if a.nextIn stops then some (.blank, a) else node fuel place a

def blockItems : Nat → Assembly → Option (List Node × Assembly)
  | 0, _ => none
  | fuel + 1, a =>
      match a.tokens with
      | .blockEntry :: _ => do
          let (item, a) ← nodeBefore fuel .block [.blockEntry, .blockEnd] a.skip
          let (items, a) ← blockItems fuel a
          return (item :: items, a)
      | .blockEnd :: _ => some ([], a.skip)
      | _ => none

/-- The items of a sequence that hangs from a key without indentation. -/
def hangingItems : Nat → Assembly → Option (List Node × Assembly)
  | 0, _ => none
  | fuel + 1, a =>
      match a.tokens with
      | .blockEntry :: _ => do
          let (item, a) ← nodeBefore fuel .block [.blockEntry, .key, .value, .blockEnd] a.skip
          let (items, a) ← hangingItems fuel a
          return (item :: items, a)
      | _ => some ([], a)

def blockEntries : Nat → Assembly → Option (List (Node × Node) × Assembly)
  | 0, _ => none
  | fuel + 1, a =>
      match a.tokens with
      | .key :: _ => do
          let (key, a) ← nodeBefore fuel .entry [.key, .value, .blockEnd] a.skip
          let (value, a) ← blockValue fuel a
          let (entries, a) ← blockEntries fuel a
          return ((key, value) :: entries, a)
      | .blockEnd :: _ => some ([], a.skip)
      | _ => none

def blockValue : Nat → Assembly → Option (Node × Assembly)
  | 0, _ => none
  | fuel + 1, a =>
      if a.nextIn [.value] then nodeBefore fuel .entry [.key, .value, .blockEnd] a.skip
      else some (.blank, a)

def flowItems : Nat → Bool → Assembly → Option (List Node × Assembly)
  | 0, _, _ => none
  | fuel + 1, first, a => do
      if a.nextIn [.flowSequenceEnd] then return ([], a.skip)
      if !first && !a.nextIn [.flowEntry] then failure
      let a := if first then a else a.skip
      if a.nextIn [.flowSequenceEnd] then return ([], a.skip)
      let (item, a) ←
        if a.nextIn [.key] then flowPair fuel a.skip else node fuel .flow a
      let (items, a) ← flowItems fuel false a
      return (item :: items, a)

def flowPair : Nat → Assembly → Option (Node × Assembly)
  | 0, _ => none
  | fuel + 1, a => do
      let (key, a) ←
        if a.nextIn [.value, .flowEntry, .flowSequenceEnd] then pure (.blank, a.skip)
        else node fuel .flow a
      let (value, a) ← flowValue fuel .flowSequenceEnd a
      return (.mapping none [(key, value)], a)

def flowEntries : Nat → Bool → Assembly → Option (List (Node × Node) × Assembly)
  | 0, _, _ => none
  | fuel + 1, first, a => do
      if a.nextIn [.flowMappingEnd] then return ([], a.skip)
      if !first && !a.nextIn [.flowEntry] then failure
      let a := if first then a else a.skip
      if a.nextIn [.flowMappingEnd] then return ([], a.skip)
      let (entry, a) ←
        if a.nextIn [.key] then do
          let (key, a) ← nodeBefore fuel .flow [.value, .flowEntry, .flowMappingEnd] a.skip
          let (value, a) ← flowValue fuel .flowMappingEnd a
          pure ((key, value), a)
        else do
          let (key, a) ← node fuel .flow a
          pure ((key, Node.blank), a)
      let (entries, a) ← flowEntries fuel false a
      return (entry :: entries, a)

def flowValue : Nat → Token → Assembly → Option (Node × Assembly)
  | 0, _, _ => none
  | fuel + 1, close, a =>
      if a.nextIn [.value] then nodeBefore fuel .flow [.flowEntry, close] a.skip
      else some (.blank, a)

end

/-- Every node of a text is read within this many nested calls. -/
def depthBound (a : Assembly) : Nat := 4 * a.tokens.length + 8

/-- The directives at the head of a document: one version, and each handle once. -/
def directives : List Token → Bool → List (String × Tag) →
    Option (List (String × Tag) × List Token)
  | .version major minor :: rest, seen, handles =>
      if seen || major != 1 || (minor != 1 && minor != 2) then none
      else directives rest true handles
  | .tagHandle handle expansion :: rest, seen, handles =>
      if (handles.lookup handle).isSome then none
      else directives rest seen ((handle, expansion) :: handles)
  | tokens, _, handles => some (handles, tokens)

def standardHandles : List (String × Tag) :=
  [("!", Tag.ofString "!"), ("!!", Tag.ofString "tag:yaml.org,2002:")]

def document (a : Assembly) : Option (Node × Assembly) :=
  match a.tokens with
  | [] => some (.blank, a)
  | .version .. :: _ | .tagHandle .. :: _ | .documentStart :: _ => do
      let (handles, tokens) ← directives a.tokens false []
      match tokens with
      | .documentStart :: rest =>
          let a := { a with tokens := rest, handles := handles ++ standardHandles }
          match rest with
          | [] | .version .. :: _ | .tagHandle .. :: _ | .documentStart :: _
            | .documentEnd :: _ => return (.blank, a)
          | _ => node a.depthBound .block a
      | _ => failure
  | _ => node a.depthBound .block { a with handles := standardHandles }

end Assembly

structure Graph where
  root : Node
  targets : Array Node

def Assembly.graph (a : Assembly) (root : Node) : Graph where
  root := root
  targets :=
    ((List.range (a.anchors.length + 1)).map fun number =>
      (a.targets.lookup number).getD .blank).toArray

/-- The one document of a text; an empty text holds an empty one. -/
def Graph.parse? (text : String) : Option Graph := do
  let tokens ← tokenize text
  let (node, a) ← Assembly.document { tokens }
  if a.tokens.all (· == .documentEnd) then return a.graph node else failure

end Tollgate.Yaml
