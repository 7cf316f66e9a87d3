import Tollgate.Json.Basic

/-!
# Documents

A document is anything that records can be read from: a JSON value or a YAML
node.  Each kind of field asks a document for its own view, because the formats
differ in what they accept as a text, a number or an absent value.
-/

namespace Tollgate

class Document (α : Type) where
  text? : α → Option String
  natural? : α → Option Nat
  float? : α → Option Float
  bool? : α → Option Bool
  /-- Whether it stands for the absence of an optional field, if that can be told. -/
  absent? : α → Option Bool
  items? : α → Option (List α)
  row? : α → Option (List α)
  members? : α → Option (List (String × α))
  value? : α → Option Json
  variant? : α → Option (String × Option α)

inductive ReadError where
  | malformed
  | badScope (text : String)
  deriving DecidableEq, Repr

def ReadError.message : ReadError → String
  | .malformed => "malformed document"
  | .badScope text => "rule scope must be a step number or '*', got '" ++ text ++ "'"

abbrev Read (β : Type) := Except ReadError β

namespace Document

variable {α : Type} [Document α]

def orMalformed {β : Type} : Option β → Read β
  | some b => .ok b
  | none => .error .malformed

def text (doc : α) : Read String := orMalformed (text? doc)

def bool (doc : α) : Read Bool := orMalformed (bool? doc)

def float (doc : α) : Read Float := orMalformed (float? doc)

def natural (bound : Nat) (doc : α) : Read Nat :=
  orMalformed ((natural? doc).filter (· < bound))

def value (doc : α) : Read Json := orMalformed (value? doc)

def optional {β : Type} (read : α → Read β) (doc : α) : Read (Option β) :=
  match absent? doc with
  | some true => .ok none
  | some false => (read doc).map some
  | none => .error .malformed

def list {β : Type} (read : α → Read β) (doc : α) : Read (List β) := do
  let items ← orMalformed (items? doc)
  items.mapM read

/-- Fields of any name, each holding any value; of equal names the last one counts. -/
def fields (doc : α) : Read (List (String × Json)) := do
  let members ← orMalformed (members? doc)
  let pairs ← members.mapM fun (name, doc) => do return (name, ← value doc)
  return Json.ofPairs pairs

def named {β : Type} (ofName? : String → Option β) (doc : α) : Read β :=
  match variant? doc with
  | some (name, none) => orMalformed (ofName? name)
  | some (name, some content) => if absent? content = some true then orMalformed (ofName? name)
      else .error .malformed
  | none => .error .malformed

end Document

structure Record (α : Type) where
  positional : Bool
  members : List (String × α)

namespace Record

variable {α : Type} [Document α]

def countName (name : String) (members : List (String × α)) : Nat :=
  (members.filter fun member => member.1 == name).length

/-- A record is written as named fields, none of them twice, or as a row in field order. -/
def of (names : List String) (doc : α) : Read (Record α) :=
  match Document.members? doc with
  | some members =>
      if names.any fun name => 1 < countName name members then .error .malformed
      else .ok ⟨false, members⟩
  | none =>
      match Document.row? doc with
      | some values =>
          if names.length < values.length then .error .malformed
          else .ok ⟨true, names.zip values⟩
      | none => .error .malformed

def field? {β : Type} (record : Record α) (name : String) (read : α → Read β) :
    Read (Option β) :=
  match record.members.lookup name with
  | some doc => (read doc).map some
  | none => .ok none

def require {β : Type} (field : Option β) : Read β := Document.orMalformed field

/-- An optional field without a default may be left out only where fields are named. -/
def nullable {β : Type} (record : Record α) (field : Option (Option β)) : Read (Option β) :=
  match field with
  | some value => .ok value
  | none => if record.positional then .error .malformed else .ok none

end Record

end Tollgate
