import Tollgate.Document.Basic
import Tollgate.Json.Reader

/-!
# JSON documents

In JSON every kind of field has a form of its own: a text is a string, and only
`null` stands for an absent value.  A record may be an array.  A document as it
is written is read in the same way, but a part that no field asks for need not
have a value, and a field that is written twice is noticed.
-/

namespace Tollgate.Json

def natural? : Json → Option Nat
  | .number (.integer n _) => if 0 ≤ n then some n.toNat else none
  | _ => none

def bool? : Json → Option Bool
  | .bool b => some b
  | _ => none

def members? : Json → Option (List (String × Json))
  | .object fields => some fields
  | _ => none

/-- A string names an alternative without content; an object of one field carries it. -/
def variant? : Json → Option (String × Option Json)
  | .string name => some (name, none)
  | .object [(name, content)] => some (name, some content)
  | _ => none

instance : Document Json where
  text? := string?
  natural? := natural?
  float? := float?
  bool? := bool?
  absent? := fun value => some value.isNull
  items? := items?
  row? := items?
  members? := members?
  value? := some
  variant? := variant?

namespace Written

def scalar? (document : Written) : Option Json := valueWithin? 0 document

def items? : Written → Option (List Written)
  | .array items => some items
  | _ => none

def namedMembers? : Written → Option (List (String × Written))
  | .object members =>
      members.mapM fun (name, content) => do return (← text? name, content)
  | _ => none

def alternative? : Written → Option (String × Option Written)
  | .string pieces => (text? pieces).map fun name => (name, none)
  | .object [(name, content)] => (text? name).map fun name => (name, some content)
  | _ => none

instance : Document Written where
  text? := fun document => (scalar? document).bind string?
  natural? := fun document => (scalar? document).bind natural?
  float? := fun document => (scalar? document).bind float?
  bool? := fun document => (scalar? document).bind bool?
  absent? := fun document => match document with
    | .null => some true
    | _ => some false
  items? := items?
  row? := items?
  members? := namedMembers?
  value? := value?
  variant? := alternative?

end Written

end Tollgate.Json
