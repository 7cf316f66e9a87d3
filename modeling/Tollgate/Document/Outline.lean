/-!
# Outlines

An outline tells which parts of a document a reader looks at: all of it, the
items of a list, or the fields of a record that have certain names.
-/

namespace Tollgate

inductive Outline where
  | whole
  | list (item : Outline)
  | record (fields : List (String × Outline))

namespace Outline

def flat (names : List String) : Outline := .record (names.map fun name => (name, whole))

def item : Outline → Outline
  | .list item => item
  | _ => .whole

def field? (name : String) : Outline → Option Outline
  | .record fields => fields.lookup name
  | _ => some .whole

end Outline

end Tollgate
