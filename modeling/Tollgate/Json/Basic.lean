import Tollgate.Bound
import Tollgate.Text.Blank

/-!
# JSON values

A number is either an integer that fits 64 bits, with or without a sign, or a
finite float; the two kinds stay apart, so `1` and `1.0` differ.  The fields of
an object are kept in ascending order of their keys by `insert`.
-/

namespace Tollgate

inductive Json.Number where
  | integer (value : Int) (inRange : -0x8000000000000000 ≤ value ∧ value < 0x10000000000000000)
  | float (value : Float) (finite : value.isFinite = true)
  deriving DecidableEq

inductive Json where
  | null
  | bool (value : Bool)
  | number (value : Json.Number)
  | string (value : String)
  | array (items : List Json)
  | object (fields : List (String × Json))

namespace Json

instance : Inhabited Json := ⟨.null⟩

namespace Number

def ofInt? (n : Int) : Option Number :=
  if h : -0x8000000000000000 ≤ n ∧ n < 0x10000000000000000 then some (.integer n h) else none

def ofFloat? (x : Float) : Option Number :=
  if h : x.isFinite = true then some (.float x h) else none

def toFloat : Number → Float
  | .integer n _ => Float.ofInt n
  | .float x _ => x

/-- Numbers of one kind are compared by value, so `0.0` and `-0.0` are the same. -/
def same : Number → Number → Bool
  | .integer a _, .integer b _ => a == b
  | .float a _, .float b _ => a == b
  | _, _ => false

end Number

def ofInt (n : Int) : Json :=
  ((Number.ofInt? n).map Json.number).getD .null

def ofNat (n : Nat) : Json := ofInt n

/-- JSON has no text for the floats that are not finite: they become `null`. -/
def ofFloat (x : Float) : Json :=
  ((Number.ofFloat? x).map Json.number).getD .null

def ofStrings (texts : List String) : Json := .array (texts.map .string)

def ofNats (numbers : List Nat) : Json := .array (numbers.map ofNat)

def insert (key : String) (value : Json) : List (String × Json) → List (String × Json)
  | [] => [(key, value)]
  | (k, v) :: rest =>
      if key < k then (key, value) :: (k, v) :: rest
      else if key = k then (key, value) :: rest
      else (k, v) :: insert key value rest

/-- The object that the pairs describe; of equal keys the last one counts. -/
def ofPairs (pairs : List (String × Json)) : List (String × Json) :=
  pairs.foldl (fun fields pair => insert pair.1 pair.2 fields) []

def get? (key : String) : Json → Option Json
  | .object fields => fields.lookup key
  | _ => none

mutual

def same : Json → Json → Bool
  | .null, .null => true
  | .bool a, .bool b => a == b
  | .number a, .number b => a.same b
  | .string a, .string b => a == b
  | .array a, .array b => sameItems a b
  | .object a, .object b => sameFields a b
  | _, _ => false

def sameItems : List Json → List Json → Bool
  | [], [] => true
  | a :: as, b :: bs => same a b && sameItems as bs
  | _, _ => false

def sameFields : List (String × Json) → List (String × Json) → Bool
  | [], [] => true
  | (j, a) :: as, (k, b) :: bs => j == k && same a b && sameFields as bs
  | _, _ => false

end

instance : BEq Json := ⟨same⟩

def isNull : Json → Bool
  | .null => true
  | _ => false

def string? : Json → Option String
  | .string s => some s
  | _ => none

def float? : Json → Option Float
  | .number n => some n.toFloat
  | _ => none

def items? : Json → Option (List Json)
  | .array items => some items
  | _ => none

/-- The member at `path`: object keys, and array positions as numerals. -/
def lookup : List String → Json → Option Json
  | [], value => some value
  | segment :: path, .object fields => (fields.lookup segment).bind (lookup path)
  | segment :: path, .array items =>
      (Text.numeral? Bound.longWord segment).bind fun i => (items[i]?).bind (lookup path)
  | _ :: _, _ => none

end Json

end Tollgate
