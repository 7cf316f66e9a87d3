import Tollgate.Bound
import Tollgate.Text.Blank

/-!
# References

A reference such as `$step2.scores.0` names a source and a path into it.  The
text after the dollar sign is a run of identifier characters, in which a dot
counts only when another identifier character follows.
-/

namespace Tollgate

inductive Source where
  | input
  | context
  | assessment
  | step (number : Nat)
  deriving DecidableEq, Repr

structure Reference where
  source : Source
  path : List String
  deriving DecidableEq, Repr

namespace Source

def text : Source → String
  | .input => "input"
  | .context => "context"
  | .assessment => "assessment"
  | .step n => "step" ++ toString n

/-- A step number is a run of digits below `2 ^ 32`. -/
def stepNumber? (chars : List Char) : Option Nat :=
  (Text.digits? chars).filter (· < Bound.word)

def ofChars? (chars : List Char) : Option Source :=
  if chars = "input".toList then some .input
  else if chars = "context".toList then some .context
  else if chars = "assessment".toList then some .assessment
  else
    match chars with
    | 's' :: 't' :: 'e' :: 'p' :: digits => (stepNumber? digits).map .step
    | _ => none

end Source

namespace Reference

def text (r : Reference) : String :=
  r.path.foldl (fun text segment => text ++ "." ++ segment) ("$" ++ r.source.text)

def step? (r : Reference) : Option Nat :=
  match r.source with
  | .step n => some n
  | _ => none

/-- The parts between dots; there is always at least one. -/
def segments : List Char → List (List Char)
  | [] => [[]]
  | '.' :: rest => [] :: segments rest
  | c :: rest =>
      match segments rest with
      | [] => [[c]]
      | part :: parts => (c :: part) :: parts

def isSegment (chars : List Char) : Bool :=
  !chars.isEmpty && chars.all Text.isIdentifierChar

def ofChars? : List Char → Option Reference
  | '$' :: body =>
      match segments body with
      | source :: path =>
          if path.all isSegment then
            (Source.ofChars? source).map (⟨·, path.map String.ofList⟩)
          else none
      | [] => none
  | _ => none

def parse? (text : String) : Option Reference := ofChars? text.toList

/-- How many characters after a dollar sign belong to its token. -/
def extent : List Char → Nat
  | '.' :: c :: rest => if Text.isIdentifierChar c then extent (c :: rest) + 1 else 0
  | c :: rest => if Text.isIdentifierChar c then extent rest + 1 else 0
  | [] => 0

end Reference

end Tollgate
