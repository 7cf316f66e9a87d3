import Tollgate.Definition.Structure
import Tollgate.Expr.Eval

/-!
# The context of a run

A context holds the run input, the outputs committed so far under their
variables, and metadata.  Each variable is written once, and a reference to a
step reads nothing but that step's own variable.
-/

namespace Tollgate

inductive ContextError where
  | unknownStep (number : Nat)
  | alreadyWritten (output : String) (step : Nat)
  | notDefined (number : Nat)
  deriving DecidableEq, Repr

def ContextError.message : ContextError → String
  | .unknownStep number =>
      "execution context error: step " ++ toString number ++ " is not part of this workflow"
  | .alreadyWritten output step =>
      "execution context error: output '" ++ output ++ "' of step " ++ toString step ++
        " was already written"
  | .notDefined number =>
      "execution context error: step " ++ toString number ++ " is not in the definition"

structure Context where
  input : Json
  /-- The committed outputs, in ascending order of their variables. -/
  steps : List (String × Json) := []
  metadata : List (String × Json) := []
  declared : List Step

namespace Context

def ofInput (steps : List Step) (input : Json) : Context := { input, declared := steps }

def withMetadata (context : Context) (key : String) (value : Json) : Context :=
  { context with metadata := Json.insert key value context.metadata }

def outputOf? (context : Context) (number : Nat) : Option String :=
  Structure.outputOf? context.declared number

def committed? (context : Context) (number : Nat) : Option Json :=
  (context.outputOf? number).bind fun output => context.steps.lookup output

/-- Writes the output of a step under its variable, which must be new. -/
def commit (context : Context) (number : Nat) (value : Json) : Except ContextError Context :=
  match context.outputOf? number with
  | none => .error (.unknownStep number)
  | some output =>
      match context.steps.lookup output with
      | some _ => .error (.alreadyWritten output number)
      | none => .ok { context with steps := Json.insert output value context.steps }

def entry? (entries : List (String × Json)) : List String → Option Json
  | [] => none
  | key :: path => (entries.lookup key).bind (Json.lookup path)

/-- What references stand for; an assessment is never part of the context itself. -/
def scope (context : Context) : Scope := fun target =>
  match target.source with
  | .input => context.input.lookup target.path
  | .context => entry? context.metadata target.path
  | .step n =>
      if target.path.head? = context.outputOf? n then entry? context.steps target.path else none
  | .assessment => none

def assessedScope (context : Context) (assessment : Option Json) : Scope := fun target =>
  match target.source with
  | .assessment => assessment.bind (Json.lookup target.path)
  | _ => context.scope target

end Context

namespace Template

def Segment.isReference : Segment → Bool
  | .text _ => false
  | .reference .. => true

def Segment.fill (scope : Scope) : Segment → String
  | .text content => content
  | .reference _ target => ((scope target).map Json.display).getD ""

/-- A text that is one reference takes its value; in longer text values are written out. -/
def fill (scope : Scope) (text : String) : Json :=
  match Reference.parse? (Text.trim text) with
  | some target => (scope target).getD .null
  | none =>
      let segments := split text
      if segments.any Segment.isReference then
        .string (String.join (segments.map (Segment.fill scope)))
      else .string text

end Template

namespace Json

mutual

def fill (scope : Scope) : Json → Json
  | .string text => Template.fill scope text
  | .array items => .array (fillItems scope items)
  | .object fields => .object (fillFields scope fields)
  | value => value

def fillItems (scope : Scope) : List Json → List Json
  | [] => []
  | item :: rest => fill scope item :: fillItems scope rest

def fillFields (scope : Scope) : List (String × Json) → List (String × Json)
  | [] => []
  | (key, value) :: rest => (key, fill scope value) :: fillFields scope rest

end

end Json

def Context.snapshot (context : Context) : Json :=
  .object
    [("context", .object context.metadata), ("input", context.input),
      ("steps", .object context.steps)]

end Tollgate
