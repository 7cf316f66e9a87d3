import Tollgate.Definition.Basic
import Tollgate.Document.OfJson
import Tollgate.Document.Outline

/-!
# Reading and writing definitions

Fields with a default may be left out.  Present fields are read in the order of
their names, and only then is a missing field noticed.
-/

namespace Tollgate

open Document

variable {α : Type} [Document α]

namespace FailurePolicy

def name : FailurePolicy → String
  | .fail => "fail"
  | .continue => "continue"
  | .skip => "skip"

def all : List FailurePolicy := [.fail, .continue, .skip]

def ofName? (name : String) : Option FailurePolicy := all.find? fun p => p.name == name

end FailurePolicy

def Step.fieldNames : List String :=
  ["step_number", "name", "tool", "function", "inputs", "output", "condition",
    "retry_count", "on_error", "fallback", "timeout_seconds"]

def Step.read (doc : α) : Read Step := do
  let record ← Record.of Step.fieldNames doc
  let condition ← record.field? "condition" (optional text)
  let fallback ← record.field? "fallback" (optional value)
  let function ← record.field? "function" text
  let inputs ← record.field? "inputs" fields
  let name ← record.field? "name" text
  let onError ← record.field? "on_error" (Document.named FailurePolicy.ofName?)
  let output ← record.field? "output" text
  let retries ← record.field? "retry_count" (natural Bound.word)
  let number ← record.field? "step_number" (natural Bound.word)
  let timeout ← record.field? "timeout_seconds" (optional (natural Bound.longWord))
  let tool ← record.field? "tool" text
  return {
    number := ← Record.require number
    name := name.getD ""
    tool := ← Record.require tool
    function := ← Record.require function
    inputs := inputs.getD []
    output := ← Record.require output
    condition := condition.getD none
    retries := retries.getD 0
    onError := onError.getD .fail
    fallback := fallback.getD none
    timeoutSeconds := timeout.getD none }

def Json.optionalField (name : String) (value : Option Json) : List (String × Json) :=
  match value with
  | some value => [(name, value)]
  | none => []

def Step.encode (step : Step) : Json :=
  .object <|
    [("step_number", Json.ofNat step.number),
      ("name", .string step.name),
      ("tool", .string step.tool),
      ("function", .string step.function),
      ("inputs", .object step.inputs),
      ("output", .string step.output)] ++
    Json.optionalField "condition" (step.condition.map .string) ++
    [("retry_count", Json.ofNat step.retries),
      ("on_error", .string step.onError.name)] ++
    Json.optionalField "fallback" step.fallback ++
    Json.optionalField "timeout_seconds" (step.timeoutSeconds.map Json.ofNat)

namespace RuleScope

/-- A step number, or a text: a star, or the numeral of a step number. -/
def ofValue : Json → Read RuleScope
  | .string text =>
      let text := Text.trim text
      if text = "*" then .ok .any
      else
        match Text.numeral? Bound.word text with
        | some n => .ok (.step n)
        | none => .error (.badScope text)
  | value => (natural Bound.word value).map .step

def read (doc : α) : Read RuleScope := do ofValue (← value doc)

def encode : RuleScope → Json
  | .any => .string "*"
  | .step n => Json.ofNat n

end RuleScope

def Rule.fieldNames : List String :=
  ["id", "kind", "scope", "condition", "risk_factor", "action", "message",
    "escalation_level", "enabled"]

def Rule.read (doc : α) : Read Rule := do
  let record ← Record.of Rule.fieldNames doc
  let action ← record.field? "action" (Document.named Decision.ofName?)
  let condition ← record.field? "condition" text
  let enabled ← record.field? "enabled" bool
  let level ← record.field? "escalation_level" (optional (natural Bound.byte))
  let id ← record.field? "id" text
  let kind ← record.field? "kind" (Document.named RuleKind.ofName?)
  let message ← record.field? "message" text
  let riskFactor ← record.field? "risk_factor" float
  let scope ← record.field? "scope" RuleScope.read
  return {
    id := ← Record.require id
    kind := ← Record.require kind
    scope := scope.getD .any
    condition := condition.getD ""
    riskFactor := riskFactor.getD 0.0
    action := action.getD .proceed
    message := message.getD ""
    escalationLevel := level.getD none
    enabled := enabled.getD true }

def Rule.encode (rule : Rule) : Json :=
  .object <|
    [("id", .string rule.id),
      ("kind", .string rule.kind.name),
      ("scope", rule.scope.encode),
      ("condition", .string rule.condition),
      ("risk_factor", Json.ofFloat rule.riskFactor),
      ("action", .string rule.action.name)] ++
    Json.optionalField "message"
      (if rule.message = "" then none else some (.string rule.message)) ++
    Json.optionalField "escalation_level" (rule.escalationLevel.map Json.ofNat) ++
    [("enabled", .bool rule.enabled)]

def Thresholds.fieldNames : List String := ["auto_approve", "require_review", "require_hitl"]

def Thresholds.read (doc : α) : Read Thresholds := do
  let record ← Record.of Thresholds.fieldNames doc
  let autoApprove ← record.field? "auto_approve" float
  let requireHuman ← record.field? "require_hitl" float
  let requireReview ← record.field? "require_review" float
  return {
    autoApprove := autoApprove.getD 0.3
    requireReview := requireReview.getD 0.5
    requireHuman := requireHuman.getD 0.8 }

def Thresholds.encode (thresholds : Thresholds) : Json :=
  .object
    [("auto_approve", Json.ofFloat thresholds.autoApprove),
      ("require_review", Json.ofFloat thresholds.requireReview),
      ("require_hitl", Json.ofFloat thresholds.requireHuman)]

def Definition.fieldNames : List String :=
  ["id", "version", "name", "description", "thresholds", "steps", "rules"]

def Definition.outline : Outline :=
  .record <| Definition.fieldNames.map fun name =>
    (name, match name with
      | "thresholds" => .flat Thresholds.fieldNames
      | "steps" => .list (.flat Step.fieldNames)
      | "rules" => .list (.flat Rule.fieldNames)
      | _ => .whole)

def Definition.read (doc : α) : Read Definition := do
  let record ← Record.of Definition.fieldNames doc
  let description ← record.field? "description" (optional text)
  let id ← record.field? "id" text
  let name ← record.field? "name" text
  let rules ← record.field? "rules" (list Rule.read)
  let steps ← record.field? "steps" (list Step.read)
  let thresholds ← record.field? "thresholds" Thresholds.read
  let version ← record.field? "version" text
  return {
    id := ← Record.require id
    version := version.getD "1"
    name := name.getD ""
    description := description.getD none
    thresholds := thresholds.getD {}
    steps := ← Record.require steps
    rules := rules.getD [] }

def Definition.encode (definition : Definition) : Json :=
  .object <|
    [("id", .string definition.id),
      ("version", .string definition.version),
      ("name", .string definition.name)] ++
    Json.optionalField "description" (definition.description.map .string) ++
    [("thresholds", definition.thresholds.encode),
      ("steps", .array (definition.steps.map Step.encode))] ++
    Json.optionalField "rules"
      (if definition.rules.isEmpty then none
        else some (.array (definition.rules.map Rule.encode)))

end Tollgate
