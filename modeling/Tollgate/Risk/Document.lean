import Tollgate.Clock.Rfc3339
import Tollgate.Definition.Document
import Tollgate.Risk.Assessment
import Tollgate.Risk.Routing

/-!
# Reading and writing verdicts

The forms of phases, verdicts, routings and assessments as documents.
-/

namespace Tollgate

open Document

variable {α : Type} [Document α]

namespace Phase

def read (doc : α) : Read Phase :=
  match variant? doc with
  | some ("step", some number) => (natural Bound.word number).map .step
  | _ => named (fun name => [("global", global), ("final", final)].lookup name) doc

def encode : Phase → Json
  | .global => .string "global"
  | .step n => .object [("step", Json.ofNat n)]
  | .final => .string "final"

end Phase

def TriggeredRule.fieldNames : List String := ["id", "kind", "action", "risk_factor", "message"]

def TriggeredRule.read (doc : α) : Read TriggeredRule := do
  let record ← Record.of TriggeredRule.fieldNames doc
  let action ← record.field? "action" (Document.named Decision.ofName?)
  let id ← record.field? "id" text
  let kind ← record.field? "kind" (Document.named RuleKind.ofName?)
  let message ← record.field? "message" text
  let riskFactor ← record.field? "risk_factor" float
  return {
    id := ← Record.require id
    kind := ← Record.require kind
    action := ← Record.require action
    riskFactor := ← Record.require riskFactor
    message := ← Record.require message }

def TriggeredRule.encode (rule : TriggeredRule) : Json :=
  .object
    [("id", .string rule.id),
      ("kind", .string rule.kind.name),
      ("action", .string rule.action.name),
      ("risk_factor", Json.ofFloat rule.riskFactor),
      ("message", .string rule.message)]

def RuleFailure.fieldNames : List String := ["rule_id", "message"]

def RuleFailure.read (doc : α) : Read RuleFailure := do
  let record ← Record.of RuleFailure.fieldNames doc
  let message ← record.field? "message" text
  let rule ← record.field? "rule_id" text
  return { rule := ← Record.require rule, message := ← Record.require message }

def RuleFailure.encode (failure : RuleFailure) : Json :=
  .object [("rule_id", .string failure.rule), ("message", .string failure.message)]

def Verdict.fieldNames : List String :=
  ["phase", "triggered", "aggregate_risk_factor", "routing_decision", "escalation_level",
    "applied_exception", "errors"]

def Verdict.read (doc : α) : Read Verdict := do
  let record ← Record.of Verdict.fieldNames doc
  let risk ← record.field? "aggregate_risk_factor" float
  let exception ← record.field? "applied_exception" (optional text)
  let failures ← record.field? "errors" (list RuleFailure.read)
  let level ← record.field? "escalation_level" (optional (natural Bound.byte))
  let phase ← record.field? "phase" Phase.read
  let decision ← record.field? "routing_decision" (Document.named Decision.ofName?)
  let triggered ← record.field? "triggered" (list TriggeredRule.read)
  return {
    phase := ← Record.require phase
    triggered := ← Record.require triggered
    risk := ← Record.require risk
    decision := ← Record.require decision
    escalationLevel := ← record.nullable level
    appliedException := ← record.nullable exception
    failures := ← Record.require failures }

def Verdict.encode (verdict : Verdict) : Json :=
  .object
    [("phase", verdict.phase.encode),
      ("triggered", .array (verdict.triggered.map TriggeredRule.encode)),
      ("aggregate_risk_factor", Json.ofFloat verdict.risk),
      ("routing_decision", .string verdict.decision.name),
      ("escalation_level", (verdict.escalationLevel.map Json.ofNat).getD .null),
      ("applied_exception", (verdict.appliedException.map Json.string).getD .null),
      ("errors", .array (verdict.failures.map RuleFailure.encode))]

def Routing.encode (routing : Routing) : Json :=
  .object <|
    [("can_continue", .bool routing.canContinue),
      ("intervention_type", .string routing.intervention.name),
      ("routing_decision", .string routing.decision.name),
      ("requires_approval", .bool routing.requiresApproval),
      ("priority", .string routing.priority.name)] ++
    Json.optionalField "expires_at" (routing.expiresAt.map fun m => .string m.text) ++
    [("triggered_rule_ids", Json.ofStrings routing.triggeredIds),
      ("min_approver_seniority", Json.ofNat routing.minSeniority)] ++
    Json.optionalField "escalation_level" (routing.escalationLevel.map Json.ofNat) ++
    [("message", .string routing.message)]

def Assessment.fieldNames : List String :=
  ["technical", "safety", "financial", "compliance", "execution", "anomaly", "weighted_total"]

def Assessment.read (doc : α) : Read Assessment := do
  let record ← Record.of Assessment.fieldNames doc
  let score (name : String) : Read Float := do
    Record.require (← record.field? name float)
  return {
    technical := ← score "technical"
    safety := ← score "safety"
    financial := ← score "financial"
    compliance := ← score "compliance"
    execution := ← score "execution"
    anomaly := ← score "anomaly"
    weightedTotal := ← score "weighted_total" }

def Assessment.encode (assessment : Assessment) : Json := .object assessment.fields

end Tollgate
