import Tollgate.Risk.Document

/-!
# Audit entries

One entry records one decision point of a run: the rules that were triggered,
the routing, and the cumulative risk before and after.
-/

namespace Tollgate

structure AuditEntry where
  runId : String
  workflowId : String
  decisionPoint : String
  triggeredIds : List String
  decision : Decision
  intervention : Intervention
  riskBefore : Float
  riskContribution : Float
  riskAfter : Float
  processingMs : Nat
  moment : Moment

namespace AuditEntry

def fieldNames : List String :=
  ["run_id", "workflow_id", "decision_point", "triggered_rule_ids", "routing_decision",
    "intervention_type", "risk_before", "risk_contribution", "risk_after",
    "processing_time_ms", "timestamp"]

def readMoment {α : Type} [Document α] (doc : α) : Read Moment := do
  Document.orMalformed (Moment.parse? (← Document.text doc))

open Document in
def read {α : Type} [Document α] (doc : α) : Read AuditEntry := do
  let record ← Record.of fieldNames doc
  return {
    runId := ← Record.require (← record.field? "run_id" text)
    workflowId := ← Record.require (← record.field? "workflow_id" text)
    decisionPoint := ← Record.require (← record.field? "decision_point" text)
    triggeredIds := ← Record.require (← record.field? "triggered_rule_ids" (list text))
    decision := ← Record.require (← record.field? "routing_decision" (named Decision.ofName?))
    intervention :=
      ← Record.require (← record.field? "intervention_type" (named Intervention.ofName?))
    riskBefore := ← Record.require (← record.field? "risk_before" float)
    riskContribution := ← Record.require (← record.field? "risk_contribution" float)
    riskAfter := ← Record.require (← record.field? "risk_after" float)
    processingMs :=
      ← Record.require (← record.field? "processing_time_ms" (natural Bound.longWord))
    moment := ← Record.require (← record.field? "timestamp" readMoment) }

def encode (entry : AuditEntry) : Json :=
  .object
    [("run_id", .string entry.runId),
      ("workflow_id", .string entry.workflowId),
      ("decision_point", .string entry.decisionPoint),
      ("triggered_rule_ids", Json.ofStrings entry.triggeredIds),
      ("routing_decision", .string entry.decision.name),
      ("intervention_type", .string entry.intervention.name),
      ("risk_before", Json.ofFloat entry.riskBefore),
      ("risk_contribution", Json.ofFloat entry.riskContribution),
      ("risk_after", Json.ofFloat entry.riskAfter),
      ("processing_time_ms", Json.ofNat entry.processingMs),
      ("timestamp", .string entry.moment.text)]

end AuditEntry

end Tollgate
