import Tollgate.Audit.Entry
import Tollgate.Run.Timeline

/-!
# Executions

The record of one run: its status, the results of its steps, the cumulative
risk, and, if it stopped for a person to look at it, the request for approval.
-/

namespace Tollgate

inductive RunStatus where
  | running
  | completed
  | awaitingApproval
  | failed
  deriving DecidableEq, Repr

def RunStatus.name : RunStatus → String
  | .running => "running"
  | .completed => "completed"
  | .awaitingApproval => "awaiting_approval"
  | .failed => "failed"

structure ApprovalRequest where
  runId : String
  decisionPoint : String
  intervention : Intervention
  priority : Priority
  expiresAt : Option Moment
  minSeniority : Nat
  escalationLevel : Option Nat
  cumulativeRisk : Float
  message : String
  triggeredIds : List String

structure Execution where
  runId : String
  workflowId : String
  workflowVersion : String
  userId : String
  status : RunStatus := .running
  results : List StepResult := []
  cumulativeRisk : Float := 0.0
  assessment : Option Assessment := none
  routing : Option Routing := none
  approval : Option ApprovalRequest := none
  audit : List AuditEntry := []
  message : String := ""
  autoApproved : Bool := false
  outputs : Json := .null
  startedAt : Moment
  finishedAt : Option Moment := none
  timeline : Timeline

namespace Execution

def start (runId : String) (definition : Definition) (userId : String) (now : Moment) :
    Execution where
  runId := runId
  workflowId := definition.id
  workflowVersion := definition.version
  userId := userId
  startedAt := now
  timeline := { start := now }

def addResults (execution : Execution) (results : List StepResult) : Execution :=
  { execution with
    results := execution.results ++ results
    timeline := results.foldl Timeline.record execution.timeline }

/-- The output of the latest result that has one. -/
def finalOutput? (execution : Execution) : Option Json :=
  execution.results.reverse.findSome? StepResult.output

def finish (execution : Execution) (status : RunStatus) (message : String)
    (outputs : List (String × Json)) (now : Moment) : Execution :=
  { execution with
    status
    message
    outputs := .object outputs
    finishedAt := some now }

end Execution

def StepResult.encode (result : StepResult) : Json :=
  .object <|
    [("step_number", Json.ofNat result.number),
      ("name", .string result.name),
      ("target", .string result.target),
      ("status", .string result.status.name)] ++
    Json.optionalField "output" result.output ++
    Json.optionalField "error" (result.error.map .string) ++
    [("attempts", Json.ofNat result.attempts),
      ("retries", Json.ofNat result.retries)] ++
    Json.optionalField "backoff_ms"
      (if result.backoffs.isEmpty then none else some (Json.ofNats result.backoffs)) ++
    [("started_at", .string result.startedAt.text),
      ("finished_at", .string result.finishedAt.text),
      ("duration_ms", Json.ofNat result.durationMs),
      ("aborts_run", .bool result.abortsRun)]

def ApprovalRequest.encode (request : ApprovalRequest) : Json :=
  .object <|
    [("run_id", .string request.runId),
      ("decision_point", .string request.decisionPoint),
      ("intervention_type", .string request.intervention.name),
      ("priority", .string request.priority.name)] ++
    Json.optionalField "expires_at" (request.expiresAt.map fun m => .string m.text) ++
    [("min_approver_seniority", Json.ofNat request.minSeniority)] ++
    Json.optionalField "escalation_level" (request.escalationLevel.map Json.ofNat) ++
    [("cumulative_risk", Json.ofFloat request.cumulativeRisk),
      ("message", .string request.message),
      ("triggered_rule_ids", Json.ofStrings request.triggeredIds)]

def Execution.encode (execution : Execution) : Json :=
  .object <|
    [("run_id", .string execution.runId),
      ("workflow_id", .string execution.workflowId),
      ("workflow_version", .string execution.workflowVersion),
      ("user_id", .string execution.userId),
      ("status", .string execution.status.name),
      ("step_results", .array (execution.results.map StepResult.encode)),
      ("cumulative_risk", Json.ofFloat execution.cumulativeRisk)] ++
    Json.optionalField "assessment" (execution.assessment.map Assessment.encode) ++
    Json.optionalField "routing" (execution.routing.map Routing.encode) ++
    Json.optionalField "approval_request" (execution.approval.map ApprovalRequest.encode) ++
    [("audit_entries", .array (execution.audit.map AuditEntry.encode)),
      ("message", .string execution.message),
      ("auto_approved", .bool execution.autoApproved),
      ("outputs", execution.outputs),
      ("started_at", .string execution.startedAt.text)] ++
    Json.optionalField "finished_at" (execution.finishedAt.map fun m => .string m.text) ++
    [("timeline", execution.timeline.encode)]

end Tollgate
