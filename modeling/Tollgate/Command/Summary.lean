import Tollgate.Run.Execution
import Tollgate.Text.Lines

/-!
# Summaries

What a person reads about a finished run: its steps, their chart, the risk and
the status, and what has to be approved.
-/

namespace Tollgate

def StepStatus.marker : StepStatus → String
  | .completed | .completedWithFallback => "✓"
  | .skipped => "-"
  | .failed => "✗"

def StepResult.summary (result : StepResult) : String :=
  "  " ++ result.status.marker ++ " step " ++ Text.padEnd 3 (toString result.number) ++ " " ++
    Text.padEnd 24 result.target ++ " " ++ Text.padStart 6 (toString result.durationMs) ++
    " ms  " ++ result.error.getD ""

def RunStatus.heading : RunStatus → String
  | .running => "RUNNING"
  | .completed => "COMPLETED"
  | .awaitingApproval => "AWAITING APPROVAL"
  | .failed => "FAILED"

def Priority.title : Priority → String
  | .normal => "Normal"
  | .high => "High"
  | .urgent => "Urgent"

def ApprovalRequest.summary (request : ApprovalRequest) : List String :=
  ["",
    "Approval required",
    "  Decision point: " ++ request.decisionPoint,
    "  Intervention: " ++ request.intervention.text,
    "  Priority: " ++ request.priority.title,
    "  Minimum approver seniority: " ++ toString request.minSeniority] ++
  (request.expiresAt.map fun moment => "  Expires: " ++ moment.offsetText).toList ++
  ["  Triggered rules: " ++ String.intercalate ", " request.triggeredIds]

def Execution.summaryLines (execution : Execution) : List String :=
  ["",
    "Run " ++ execution.runId,
    "  Workflow: " ++ execution.workflowId ++ " v" ++ execution.workflowVersion,
    ""] ++
  execution.results.map StepResult.summary ++
  [execution.timeline.chart,
    "  Cumulative risk: " ++ Decimal.fixed 3 execution.cumulativeRisk,
    "  Status: " ++ execution.status.heading,
    "  " ++ execution.message] ++
  (execution.approval.map ApprovalRequest.summary).getD []

def Execution.summary (execution : Execution) : String :=
  Text.unlines execution.summaryLines

end Tollgate
