import Tollgate.Clock.Moment
import Tollgate.Decimal.Layout
import Tollgate.Definition.Basic
import Tollgate.Risk.Verdict

/-!
# Routing

A verdict and the cumulative risk decide how a run is intervened in, and, when
it has to stop, who may approve it and for how long the request stays open.
-/

namespace Tollgate

inductive Intervention where
  | clear
  | warning
  | softStop
  | hardStop
  | escalation
  deriving DecidableEq, Repr

namespace Intervention

def rank : Intervention → Nat
  | .clear => 0
  | .warning => 1
  | .softStop => 2
  | .hardStop => 3
  | .escalation => 4

def isStop : Intervention → Bool
  | .softStop | .hardStop | .escalation => true
  | .clear | .warning => false

def name : Intervention → String
  | .clear => "none"
  | .warning => "warning"
  | .softStop => "soft_stop"
  | .hardStop => "hard_stop"
  | .escalation => "escalation"

def text : Intervention → String
  | .clear => "NONE"
  | .warning => "WARNING"
  | .softStop => "SOFT_STOP"
  | .hardStop => "HARD_STOP"
  | .escalation => "ESCALATION"

def all : List Intervention := [.clear, .warning, .softStop, .hardStop, .escalation]

def ofName? (name : String) : Option Intervention := all.find? fun i => i.name == name

theorem ofName?_name (i : Intervention) : ofName? i.name = some i := by
  cases i <;> decide

def of (verdict : Verdict) (risk : Float) (thresholds : Thresholds) : Intervention :=
  if verdict.decision = .block then .hardStop
  else if verdict.escalationLevel.isSome then .escalation
  else if risk ≥ thresholds.requireHuman then .hardStop
  else
    match verdict.decision with
    | .pause | .escalate => .softStop
    | .warn => .warning
    | _ => if risk ≥ thresholds.requireReview then .warning else .clear

end Intervention

inductive Priority where
  | normal
  | high
  | urgent
  deriving DecidableEq, Repr

namespace Priority

def rank : Priority → Nat
  | .normal => 0
  | .high => 1
  | .urgent => 2

def ofRisk (risk : Float) : Priority :=
  if risk ≥ 0.9 then .urgent else if risk ≥ 0.7 then .high else .normal

def expiryHours : Priority → Nat
  | .urgent => 4
  | .high => 24
  | .normal => 72

def name : Priority → String
  | .normal => "normal"
  | .high => "high"
  | .urgent => "urgent"

end Priority

/-- The lowest rank that may approve a run, never below the escalation level. -/
def approverSeniority (risk : Float) (escalationLevel : Option Nat) : Nat :=
  let byRisk :=
    if risk ≥ 0.9 then 4
    else if risk ≥ 0.7 then 3
    else if risk ≥ 0.5 then 2
    else if risk ≥ 0.3 then 1
    else 0
  max byRisk (escalationLevel.getD 0)

def needsApproval (intervention : Intervention) (verdict : Verdict) : Bool :=
  intervention == .hardStop || intervention == .escalation ||
    verdict.escalationLevel.isSome || verdict.decision.isStop

structure Routing where
  canContinue : Bool
  intervention : Intervention
  decision : Decision
  requiresApproval : Bool
  priority : Priority
  expiresAt : Option Moment
  triggeredIds : List String
  minSeniority : Nat
  escalationLevel : Option Nat
  message : String

namespace Routing

def messageFor (verdict : Verdict) (intervention : Intervention) (risk : Float)
    (thresholds : Thresholds) : String :=
  if verdict.triggered.isEmpty then
    match intervention with
    | .clear => ""
    | other =>
        let number := Decimal.message.write
        other.text ++ " at " ++ verdict.phase.text ++ ": cumulative risk " ++
          Decimal.fixed 2 risk ++ " (review " ++ number thresholds.requireReview ++
          ", hitl " ++ number thresholds.requireHuman ++ ")"
  else verdict.summary

def of (verdict : Verdict) (risk : Float) (thresholds : Thresholds) (now : Moment) : Routing :=
  let intervention := Intervention.of verdict risk thresholds
  let priority := if verdict.decision = .block then .urgent else Priority.ofRisk risk
  let requiresApproval := needsApproval intervention verdict
  { canContinue := !intervention.isStop
    intervention
    decision := verdict.decision
    requiresApproval
    priority
    expiresAt := if requiresApproval then some (now.addHours priority.expiryHours) else none
    triggeredIds := verdict.triggeredIds
    minSeniority := approverSeniority risk verdict.escalationLevel
    escalationLevel := verdict.escalationLevel
    message := messageFor verdict intervention risk thresholds }

end Routing

end Tollgate
