import Tollgate.Audit.Log
import Tollgate.Definition.Store
import Tollgate.Plan.Cache
import Tollgate.Run.Execution
import Tollgate.Run.Level

/-!
# Running definitions

A run passes one decision point before its first level, one after each step,
and one at the end.  Each is written to the audit sink before the run proceeds,
and the first that may not continue ends the run with a request for approval.
-/

namespace Tollgate

inductive RunError where
  | store (error : StoreError)
  | rejected (rejection : Rejection)
  | audit (error : AuditError)
  | context (error : ContextError)
  deriving DecidableEq, Repr

def RunError.message : RunError → String
  | .store error => error.message
  | .rejected rejection => rejection.message
  | .audit error => error.message
  | .context error => error.message

/-- What a run needs from outside: engines, a sink, an assessor, a flag that cancels it, and the
time in milliseconds that deciding at a point takes. -/
structure Environment (σ τ : Type) where
  executor : Executor σ
  sink : Sink τ
  assessor : Assessor := Assessment.weigh
  cancelled : σ → Bool
  /-- What happens outside the run by the time that it looks at the flag. -/
  meanwhile : σ → σ := id
  elapsed : Phase → σ → Nat := fun _ _ => 0

structure Run (σ τ : Type) where
  definition : Definition
  execution : Execution
  context : Context
  evaluator : Evaluator
  state : σ
  log : τ
  now : Moment

inductive Progress (σ τ : Type) where
  | going (run : Run σ τ)
  | ended (run : Run σ τ)
  | failed (run : Run σ τ) (error : RunError)

namespace Progress

variable {σ τ : Type}

def andThen (progress : Progress σ τ) (next : Run σ τ → Progress σ τ) : Progress σ τ :=
  match progress with
  | .going run => next run
  | stopped => stopped

end Progress

namespace Run

variable {σ τ : Type}

def finish (run : Run σ τ) (status : RunStatus) (message : String) : Run σ τ :=
  { run with execution := run.execution.finish status message run.context.steps run.now }

/-- Risk accumulates; at the end it is at least the assessed total. -/
def riskAfter (before : Float) (verdict : Verdict) (floor : Option Float) : Float :=
  let sum := before + verdict.risk
  match floor with
  | none => sum
  | some floor => if sum < floor || sum.isNaN then floor else sum

def halt (run : Run σ τ) (phase : Phase) (routing : Routing) : Run σ τ :=
  let request : ApprovalRequest :=
    { runId := run.execution.runId
      decisionPoint := phase.text
      intervention := routing.intervention
      priority := routing.priority
      expiresAt := routing.expiresAt
      minSeniority := routing.minSeniority
      escalationLevel := routing.escalationLevel
      cumulativeRisk := run.execution.cumulativeRisk
      message := routing.message
      triggeredIds := routing.triggeredIds }
  let run := { run with execution := { run.execution with approval := some request } }
  run.finish .awaitingApproval routing.message

def auditEntry (run : Run σ τ) (phase : Phase) (routing : Routing) (before after : Float)
    (millis : Nat) : AuditEntry where
  runId := run.execution.runId
  workflowId := run.definition.id
  decisionPoint := phase.text
  triggeredIds := routing.triggeredIds
  decision := routing.decision
  intervention := routing.intervention
  riskBefore := before
  riskContribution := after - before
  riskAfter := after
  processingMs := millis % Bound.longWord
  moment := run.now

/-- Routes a verdict, records it, and stops the run unless it may continue. -/
def decide (env : Environment σ τ) (run : Run σ τ) (verdict : Verdict) (floor : Option Float) :
    Progress σ τ :=
  let before := run.execution.cumulativeRisk
  let after := riskAfter before verdict floor
  let routing := Routing.of verdict after run.definition.thresholds run.now
  let millis := env.elapsed verdict.phase run.state
  let entry := run.auditEntry verdict.phase routing before after millis
  match env.sink.record entry run.log with
  | (.error error, log) => .failed { run with log } (.audit error)
  | (.ok (), log) =>
      let execution :=
        { run.execution with
          cumulativeRisk := after
          audit := run.execution.audit ++ [entry]
          routing := some routing }
      let run := { run with execution, log }
      if routing.canContinue then .going run else .ended (run.halt verdict.phase routing)

def judge (run : Run σ τ) (phase : Phase) (assessment : Assessment) : Verdict × Run σ τ :=
  let scope := run.context.assessedScope (some assessment.toValue)
  let (verdict, evaluator) := run.evaluator.verdict run.definition.rules phase scope
  (verdict, { run with evaluator })

def assess (env : Environment σ τ) (run : Run σ τ) (finalOutput : Option Json) : Assessment :=
  env.assessor run.context.input run.execution.results finalOutput

def pass (env : Environment σ τ) (phase : Phase) (run : Run σ τ) : Progress σ τ :=
  let (verdict, run) := run.judge phase (run.assess env none)
  run.decide env verdict none

def passSteps (env : Environment σ τ) : List Nat → Run σ τ → Progress σ τ
  | [], run => .going run
  | number :: rest, run => (run.pass env (.step number)).andThen (passSteps env rest)

/-- Runs a level, unless the run has been cancelled, and decides on its steps. -/
def passLevel (env : Environment σ τ) (level : List Nat) (run : Run σ τ) : Progress σ τ :=
  let run := { run with state := env.meanwhile run.state }
  if env.cancelled run.state then .ended (run.finish .failed "Run cancelled")
  else
    let after :=
      env.executor.runLevel run.definition level run.context run.evaluator run.state run.now
    let run :=
      { run with
        context := after.context
        evaluator := after.evaluator
        state := after.state
        now := after.now }
    match after.outcome with
    | .error error => .failed run (.context error)
    | .ok results =>
        let run := { run with execution := run.execution.addResults results }
        match results.find? StepResult.abortsRun with
        | some failed =>
            let message := failed.error.getD ("step " ++ toString failed.number ++ " failed")
            .ended (run.finish .failed message)
        | none => passSteps env (results.map StepResult.number) run

def passLevels (env : Environment σ τ) : List (List Nat) → Run σ τ → Progress σ τ
  | [], run => .going run
  | level :: rest, run => (run.passLevel env level).andThen (passLevels env rest)

def passFinal (env : Environment σ τ) (run : Run σ τ) : Progress σ τ :=
  let assessment := run.assess env run.execution.finalOutput?
  let (verdict, run) := run.judge .final assessment
  let run := { run with execution := { run.execution with assessment := some assessment } }
  run.decide env verdict (some assessment.weightedTotal)

def complete (run : Run σ τ) : Run σ τ :=
  let risk := run.execution.cumulativeRisk
  let autoApproved : Bool := risk ≤ run.definition.thresholds.autoApprove
  let message := "Workflow completed with risk " ++ Decimal.fixed 2 risk ++
    (if autoApproved then " (auto-approved)" else "")
  let run := { run with execution := { run.execution with autoApproved } }
  run.finish .completed message

def passAll (env : Environment σ τ) (levels : List (List Nat)) (run : Run σ τ) :
    Progress σ τ :=
  (((run.pass env .global).andThen (passLevels env levels)).andThen (passFinal env)).andThen
    fun run => .ended run.complete

end Run

structure Session where
  store : Store := {}
  plans : PlanCache := {}
  evaluator : Evaluator := .empty

structure RunRequest where
  definition : String
  input : Json := .object []
  user : String
  runId : String
  now : Moment

namespace Session

variable {σ τ : Type}

def open? (session : Session) (registry : Registry σ) (id : String) :
    Except RunError (Definition × Plan) × Session :=
  match session.store.get id with
  | .error error => (.error (.store error), session)
  | .ok definition =>
      match session.plans.planFor definition with
      | (.error rejection, plans) => (.error (.rejected rejection), { session with plans })
      | (.ok kept, plans) =>
          let session := { session with plans }
          match registry.verify definition.steps with
          | .error rejection => (.error (.rejected rejection), session)
          | .ok () => (.ok (definition, kept.plan), session)

def startRun (session : Session) (request : RunRequest) (definition : Definition) (state : σ)
    (log : τ) : Run σ τ where
  definition := definition
  execution := .start request.runId definition request.user request.now
  context :=
    (((Context.ofInput definition.steps request.input).withMetadata "user_id"
      (.string request.user)).withMetadata "run_id" (.string request.runId)).withMetadata
        "project_id" ((request.input.get? "project_id").getD .null)
  evaluator := session.evaluator
  state := state
  log := log
  now := request.now

structure AfterRun (σ τ : Type) where
  outcome : Except RunError Execution
  session : Session
  state : σ
  log : τ

def AfterRun.ofRun (session : Session) (run : Run σ τ) (outcome : Except RunError Execution) :
    AfterRun σ τ where
  outcome := outcome
  session := { session with evaluator := run.evaluator }
  state := run.state
  log := run.log

def execute (session : Session) (env : Environment σ τ) (request : RunRequest) (state : σ)
    (log : τ) : AfterRun σ τ :=
  match session.open? env.executor.registry request.definition with
  | (.error error, session) => { outcome := .error error, session, state, log }
  | (.ok (definition, plan), session) =>
      match (session.startRun request definition state log).passAll env plan.levels with
      | .going run | .ended run => .ofRun session run (.ok run.execution)
      | .failed run error => .ofRun session run (.error error)

end Session

end Tollgate
