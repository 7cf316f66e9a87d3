import Tollgate.Engine.Registry
import Tollgate.Expr.Evaluator
import Tollgate.Run.Config
import Tollgate.Run.Context
import Tollgate.Run.Pool

/-!
# Running a level

The steps of a level are prepared against the context as it stands when the
level begins, run in a worker pool, and committed in the order of their numbers
once all of them have finished.
-/

namespace Tollgate

inductive Preparation where
  | skip (result : StepResult)
  | run (arguments : Json)

def Step.arguments (step : Step) (scope : Scope) : Json :=
  .object (Json.fillFields scope step.inputs)

def Step.prepare (step : Step) (context : Context) (evaluator : Evaluator) (now : Moment) :
    Preparation × Evaluator :=
  match step.activeCondition with
  | none => (.run (step.arguments context.scope), evaluator)
  | some condition =>
      let (outcome, evaluator) := evaluator.holds context.scope condition
      match outcome with
      | .ok true => (.run (step.arguments context.scope), evaluator)
      | .ok false => (.skip (.skipped step none now), evaluator)
      | .error error =>
          (.skip (.skipped step (some ("condition error: " ++ error.message)) now), evaluator)

def Finished.result (finished : Finished) (origin : Moment) : StepResult :=
  let startedAt := origin.addMillis finished.startedAt
  let finishedAt := origin.addMillis finished.finishedAt
  let invocation := finished.invocation
  let result :=
    match invocation.result with
    | .ok value =>
        let status : StepStatus :=
          if invocation.usedFallback then .completedWithFallback else .completed
        { StepResult.ofStep finished.step status startedAt finishedAt with output := some value }
    | .error error => .failure finished.step error.message startedAt finishedAt
  { result with
    attempts := invocation.attempts
    retries := invocation.retries
    backoffs := invocation.backoffs }

def inStepOrder (results : List StepResult) : List StepResult :=
  results.mergeSort fun a b => decide (a.number ≤ b.number)

/-- Commits the outputs in order, up to the first that cannot be. -/
def Context.commitAll (context : Context) : List StepResult → Except ContextError Unit × Context
  | [] => (.ok (), context)
  | result :: rest =>
      match result.output.filter fun _ => result.status.hasOutput with
      | none => context.commitAll rest
      | some output =>
          match context.commit result.number output with
          | .ok context => context.commitAll rest
          | .error error => (.error error, context)

structure Executor (σ : Type) where
  registry : Registry σ
  config : RunConfig := {}
  schedule : Schedule σ := Pool.inOrder

structure Prepared (σ : Type) where
  settled : List StepResult := []
  jobs : List (Job σ) := []

structure AfterLevel (σ : Type) where
  outcome : Except ContextError (List StepResult)
  context : Context
  evaluator : Evaluator
  state : σ
  now : Moment

namespace Executor

variable {σ : Type}

def prepareStep (executor : Executor σ) (step : Step) (context : Context)
    (evaluator : Evaluator) (now : Moment) : (StepResult ⊕ Job σ) × Evaluator :=
  let (preparation, evaluator) := step.prepare context evaluator now
  match preparation with
  | .skip result => (.inl result, evaluator)
  | .run arguments =>
      match executor.registry.resolve step.tool step.function with
      | .error error => (.inl (.failure step error.message now now), evaluator)
      | .ok engine =>
          let policy := executor.config.policy step.retries step.timeoutSeconds
          (.inr { step, engine, arguments, policy }, evaluator)

def prepareAll (executor : Executor σ) (definition : Definition) (context : Context)
    (now : Moment) (prepared : Prepared σ) (evaluator : Evaluator) :
    List Nat → Except ContextError (Prepared σ) × Evaluator
  | [] => (.ok prepared, evaluator)
  | number :: rest =>
      match definition.step? number with
      | none => (.error (.notDefined number), evaluator)
      | some step =>
          match executor.prepareStep step context evaluator now with
          | (.inl result, evaluator) =>
              executor.prepareAll definition context now
                { prepared with settled := prepared.settled ++ [result] } evaluator rest
          | (.inr job, evaluator) =>
              executor.prepareAll definition context now
                { prepared with jobs := prepared.jobs ++ [job] } evaluator rest

def runJobs (executor : Executor σ) (jobs : List (Job σ)) (state : σ) : Pool σ :=
  Pool.run executor.schedule
    { permits := max executor.config.maxParallel 1, queue := jobs, state }

def runLevel (executor : Executor σ) (definition : Definition) (level : List Nat)
    (context : Context) (evaluator : Evaluator) (state : σ) (now : Moment) : AfterLevel σ :=
  match executor.prepareAll definition context now {} evaluator level with
  | (.error error, evaluator) => { outcome := .error error, context, evaluator, state, now }
  | (.ok prepared, evaluator) =>
      let pool := executor.runJobs prepared.jobs state
      let results :=
        inStepOrder (prepared.settled ++ pool.finished.map fun f => f.result now)
      let (committed, context) := context.commitAll results
      { outcome := committed.map fun _ => results
        context
        evaluator
        state := pool.state
        now := now.addMillis pool.clock }

end Executor

end Tollgate
