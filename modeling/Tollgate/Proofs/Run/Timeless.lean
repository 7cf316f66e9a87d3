import Tollgate.Proofs.Run.Settled

/-!
# Runs but for their times

The record of a run says when things happened.  Two runs are alike if they
differ in nothing else, and then they pass their decision points alike, as long
as neither the assessor nor the sink goes by the times that it is given.
-/

namespace Tollgate

def TimelineEvent.timeless (event : TimelineEvent) : TimelineEvent :=
  { event with moment := default }

def Timeline.timeless (timeline : Timeline) : Timeline where
  start := default
  events := timeline.events.map TimelineEvent.timeless

def AuditEntry.timeless (entry : AuditEntry) : AuditEntry :=
  { entry with processingMs := 0, moment := default }

def Routing.timeless (routing : Routing) : Routing :=
  { routing with expiresAt := routing.expiresAt.map fun _ => default }

def ApprovalRequest.timeless (request : ApprovalRequest) : ApprovalRequest :=
  { request with expiresAt := request.expiresAt.map fun _ => default }

def Execution.timeless (execution : Execution) : Execution :=
  { execution with
    results := execution.results.map StepResult.timeless
    routing := execution.routing.map Routing.timeless
    approval := execution.approval.map ApprovalRequest.timeless
    audit := execution.audit.map AuditEntry.timeless
    startedAt := default
    finishedAt := execution.finishedAt.map fun _ => default
    timeline := execution.timeline.timeless }

private theorem Timeline.eventsOf_timeless (result : StepResult) :
    eventsOf result.timeless = (eventsOf result).map TimelineEvent.timeless := by
  unfold eventsOf
  change (if result.attempts = 0 then _ else _) = _
  split <;> rfl

theorem Timeline.timeless_foldl (results : List StepResult) (timeline : Timeline) :
    (results.foldl record timeline).timeless =
      { timeline.timeless with
        events := timeline.timeless.events ++
          (results.map StepResult.timeless).flatMap eventsOf } := by
  induction results generalizing timeline with
  | nil => simp [timeless]
  | cons result rest ih =>
      rw [List.foldl_cons, ih]
      simp [timeless, record, eventsOf_timeless]

theorem Execution.finalOutput?_timeless (execution : Execution) :
    execution.timeless.finalOutput? = execution.finalOutput? := by
  unfold finalOutput? timeless
  rw [← List.map_reverse, List.findSome?_map]
  rfl

theorem Routing.timeless_of (verdict : Verdict) (risk : Float) (thresholds : Thresholds)
    (now later : Moment) :
    (of verdict risk thresholds now).timeless = (of verdict risk thresholds later).timeless := by
  unfold of timeless
  dsimp only
  rw [apply_ite (Option.map _), apply_ite (Option.map _)]
  rfl

theorem Routing.of_timeless {routing routed : Routing}
    (same : routing.timeless = routed.timeless) :
    routing.canContinue = routed.canContinue ∧ routing.intervention = routed.intervention ∧
      routing.decision = routed.decision ∧ routing.triggeredIds = routed.triggeredIds ∧
      routing.message = routed.message := by
  unfold timeless at same
  injection same with goes intervention decision _ _ _ triggered _ _ message
  exact ⟨goes, intervention, decision, triggered, message⟩

def Assessor.IsTimeless (assessor : Assessor) : Prop :=
  ∀ input results others finalOutput,
    results.map StepResult.timeless = others.map StepResult.timeless →
      assessor input results finalOutput = assessor input others finalOutput

theorem Assessment.isTimeless_weigh : Assessor.IsTimeless weigh := by
  intro input results others finalOutput same
  have through {β : Type} (f : List StepResult → β)
      (h : ∀ results, f (results.map StepResult.timeless) = f results) : f results = f others := by
    rw [← h results, same, h others]
  have troubled : results.countP isTroubled = others.countP isTroubled :=
    through _ fun results => by
      rw [List.countP_map]
      rfl
  have executed : results.countP isExecuted = others.countP isExecuted :=
    through _ fun results => by
      rw [List.countP_map]
      rfl
  have produced : outputs results finalOutput = outputs others finalOutput :=
    through (outputs · finalOutput) fun results => by
      unfold outputs
      rw [List.filterMap_map]
      rfl
  unfold weigh
  rw [troubled, executed, produced]

/-- A sink takes entries or refuses them without going by their times; `alike` holds of logs
that differ in the times of their entries only. -/
structure Sink.IsTimeless {τ : Type} (sink : Sink τ) (alike : τ → τ → Prop) : Prop where
  answers : ∀ {entry other : AuditEntry} {log later : τ}, entry.timeless = other.timeless →
    alike log later → (sink.record entry log).1 = (sink.record other later).1
  logs : ∀ {entry other : AuditEntry} {log later : τ}, entry.timeless = other.timeless →
    alike log later → alike (sink.record entry log).2 (sink.record other later).2

def AuditEntry.SameTrail (entries others : List AuditEntry) : Prop :=
  entries.map timeless = others.map timeless

theorem Sink.isTimeless_memory : Sink.memory.IsTimeless AuditEntry.SameTrail where
  answers _ _ := rfl
  logs same alike := by
    unfold AuditEntry.SameTrail at alike ⊢
    simp [memory, alike, same]

/-- In such an environment nothing that a run comes to depends on times. -/
structure Environment.IsTimeless {σ τ : Type} (env : Environment σ τ) (alike : τ → τ → Prop) :
    Prop where
  engines : env.executor.registry.IsSteady
  assessor : Assessor.IsTimeless env.assessor
  sink : env.sink.IsTimeless alike

namespace Run

variable {σ τ : Type}

/-- Two runs that differ in times, and in what engines and evaluators remember, only. -/
structure Alike (alike : τ → τ → Prop) (run other : Run σ τ) : Prop where
  definition : run.definition = other.definition
  execution : run.execution.timeless = other.execution.timeless
  context : run.context = other.context
  log : alike run.log other.log

end Run

inductive Progress.Alike {σ τ : Type} (alike : τ → τ → Prop) :
    Progress σ τ → Progress σ τ → Prop
  | going {run other : Run σ τ} : run.Alike alike other → Alike alike (.going run) (.going other)
  | ended {run other : Run σ τ} : run.Alike alike other → Alike alike (.ended run) (.ended other)
  | failed {run other : Run σ τ} (error : RunError) :
      run.Alike alike other → Alike alike (.failed run error) (.failed other error)

def Execution.asking (execution : Execution) (phase : Phase) (routing : Routing) : Execution :=
  { execution with
    approval := some
      { runId := execution.runId
        decisionPoint := phase.text
        intervention := routing.intervention
        priority := routing.priority
        expiresAt := routing.expiresAt
        minSeniority := routing.minSeniority
        escalationLevel := routing.escalationLevel
        cumulativeRisk := execution.cumulativeRisk
        message := routing.message
        triggeredIds := routing.triggeredIds } }

def Execution.noting (execution : Execution) (risk : Float) (entry : AuditEntry)
    (routing : Routing) : Execution :=
  { execution with
    cumulativeRisk := risk
    audit := execution.audit ++ [entry]
    routing := some routing }

theorem Execution.timeless_noting (execution : Execution) (risk : Float) (entry : AuditEntry)
    (routing : Routing) :
    (execution.noting risk entry routing).timeless =
      execution.timeless.noting risk entry.timeless routing.timeless := by
  simp [noting, timeless]

theorem Run.execution_of_recorded {σ τ : Type} (env : Environment σ τ) (phase : Phase)
    (run : Run σ τ) (log : τ) :
    (run.recorded env phase log).execution =
      (run.judged env phase).execution.noting (run.riskAt env phase) (run.entryAt env phase)
        (run.routingAt env phase) := by
  cases phase <;> rfl

namespace Run.Alike

variable {σ τ : Type} {alike : τ → τ → Prop} {env : Environment σ τ} {run other : Run σ τ}

theorem results (h : run.Alike alike other) :
    run.execution.results.map StepResult.timeless =
      other.execution.results.map StepResult.timeless :=
  congrArg Execution.results h.execution

theorem risk (h : run.Alike alike other) :
    run.execution.cumulativeRisk = other.execution.cumulativeRisk :=
  show run.execution.timeless.cumulativeRisk = other.execution.timeless.cumulativeRisk from
    congrArg Execution.cumulativeRisk h.execution

theorem runId (h : run.Alike alike other) : run.execution.runId = other.execution.runId :=
  show run.execution.timeless.runId = other.execution.timeless.runId from
    congrArg Execution.runId h.execution

theorem withExecution (h : run.Alike alike other) {execution changed : Execution}
    (same : execution.timeless = changed.timeless) :
    Run.Alike alike { run with execution } { other with execution := changed } :=
  ⟨h.definition, same, h.context, h.log⟩

theorem withLog (h : run.Alike alike other) {log later : τ} (same : alike log later) :
    Run.Alike alike { run with log } { other with log := later } :=
  ⟨h.definition, h.execution, h.context, same⟩

theorem finish (h : run.Alike alike other) (status : RunStatus) {message text : String}
    (same : message = text) :
    (run.finish status message).Alike alike (other.finish status text) := by
  subst same
  refine h.withExecution ?_
  rw [h.context]
  exact congrArg (fun execution : Execution => { execution with
    status, message, outputs := .object other.context.steps, finishedAt := some default })
    h.execution

theorem complete (h : run.Alike alike other) : run.complete.Alike alike other.complete := by
  have approved :
      Decidable.decide (run.execution.cumulativeRisk ≤ run.definition.thresholds.autoApprove) =
      Decidable.decide
        (other.execution.cumulativeRisk ≤ other.definition.thresholds.autoApprove) := by
    rw [h.risk, h.definition]
  refine finish (h.withExecution ?_) _ ?_
  · rw [approved]
    exact congrArg (fun execution : Execution => { execution with
      autoApproved :=
        Decidable.decide (other.execution.cumulativeRisk ≤
          other.definition.thresholds.autoApprove) })
      h.execution
  · rw [approved, h.risk]

theorem halt (h : run.Alike alike other) (phase : Phase) {routing routed : Routing}
    (same : routing.timeless = routed.timeless) :
    (run.halt phase routing).Alike alike (other.halt phase routed) := by
  refine finish (h.withExecution ?_) _ ?_
  · change run.execution.timeless.asking phase routing.timeless =
      other.execution.timeless.asking phase routed.timeless
    rw [h.execution, same]
  · obtain ⟨_, _, _, _, message⟩ := Routing.of_timeless same
    exact message

theorem assessmentAt (timeless : env.IsTimeless alike) (h : run.Alike alike other)
    (phase : Phase) : run.assessmentAt env phase = other.assessmentAt env phase := by
  have final : run.execution.finalOutput? = other.execution.finalOutput? := by
    rw [← Execution.finalOutput?_timeless, h.execution, Execution.finalOutput?_timeless]
  unfold Run.assessmentAt Run.assess
  rw [h.context, final]
  exact timeless.assessor _ _ _ _ h.results

theorem verdictAt (timeless : env.IsTimeless alike) (h : run.Alike alike other)
    (phase : Phase) : run.verdictAt env phase = other.verdictAt env phase := by
  unfold Run.verdictAt Run.judge
  dsimp only
  rw [Verdict.verdict_fst, Verdict.verdict_fst, h.assessmentAt timeless, h.context,
    h.definition]

theorem riskAt (timeless : env.IsTimeless alike) (h : run.Alike alike other) (phase : Phase) :
    run.riskAt env phase = other.riskAt env phase := by
  unfold Run.riskAt
  rw [h.risk, h.verdictAt timeless, h.assessmentAt timeless]

theorem routingAt (timeless : env.IsTimeless alike) (h : run.Alike alike other) (phase : Phase) :
    (run.routingAt env phase).timeless = (other.routingAt env phase).timeless := by
  unfold Run.routingAt
  rw [h.verdictAt timeless, h.riskAt timeless, h.definition]
  exact Routing.timeless_of _ _ _ _ _

theorem entryAt (timeless : env.IsTimeless alike) (h : run.Alike alike other) (phase : Phase) :
    (run.entryAt env phase).timeless = (other.entryAt env phase).timeless := by
  obtain ⟨_, intervention, decision, triggered, _⟩ :=
    Routing.of_timeless (h.routingAt timeless phase)
  simp only [Run.entryAt, Run.auditEntry, AuditEntry.timeless, triggered, decision, intervention,
    h.runId, h.definition, h.risk, h.riskAt timeless]

theorem judged (timeless : env.IsTimeless alike) (h : run.Alike alike other) (phase : Phase) :
    (run.judged env phase).Alike alike (other.judged env phase) := by
  have plain : Run.Alike alike (run.judge phase (run.assessmentAt env phase)).2
      (other.judge phase (other.assessmentAt env phase)).2 :=
    ⟨h.definition, h.execution, h.context, h.log⟩
  unfold Run.judged
  dsimp only
  split
  · refine plain.withExecution ?_
    rw [h.assessmentAt timeless]
    exact congrArg (fun execution : Execution => { execution with
      assessment := some (other.assessmentAt env phase) }) h.execution
  · exact plain

private theorem recorded (timeless : env.IsTimeless alike) (h : run.Alike alike other)
    (phase : Phase) {log later : τ} (same : alike log later) :
    (run.recorded env phase log).Alike alike (other.recorded env phase later) := by
  have execution : (run.recorded env phase log).execution.timeless =
      (other.recorded env phase later).execution.timeless := by
    rw [Run.execution_of_recorded, Run.execution_of_recorded, Execution.timeless_noting,
      Execution.timeless_noting, (h.judged timeless phase).execution, h.riskAt timeless,
      h.entryAt timeless, h.routingAt timeless]
  exact ((h.judged timeless phase).withLog same).withExecution execution

theorem point (timeless : env.IsTimeless alike) (h : run.Alike alike other) (phase : Phase) :
    (run.perform env (.point phase)).Alike alike (other.perform env (.point phase)) := by
  rw [Run.perform_point, Run.perform_point]
  have entry := h.entryAt timeless phase
  have answer := timeless.sink.answers entry h.log
  have logs := timeless.sink.logs entry h.log
  obtain ⟨goes, _⟩ := Routing.of_timeless (h.routingAt timeless phase)
  generalize env.sink.record (run.entryAt env phase) run.log = first at answer logs ⊢
  generalize env.sink.record (other.entryAt env phase) other.log = second at answer logs ⊢
  obtain ⟨outcome, log⟩ := first
  obtain ⟨answered, later⟩ := second
  obtain rfl : outcome = answered := answer
  cases outcome with
  | error error => exact .failed _ ((h.judged timeless phase).withLog logs)
  | ok _ =>
      dsimp only
      rw [goes]
      split
      · exact .going (h.recorded timeless phase logs)
      · exact .ended ((h.recorded timeless phase logs).halt phase (h.routingAt timeless phase))

end Run.Alike

end Tollgate
