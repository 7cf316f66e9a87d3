import Tollgate.Proofs.Run.Sequence
import Tollgate.Proofs.Run.Timeless

/-!
# Schedules of levels

How many steps of a level run at once, and in which order they take permits and
finish, makes no difference to a run but in its times: the results of a level
are put in order before anything is done with them.
-/

namespace Tollgate

theorem Executor.map_timeless_levelResults {σ : Type} {executor : Executor σ}
    (steady : executor.registry.IsSteady) (any : σ) {steps : List Step}
    (ascending : (steps.map Step.number).Pairwise (· < ·)) (context : Context) (state : σ)
    (now : Moment) :
    (executor.levelResults steps context state now).map StepResult.timeless =
      steps.map (executor.alone any context) := by
  have distinct : (steps.map Step.number).Nodup := ascending.imp Nat.ne_of_lt
  refine map_eq_of_map_eq (executor.number_levelResults context state now ascending) ?_
  intro result member step known number
  obtain ⟨other, present, alone⟩ := timeless_levelResults steady any member
  have same : step.number = other.number := by
    rw [← number, ← StepResult.number_timeless, alone, number_alone]
  rw [alone, List.inj_on_of_nodup_map distinct known present same]

theorem Context.commitAll_timeless (context : Context) (results : List StepResult) :
    context.commitAll (results.map StepResult.timeless) = context.commitAll results := by
  induction results generalizing context with
  | nil => rfl
  | cons result rest ih =>
      have written : result.timeless.output.filter (fun _ => result.timeless.status.hasOutput) =
          result.output.filter fun _ => result.status.hasOutput := rfl
      simp only [List.map_cons, commitAll, written, StepResult.number_timeless, ih]

theorem StepResult.abort_timeless {results others : List StepResult}
    (same : results.map timeless = others.map timeless) :
    (results.find? abortsRun).map (fun failed => (failed.number, failed.error)) =
      (others.find? abortsRun).map fun failed => (failed.number, failed.error) := by
  have through (results : List StepResult) :
      (results.find? abortsRun).map (fun failed => (failed.number, failed.error)) =
        ((results.map timeless).find? abortsRun).map fun failed =>
          (failed.number, failed.error) := by
    rw [List.find?_map, Option.map_map]
    rfl
  rw [through results, same, ← through others]

theorem Execution.timeless_addResults (execution : Execution) (results : List StepResult) :
    (execution.addResults results).timeless =
      { execution.timeless with
        results := execution.timeless.results ++ results.map StepResult.timeless
        timeline :=
          { execution.timeless.timeline with
            events := execution.timeless.timeline.events ++
              (results.map StepResult.timeless).flatMap Timeline.eventsOf } } := by
  simp [addResults, timeless, Timeline.timeless_foldl]

/-- The same surroundings, with other permits and another schedule for the steps of a level. -/
def Environment.rescheduled {σ τ : Type} (env : Environment σ τ) (maxParallel : Nat)
    (schedule : Schedule σ) : Environment σ τ :=
  { env with
    executor :=
      { env.executor with
        config := { env.executor.config with maxParallel }
        schedule } }

namespace Progress.Alike

variable {σ τ : Type} {alike : τ → τ → Prop} {progress other : Progress σ τ}

theorem andThen (h : progress.Alike alike other) {next next' : Run σ τ → Progress σ τ}
    (later : ∀ here there, progress = .going here → other = .going there →
      here.Alike alike there → (next here).Alike alike (next' there)) :
    (progress.andThen next).Alike alike (other.andThen next') := by
  cases h with
  | going same => exact later _ _ rfl rfl same
  | ended same => exact .ended same
  | failed error same => exact .failed error same

theorem outcome (h : progress.Alike alike other) :
    progress.outcome.map Execution.timeless = other.outcome.map Execution.timeless ∧
      alike progress.last.log other.last.log := by
  cases h with
  | going same => exact ⟨congrArg Except.ok same.execution, same.log⟩
  | ended same => exact ⟨congrArg Except.ok same.execution, same.log⟩
  | failed error same => exact ⟨rfl, same.log⟩

end Progress.Alike

theorem Run.perform_rescheduled {σ τ : Type} (env : Environment σ τ) (maxParallel : Nat)
    (schedule : Schedule σ) (phase : Phase) (run : Run σ τ) :
    run.perform (env.rescheduled maxParallel schedule) (.point phase) =
      run.perform env (.point phase) := by
  cases phase <;> rfl

namespace Run.Alike

variable {σ τ : Type} {alike : τ → τ → Prop} {env : Environment σ τ} {run other : Run σ τ}
  {maxParallel : Nat} {schedule : Schedule σ}

theorem resultsAt (timeless : env.IsTimeless alike) (h : run.Alike alike other)
    {level : List Nat} (runs : run.definition.CanRun level) :
    (run.resultsAt env level).map StepResult.timeless =
      (other.resultsAt (env.rescheduled maxParallel schedule) level).map
        StepResult.timeless := by
  have ascending : ((run.definition.stepsAt level).map Step.number).Pairwise (· < ·) := by
    rw [runs.numbers_eq]
    exact runs.ascending
  have steady : (env.rescheduled maxParallel schedule).executor.registry.IsSteady :=
    timeless.engines
  unfold Run.resultsAt
  rw [Executor.map_timeless_levelResults timeless.engines run.state ascending, ← h.definition,
    Executor.map_timeless_levelResults steady run.state ascending, ← h.context]
  rfl

private theorem withResults (h : run.Alike alike other) {results others : List StepResult}
    (same : results.map StepResult.timeless = others.map StepResult.timeless) :
    (run.withResults results).Alike alike (other.withResults others) := by
  refine h.withExecution ?_
  rw [Execution.timeless_addResults, Execution.timeless_addResults, h.execution, same]

private theorem commitAll_resultsAt (timeless : env.IsTimeless alike) (h : run.Alike alike other)
    {level : List Nat} (runs : run.definition.CanRun level) :
    run.context.commitAll (run.resultsAt env level) =
      other.context.commitAll
        (other.resultsAt (env.rescheduled maxParallel schedule) level) := by
  rw [← Context.commitAll_timeless, h.resultsAt timeless runs, Context.commitAll_timeless,
    h.context]

theorem level (timeless : env.IsTimeless alike) (h : run.Alike alike other) {level : List Nat}
    (runs : run.definition.CanRun level) (flag : run.seesCancel env = other.seesCancel env) :
    (run.perform env (.level level)).Alike alike
      (other.perform (env.rescheduled maxParallel schedule) (.level level)) := by
  let env' := env.rescheduled maxParallel schedule
  have flag' : run.seesCancel env = other.seesCancel env' := flag
  have runs' : other.definition.CanRun level := h.definition ▸ runs
  have same : (run.resultsAt env level).map StepResult.timeless =
      (other.resultsAt env' level).map StepResult.timeless := h.resultsAt timeless runs
  obtain ⟨outcome, context⟩ := @Run.levelAt_eq σ τ env run level runs
  obtain ⟨outcome', context'⟩ := @Run.levelAt_eq σ τ env' other level runs'
  have commits : run.context.commitAll (run.resultsAt env level) =
      other.context.commitAll (other.resultsAt env' level) := h.commitAll_resultsAt timeless runs
  rw [← commits] at outcome' context'
  have adopted : (run.adopted env level).Alike alike (other.adopted env' level) :=
    ⟨h.definition, h.execution, context.trans context'.symm, h.log⟩
  change (run.runLevel env level).Alike alike (other.runLevel env' level)
  unfold Run.runLevel
  rw [flag', outcome, outcome']
  cases cancelled : other.seesCancel env' with
  | true =>
      have stopped : Run.Alike alike { run with state := env.meanwhile run.state }
          { other with state := env'.meanwhile other.state } :=
        ⟨h.definition, h.execution, h.context, h.log⟩
      exact .ended (stopped.finish _ rfl)
  | false =>
      rcases (run.context.commitAll (run.resultsAt env level)).1 with error | _
      · exact .failed _ adopted
      · have later := adopted.withResults same
        have found := StepResult.abort_timeless same
        dsimp only [Except.map]
        cases aborts : (run.resultsAt env level).find? StepResult.abortsRun with
        | none =>
            rw [aborts, Option.map_none, eq_comm, Option.map_eq_none_iff] at found
            rw [found]
            exact .going later
        | some failed =>
            rw [aborts, Option.map_some, eq_comm, Option.map_eq_some_iff] at found
            obtain ⟨other_failed, other_aborts, same⟩ := found
            obtain ⟨number, error⟩ := Prod.mk.inj same
            rw [other_aborts]
            exact .ended (later.finish _ (by rw [number, error]))

private theorem follow (timeless : env.IsTimeless alike) (h : run.Alike alike other)
    {stages : List Stage}
    (runs : ∀ level, .level level ∈ stages → run.definition.CanRun level)
    (flags : ∀ level here there, (.level level, here) ∈ trace env stages run →
      (.level level, there) ∈ trace (env.rescheduled maxParallel schedule) stages other →
      here.seesCancel env = there.seesCancel env) :
    (Run.follow env stages run).Alike alike
      (Run.follow (env.rescheduled maxParallel schedule) stages other) := by
  induction stages generalizing run other with
  | nil => exact .going h
  | cons stage rest ih =>
      have performed : (run.perform env stage).Alike alike
          (other.perform (env.rescheduled maxParallel schedule) stage) := by
        cases stage with
        | point phase =>
            rw [perform_rescheduled]
            exact h.point timeless phase
        | level level =>
            exact h.level timeless (runs level List.mem_cons_self)
              (flags level run other List.mem_cons_self List.mem_cons_self)
      refine performed.andThen fun here there went went' same => ih same ?_ ?_
      · intro level member
        rw [definition_perform went]
        exact runs level (List.mem_cons_of_mem stage member)
      · intro level first second member member'
        refine flags level first second (List.mem_cons_of_mem _ ?_) (List.mem_cons_of_mem _ ?_)
        · rwa [went]
        · rwa [went']

end Run.Alike

/-- The record that an execution returns, the order of its results included, depends on neither
the number of permits nor the order in which the steps of a level take them and finish, as long as
the flag is the same at every level boundary. -/
theorem Session.execution_ignores_schedule {σ τ : Type} {session : Session}
    (reachable : session.Reachable) {env : Environment σ τ} {alike : τ → τ → Prop}
    (timeless : env.IsTimeless alike) (request : RunRequest) (now : Moment) (maxParallel : Nat)
    (schedule : Schedule σ) (state other : σ) {log later : τ} (logs : alike log later)
    (flags : ∀ level here there,
      (.level level, here) ∈ session.trace env request state log →
      (.level level, there) ∈
        session.trace (env.rescheduled maxParallel schedule) { request with now } other later →
      here.seesCancel env = there.seesCancel env) :
    let first := session.execute env request state log
    let second :=
      session.execute (env.rescheduled maxParallel schedule) { request with now } other later
    first.outcome.map Execution.timeless = second.outcome.map Execution.timeless ∧
      alike first.log second.log := by
  let again : RunRequest := { request with now }
  rcases shape : session.open? env.executor.registry request.definition with
    ⟨error | ⟨definition, plan⟩, opened⟩
  · have shape' : session.open? (env.rescheduled maxParallel schedule).executor.registry
        again.definition = (.error error, opened) := shape
    unfold execute
    rw [shape, shape']
    exact ⟨rfl, logs⟩
  · have shape' : session.open? (env.rescheduled maxParallel schedule).executor.registry
        again.definition = (.ok (definition, plan), opened) := shape
    obtain ⟨_, accepted, _, levels⟩ :=
      (reachable.isSound.open? env.executor.registry request.definition).2 definition plan
        (by rw [shape])
    have runs : ∀ level ∈ plan.levels, definition.CanRun level :=
      levels ▸ accepted.isLevelling.canRun accepted.steps
    let start := opened.startRun request definition state log
    let start' := opened.startRun again definition other later
    have same : start.Alike alike start' := ⟨rfl, rfl, rfl, logs⟩
    rw [trace_of_open? state log shape, trace_of_open? other later shape'] at flags
    have followed : (Run.follow env (Stage.agenda plan.levels) start).Alike alike
        (Run.follow (env.rescheduled maxParallel schedule) (Stage.agenda plan.levels) start') := by
      refine same.follow timeless (fun level member => runs level ?_) flags
      rw [← Stage.levels_agenda plan.levels]
      exact List.mem_filterMap.mpr ⟨_, member, rfl⟩
    have passed : (start.passAll env plan.levels).Alike alike
        (start'.passAll (env.rescheduled maxParallel schedule) plan.levels) := by
      rw [Run.passAll_eq_follow env start runs, Run.passAll_eq_follow _ start' runs]
      exact followed.andThen fun _ _ _ _ same => .ended same.complete
    obtain ⟨outcome, _, log_after⟩ := execute_of_open? state log shape
    obtain ⟨outcome', _, log_after'⟩ := execute_of_open? other later shape'
    dsimp only
    rw [outcome, outcome', log_after, log_after']
    exact passed.outcome

private theorem Environment.isTimeless_arithmetic :
    Environment.arithmetic.IsTimeless AuditEntry.SameTrail where
  engines entry member := by
    obtain rfl := List.mem_singleton.mp member
    exact fun _ _ _ _ => rfl
  assessor := Assessment.isTimeless_weigh
  sink := Sink.isTimeless_memory

theorem Session.execution_ignores_schedule_doubling :
    let env := Environment.arithmetic.rescheduled 1 fun pool => .enter (pool.queue.length - 1)
    let first := Session.doubling.execute .arithmetic .doubling () []
    let second := Session.doubling.execute env .doubling () []
    first.outcome.map Execution.timeless = second.outcome.map Execution.timeless ∧
      AuditEntry.SameTrail first.log second.log := by
  exact execution_ignores_schedule reachable_doubling Environment.isTimeless_arithmetic .doubling
    default 1 _ () () rfl fun _ _ _ _ _ => rfl

end Tollgate
