import Tollgate.Proofs.Run.Outcome

/-!
# Runs that come to an end

A definition that the store accepted and the registry serves always runs to a
status, as long as the sink takes every entry.  At each of its levels all steps
and their engines are found and every output goes to a new variable.
-/

namespace Tollgate

theorem Registry.resolve_of_verify {σ : Type} {registry : Registry σ} {steps : List Step}
    (h : registry.verify steps = .ok ()) {step : Step} (member : step ∈ steps) :
    ∃ engine, registry.resolve step.tool step.function = .ok engine := by
  unfold verify at h
  split at h
  · next none_missing =>
      have supported : registry.supports step = true := by
        simpa using List.filter_eq_nil_iff.mp none_missing step member
      unfold supports at supported
      cases found : registry.resolve step.tool step.function with
      | error error => simp [found, Except.isOk, Except.toBool] at supported
      | ok engine => exact ⟨engine, rfl⟩
  · cases h

theorem Context.unwritten_of_commitAll {context : Context} {before after : List StepResult}
    {result : StepResult} (h : (context.commitAll (before ++ result :: after)).1 = .ok ())
    {value : Json} (committed : result.committed? = some value) :
    ∃ between output, context.commitAll before = (.ok (), between) ∧
      between.outputOf? result.number = some output ∧ between.steps.lookup output = none := by
  induction before generalizing context with
  | nil =>
      refine ⟨context, ?_⟩
      unfold StepResult.committed? at committed
      rw [List.nil_append, commitAll, committed] at h
      dsimp only at h
      unfold commit at h
      cases known : context.outputOf? result.number with
      | none => simp [known] at h
      | some name =>
          cases written : context.steps.lookup name with
          | some _ => simp [known, written] at h
          | none => exact ⟨name, rfl, rfl, written⟩
  | cons first rest ih =>
      rw [List.cons_append, commitAll] at h
      rw [commitAll]
      split at h
      · exact ih h
      · split at h
        · exact ih h
        · cases h

namespace Run

variable {σ τ : Type} {env : Environment σ τ} {start here : Run σ τ}
  {past : List (Stage × Run σ τ)} {definition : Definition}

/-- A level at which nothing of the run's own can fail. -/
structure IsServed (env : Environment σ τ) (level : List Nat) (run : Run σ τ) : Prop where
  defined : ∀ number ∈ level, ∃ step engine, run.definition.step? number = some step ∧
    env.executor.registry.resolve step.tool step.function = .ok engine
  finished : (run.levelAt env level).outcome = .ok (run.resultsAt env level)
  unwritten : ∀ before result after, run.resultsAt env level = before ++ result :: after →
    ∀ value, result.committed? = some value →
      ∃ between output, run.context.commitAll before = (.ok (), between) ∧
        between.outputOf? result.number = some output ∧ between.steps.lookup output = none
  /-- A step that never reached its engine was skipped because of its condition. -/
  skipped : ∀ result ∈ run.resultsAt env level, result.attempts = 0 →
    ∃ step ∈ run.definition.steps, step.IsSkip run.now result

theorem Stands.isServed (sound : Structure.IsSound definition.steps)
    (fresh : IsFresh definition start)
    (verified : env.executor.registry.verify definition.steps = .ok ())
    (stands : Stands env start past here) {level : List Nat}
    (begun : past.map Prod.fst ++ [.level level] <+:
      Stage.agenda (Edges.ofSteps definition.steps).levels) : IsServed env level here := by
  obtain ⟨can_run, commits⟩ := stands.commitAll sound fresh begun
  have same : here.definition = definition := stands.definition.trans fresh.about
  rw [← same] at verified
  constructor
  · intro number inside
    obtain ⟨step, found⟩ := can_run.defined number inside
    obtain ⟨engine, resolved⟩ :=
      Registry.resolve_of_verify verified (List.mem_of_find?_eq_some found)
    exact ⟨step, engine, found, resolved⟩
  · exact stands.levelAt sound fresh begun
  · intro before result after split value committed
    rw [split] at commits
    exact Context.unwritten_of_commitAll (congrArg Prod.fst commits) committed
  · intro result member unattempted
    rcases Executor.mem_levelResults member with ⟨step, at_level, settled⟩ | ⟨finished, ran⟩
    · obtain ⟨number, _, found⟩ := List.mem_filterMap.mp at_level
      have present := List.mem_of_find?_eq_some found
      obtain ⟨engine, resolved⟩ := Registry.resolve_of_verify verified present
      exact ⟨step, present, Executor.isSkip_of_place_inl resolved settled⟩
    · rw [← ran, Finished.attempts_result] at unattempted
      cases unattempted

private theorem Ending.exists_ok {agenda : List Stage} {trace : List (Stage × Run σ τ)}
    {progress : Progress σ τ} (accepts : ∀ entry log, (env.sink.record entry log).1 = .ok ())
    (ending : Ending env start agenda trace progress) :
    ∃ execution, progress.outcome = .ok execution := by
  cases ending with
  | completed => exact ⟨_, rfl⟩
  | halted => exact ⟨_, rfl⟩
  | @refused _ phase here _ _ _ _ _ refused =>
      have taken := accepts (here.entryAt env phase) here.log
      rw [refused] at taken
      cases taken
  | stopped => exact ⟨_, rfl⟩

end Run

/-- A stored definition that the registry serves runs to a status, whatever its engines do. -/
theorem Session.execution_terminates {σ τ : Type} {session : Session}
    (reachable : session.Reachable) (env : Environment σ τ) (request : RunRequest) (state : σ)
    (log : τ) {definition : Definition}
    (stored : session.store.get request.definition = .ok definition)
    (verified : env.executor.registry.verify definition.steps = .ok ())
    (accepts : ∀ entry log, (env.sink.record entry log).1 = .ok ()) :
    (∃ execution, (session.execute env request state log).outcome = .ok execution ∧
        execution.status ≠ .running) ∧
      ∀ level run, (.level level, run) ∈ session.trace env request state log →
        Run.IsServed env level run := by
  have sound := reachable.isSound
  rcases execute_cases sound env request state log with
    ⟨_, start, opened⟩ | ⟨error, unopened, _⟩
  · obtain rfl := opened.definition_eq stored
    obtain ⟨progress, ending, outcome, _⟩ := opened.ending
    constructor
    · obtain ⟨execution, ran⟩ := ending.exists_ok accepts
      have reflects := ending.reflects opened.accepted opened.fresh ran
      exact ⟨execution, outcome.trans ran, reflects.settled⟩
    · intro level run member
      obtain ⟨past, later, split⟩ := List.append_of_mem member
      obtain ⟨reaches, begun⟩ := opened.reaches split
      have stands := reaches.stands opened.accepted.steps opened.fresh
        ((List.prefix_append _ _).trans begun)
      exact stands.isServed opened.accepted.steps opened.fresh opened.verified begun
  · obtain ⟨plan, opens⟩ := sound.open?_ok stored verified
    rw [opens] at unopened
    cases unopened

theorem Session.execution_terminates_doubling :
    (∃ execution, (Session.doubling.execute .arithmetic .doubling () []).outcome = .ok execution ∧
        execution.status ≠ .running) ∧
      ∀ level run, (.level level, run) ∈ Session.doubling.trace .arithmetic .doubling () [] →
        Run.IsServed .arithmetic level run :=
  execution_terminates reachable_doubling .arithmetic .doubling () [] rfl
    Environment.verify_arithmetic fun _ _ => rfl

end Tollgate
