import Mathlib.Data.List.Perm.Basic
import Tollgate.Proofs.Json.Fields
import Tollgate.Proofs.Plan.Soundness
import Tollgate.Proofs.Run.Pool
import Tollgate.Run.Level

/-!
# Runs of levels

A level of defined steps has one result for each of them, in ascending order of
their numbers.  As long as no variable is written twice, all of its outputs are
committed.
-/

namespace Tollgate

def Step.preparation (step : Step) (context : Context) (now : Moment) : Preparation :=
  match step.activeCondition.map (Expr.holds context.scope) with
  | none | some (.ok true) => .run (step.arguments context.scope)
  | some (.ok false) => .skip (.skipped step none now)
  | some (.error error) => .skip (.skipped step (some ("condition error: " ++ error.message)) now)

theorem Step.prepare_fst (step : Step) (context : Context) (evaluator : Evaluator)
    (now : Moment) : (step.prepare context evaluator now).1 = step.preparation context now := by
  unfold prepare preparation
  cases step.activeCondition with
  | none => rfl
  | some condition =>
      have outcome : evaluator.holds context.scope condition =
          (Expr.holds context.scope condition, (evaluator.holds context.scope condition).2) :=
        Prod.ext (evaluator.holds_fst _ _) rfl
      dsimp only [Option.map_some]
      rw [outcome]
      rcases Expr.holds context.scope condition with _ | _ | _ <;> rfl

/-- A step is skipped because of its condition only. -/
inductive Step.IsSkip (step : Step) (now : Moment) : StepResult → Prop
  | condition : IsSkip step now (.skipped step none now)
  | error (error : Expr.EvalError) :
      IsSkip step now (.skipped step (some ("condition error: " ++ error.message)) now)

theorem Step.isSkip_of_preparation {step : Step} {context : Context} {now : Moment}
    {result : StepResult} (h : step.preparation context now = .skip result) :
    step.IsSkip now result := by
  unfold preparation at h
  split at h
  · cases h
  · cases h
  · injection h with same
    exact same ▸ .condition
  · next error _ =>
      injection h with same
      exact same ▸ .error error

theorem Step.IsSkip.number {step : Step} {now : Moment} {result : StepResult}
    (h : step.IsSkip now result) : result.number = step.number := by
  cases h <;> rfl

theorem StepResult.number_failure (step : Step) (message : String) (startedAt now : Moment) :
    (StepResult.failure step message startedAt now).number = step.number := by
  unfold failure
  cases step.onError <;> rfl

theorem Finished.number_result (finished : Finished) (origin : Moment) :
    (finished.result origin).number = finished.step.number := by
  unfold result
  dsimp only
  cases finished.invocation.result with
  | ok value => rfl
  | error error => exact StepResult.number_failure _ _ _ _

theorem Finished.attempts_result (finished : Finished) (origin : Moment) :
    (finished.result origin).attempts = finished.invocation.retries + 1 := rfl

namespace Executor

variable {σ : Type}

def place (executor : Executor σ) (step : Step) (context : Context) (now : Moment) :
    StepResult ⊕ Job σ :=
  match step.preparation context now with
  | .skip result => .inl result
  | .run arguments =>
      match executor.registry.resolve step.tool step.function with
      | .error error => .inl (.failure step error.message now now)
      | .ok engine =>
          .inr ⟨step, engine, arguments, executor.config.policy step.retries step.timeoutSeconds⟩

theorem prepareStep_fst (executor : Executor σ) (step : Step) (context : Context)
    (evaluator : Evaluator) (now : Moment) :
    (executor.prepareStep step context evaluator now).1 = executor.place step context now := by
  have preparation : step.prepare context evaluator now =
      (step.preparation context now, (step.prepare context evaluator now).2) :=
    Prod.ext (step.prepare_fst _ _ _) rfl
  unfold place prepareStep
  rw [preparation]
  cases step.preparation context now with
  | skip result => rfl
  | run arguments =>
      dsimp only
      cases executor.registry.resolve step.tool step.function <;> rfl

variable {executor : Executor σ} {step : Step} {context : Context} {now : Moment}

theorem number_of_place_inl {result : StepResult}
    (h : executor.place step context now = .inl result) : result.number = step.number := by
  unfold place at h
  split at h
  · next skips =>
      injection h with same
      exact same ▸ (Step.isSkip_of_preparation skips).number
  · split at h
    · injection h with same
      exact same ▸ StepResult.number_failure _ _ _ _
    · cases h

theorem isSkip_of_place_inl {result : StepResult} {engine : Engine σ}
    (found : executor.registry.resolve step.tool step.function = .ok engine)
    (h : executor.place step context now = .inl result) : step.IsSkip now result := by
  unfold place at h
  split at h
  · next skips =>
      injection h with same
      exact same ▸ Step.isSkip_of_preparation skips
  · rw [found] at h
    cases h

theorem step_of_place_inr {job : Job σ} (h : executor.place step context now = .inr job) :
    job.step = step := by
  unfold place at h
  split at h
  · cases h
  · split at h
    · cases h
    · injection h with same
      rw [← same]

theorem resolve_of_place_inr {job : Job σ} (h : executor.place step context now = .inr job) :
    executor.registry.resolve step.tool step.function = .ok job.engine := by
  unfold place at h
  split at h
  · cases h
  · split at h
    · cases h
    · next found =>
        injection h with same
        rw [← same]
        exact found

def placeAll (executor : Executor σ) (steps : List Step) (context : Context) (now : Moment) :
    Prepared σ where
  settled := (steps.map fun step => executor.place step context now).filterMap Sum.getLeft?
  jobs := (steps.map fun step => executor.place step context now).filterMap Sum.getRight?

theorem exists_place_of_mem_jobs {steps : List Step} {job : Job σ}
    (member : job ∈ (executor.placeAll steps context now).jobs) :
    ∃ step ∈ steps, executor.place step context now = .inr job := by
  obtain ⟨_, placed, is_right⟩ := List.mem_filterMap.mp member
  obtain ⟨step, member, rfl⟩ := List.mem_map.mp placed
  exact ⟨step, member, Sum.getRight?_eq_some_iff.mp is_right⟩

theorem exists_place_of_mem_settled {steps : List Step} {result : StepResult}
    (member : result ∈ (executor.placeAll steps context now).settled) :
    ∃ step ∈ steps, executor.place step context now = .inl result := by
  obtain ⟨_, placed, is_left⟩ := List.mem_filterMap.mp member
  obtain ⟨step, member, rfl⟩ := List.mem_map.mp placed
  exact ⟨step, member, Sum.getLeft?_eq_some_iff.mp is_left⟩

theorem prepareAll_fst (executor : Executor σ) (definition : Definition) (context : Context)
    (now : Moment) (prepared : Prepared σ) (evaluator : Evaluator) {level : List Nat}
    {steps : List Step} (h : level.map definition.step? = steps.map some) :
    (executor.prepareAll definition context now prepared evaluator level).1 =
      .ok
        { settled := prepared.settled ++ (executor.placeAll steps context now).settled
          jobs := prepared.jobs ++ (executor.placeAll steps context now).jobs } := by
  induction level generalizing prepared evaluator steps with
  | nil =>
      obtain rfl : steps = [] := by simpa using h.symm
      simp [prepareAll, placeAll]
  | cons number rest ih =>
      cases steps with
      | nil => simp at h
      | cons step steps =>
          simp only [List.map_cons, List.cons.injEq] at h
          obtain ⟨found, later⟩ := h
          have placed : executor.prepareStep step context evaluator now =
              (executor.place step context now,
                (executor.prepareStep step context evaluator now).2) :=
            Prod.ext (executor.prepareStep_fst _ _ _ _) rfl
          unfold prepareAll
          simp only [found]
          rw [placed]
          cases shape : executor.place step context now with
          | inl result =>
              dsimp only
              rw [ih _ _ later]
              simp [placeAll, shape, List.filterMap_cons]
          | inr job =>
              dsimp only
              rw [ih _ _ later]
              simp [placeAll, shape, List.filterMap_cons]

def levelResults (executor : Executor σ) (steps : List Step) (context : Context) (state : σ)
    (now : Moment) : List StepResult :=
  let prepared := executor.placeAll steps context now
  inStepOrder (prepared.settled ++
    (executor.runJobs prepared.jobs state).finished.map fun f => f.result now)

theorem runLevel_eq (executor : Executor σ) (definition : Definition) (context : Context)
    (evaluator : Evaluator) (state : σ) (now : Moment) {level : List Nat} {steps : List Step}
    (h : level.map definition.step? = steps.map some) :
    let after := executor.runLevel definition level context evaluator state now
    let results := executor.levelResults steps context state now
    after.outcome = (context.commitAll results).1.map (fun _ => results) ∧
      after.context = (context.commitAll results).2 := by
  have prepared : executor.prepareAll definition context now {} evaluator level =
      (.ok (executor.placeAll steps context now),
        (executor.prepareAll definition context now {} evaluator level).2) :=
    Prod.ext (by rw [executor.prepareAll_fst definition context now {} evaluator h]; rfl) rfl
  unfold runLevel
  rw [prepared]
  exact ⟨rfl, rfl⟩

theorem finished_perm (executor : Executor σ) (jobs : List (Job σ)) (state : σ) {β : Type}
    {admits : Job σ → Prop} (account : Pool.Account σ β admits) (h : ∀ job ∈ jobs, admits job) :
    ((executor.runJobs jobs state).finished.map account.done).Perm (jobs.map account.queued) :=
  account.finished_perm _ (Nat.le_max_right _ _) rfl rfl h

theorem placeAll_perm (executor : Executor σ) (context : Context) (now : Moment) {β : Type}
    (settled : StepResult → β) (queued : Job σ → β)
    (value : Step → β) (steps : List Step)
    (left : ∀ step ∈ steps, ∀ result, executor.place step context now = .inl result →
      settled result = value step)
    (right : ∀ step ∈ steps, ∀ job, executor.place step context now = .inr job →
      queued job = value step) :
    ((executor.placeAll steps context now).settled.map settled ++
      (executor.placeAll steps context now).jobs.map queued).Perm (steps.map value) := by
  induction steps with
  | nil => exact .refl _
  | cons step rest ih =>
      have tail := ih (fun s hs => left s (List.mem_cons_of_mem step hs))
        (fun s hs => right s (List.mem_cons_of_mem step hs))
      cases shape : executor.place step context now with
      | inl result =>
          have same := left step List.mem_cons_self result shape
          simpa [placeAll, shape, same, List.filterMap_cons] using tail
      | inr job =>
          have same := right step List.mem_cons_self job shape
          simp only [placeAll, shape, List.map_cons, List.filterMap_cons, Sum.getLeft?_inr,
            Sum.getRight?_inr, same] at tail ⊢
          exact List.perm_middle.trans (tail.cons _)

theorem eq_of_perm_of_ascending {numbers others : List Nat} (h : numbers.Perm others)
    (ascending : numbers.Pairwise (· ≤ ·)) (ascending' : others.Pairwise (· ≤ ·)) :
    numbers = others :=
  h.eq_of_pairwise (fun _ _ _ _ => Nat.le_antisymm) ascending ascending'

theorem pairwise_mergeSort_key {α : Type} (key : α → Nat) (members : List α) :
    (members.mergeSort fun a b => decide (key a ≤ key b)).Pairwise fun a b => key a ≤ key b := by
  refine (List.pairwise_mergeSort (fun a b c => ?_) (fun a b => ?_) members).imp fun le => ?_
  · simp only [decide_eq_true_eq]
    omega
  · simp only [Bool.or_eq_true, decide_eq_true_eq]
    omega
  · exact of_decide_eq_true le

theorem inStepOrder_perm (results : List StepResult) : (inStepOrder results).Perm results :=
  List.mergeSort_perm _ _

theorem pairwise_inStepOrder (results : List StepResult) :
    ((inStepOrder results).map StepResult.number).Pairwise (· ≤ ·) :=
  List.pairwise_map.mpr (pairwise_mergeSort_key StepResult.number results)

theorem number_levelResults (executor : Executor σ) {steps : List Step} (context : Context)
    (state : σ) (now : Moment) (ascending : (steps.map Step.number).Pairwise (· < ·)) :
    (executor.levelResults steps context state now).map StepResult.number =
      steps.map Step.number := by
  have placed := executor.placeAll_perm context now StepResult.number
    (fun job => job.step.number) Step.number steps
    (fun _ _ _ h => number_of_place_inl h)
    (fun _ _ _ h => congrArg Step.number (step_of_place_inr h))
  have finished := executor.finished_perm (executor.placeAll steps context now).jobs state
    Pool.steps (fun _ _ => trivial)
  have numbers : (executor.levelResults steps context state now |>.map StepResult.number).Perm
      (steps.map Step.number) := by
    refine ((inStepOrder_perm _).map _).trans (.trans ?_ placed)
    rw [List.map_append, List.map_map]
    refine .append_left _ ?_
    have renumbered := finished.map Step.number
    simpa [Function.comp_def, Finished.number_result, Pool.steps] using renumbered
  exact eq_of_perm_of_ascending numbers (pairwise_inStepOrder _) (ascending.imp Nat.le_of_lt)

theorem mem_levelResults {steps : List Step} {state : σ} {result : StepResult}
    (h : result ∈ executor.levelResults steps context state now) :
    (∃ step ∈ steps, executor.place step context now = .inl result) ∨
      ∃ finished : Finished, finished.result now = result := by
  rcases List.mem_append.mp ((inStepOrder_perm _).mem_iff.mp h) with settled | finished
  · exact .inl (exists_place_of_mem_settled settled)
  · obtain ⟨finished, _, same⟩ := List.mem_map.mp finished
    exact .inr ⟨finished, same⟩

end Executor

def StepResult.committed? (result : StepResult) : Option Json :=
  result.output.filter fun _ => result.status.hasOutput

def Context.entries (declared : List Step) (results : List StepResult) : List (String × Json) :=
  results.filterMap fun result =>
    result.committed?.bind fun value =>
      (Structure.outputOf? declared result.number).map fun output => (output, value)

namespace Context

theorem entries_append (declared : List Step) (results later : List StepResult) :
    entries declared (results ++ later) = entries declared results ++ entries declared later :=
  List.filterMap_append

theorem commitAll_ok (context : Context) (results : List StepResult)
    (written : List (String × Json)) (steps : context.steps = Json.ofPairs written)
    (known : ∀ result ∈ results, (context.outputOf? result.number).isSome = true)
    (distinct : ((written ++ entries context.declared results).map Prod.fst).Nodup) :
    context.commitAll results =
      (.ok (),
        { context with
          steps := Json.ofPairs (written ++ entries context.declared results) }) := by
  induction results generalizing context written with
  | nil => simp [commitAll, entries, ← steps]
  | cons result rest ih =>
      have known_rest : ∀ r ∈ rest, (context.outputOf? r.number).isSome = true :=
        fun r hr => known r (List.mem_cons_of_mem result hr)
      unfold commitAll
      cases output : result.committed? with
      | none =>
          have skip :
              entries context.declared (result :: rest) = entries context.declared rest := by
            simp [entries, output]
          rw [skip] at distinct ⊢
          unfold StepResult.committed? at output
          simp only [output]
          exact ih _ _ steps known_rest distinct
      | some value =>
          obtain ⟨name, found⟩ := Option.isSome_iff_exists.mp (known result List.mem_cons_self)
          have first : entries context.declared (result :: rest) =
              (name, value) :: entries context.declared rest := by
            unfold outputOf? at found
            simp [entries, output, found]
          rw [first] at distinct ⊢
          have new : context.steps.lookup name = none := by
            rw [steps]
            refine Json.lookup_ofPairs_of_not_mem fun member => ?_
            rw [List.map_append, List.nodup_append] at distinct
            exact distinct.2.2 name member name List.mem_cons_self rfl
          have step : context.commit result.number value =
              .ok { context with steps := Json.insert name value context.steps } := by
            simp [commit, found, new]
          unfold StepResult.committed? at output
          simp only [output, step]
          rw [List.append_cons] at distinct ⊢
          refine ih _ _ ?_ known_rest distinct
          rw [Json.ofPairs_append_singleton, steps]

end Context

end Tollgate
