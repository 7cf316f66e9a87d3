import Mathlib.Logic.Function.Basic
import Tollgate.Proofs.Run.Calls

/-!
# The error policy of steps

Whatever a schedule lets happen in between, the attempts of a job come to a
sequence of outcomes, and its result depends on the last of them.  A value
completes the step.  The fallback takes the place of a transient failure after
the last retry, whatever the step does on errors; any other final failure is
shaped by what the step does on errors.
-/

namespace Tollgate

variable {σ : Type}

/-! ## Attempts -/

def Job.Answers (job : Job σ) (outcome : Except EngineError Json) : Prop :=
  ∃ state, outcome = job.policy.observe (job.call state).1

structure Worker.IsRetrying (worker : Worker σ) (outcomes : Nat → Except EngineError Json)
    (retries : Nat) : Prop where
  retrying : worker.retrying = worker.job.policy.afterRetries retries
  allowed : retries ≤ worker.job.policy.maxRetries
  failed : ∀ attempt < retries, isTransientFailure (outcomes attempt) = true
  answered : ∀ attempt < retries, worker.job.Answers (outcomes attempt)
  pending : ∀ outcome ∈ worker.pending, worker.job.Answers outcome

/-- The job has come to an end with attempt number `last`. -/
structure Job.Finishes (job : Job σ) (outcomes : Nat → Except EngineError Json) (last : Nat)
    (finished : Finished) : Prop where
  step : finished.step = job.step
  isLast : job.policy.IsLast outcomes last
  reports : job.policy.Reports job.step.fallback outcomes last finished.invocation
  answered : ∀ attempt ≤ last, job.Answers (outcomes attempt)

theorem forall_update {outcomes : Nat → Except EngineError Json} {attempts : Nat}
    {outcome : Except EngineError Json} {P : Except EngineError Json → Prop}
    (earlier : ∀ attempt < attempts, P (outcomes attempt)) (last : P outcome) :
    ∀ attempt < attempts + 1, P (Function.update outcomes attempts outcome attempt) := by
  intro attempt lt
  rcases eq_or_ne attempt attempts with rfl | ne
  · rwa [Function.update_self]
  · rw [Function.update_of_ne ne]
    exact earlier attempt (by omega)

namespace Worker

variable {worker later : Worker σ} {outcomes : Nat → Except EngineError Json} {retries : Nat}
  {state after : σ}

theorem isRetrying_new (job : Job σ) (time : Nat) :
    IsRetrying { job, startedAt := time, due := time } (fun _ => .ok .null) 0 := by
  constructor <;> simp [RetryPolicy.afterRetries]

theorem IsRetrying.working (h : worker.IsRetrying outcomes retries)
    (works : worker.advance state = .working later after) :
    ∃ outcomes' retries', later.IsRetrying outcomes' retries' := by
  obtain ⟨retrying, allowed, failed, answered, pending⟩ := h
  rcases worker with ⟨job, startedAt, _, _ | outcome, due⟩
  · injection works with same
    subst same
    refine ⟨outcomes, retries, retrying, allowed, failed, answered, ?_⟩
    rintro outcome ⟨⟩
    exact ⟨state, rfl⟩
  · obtain rfl : _ = job.policy.afterRetries retries := retrying
    unfold advance at works
    dsimp only at works
    split at works
    · cases works
    · next again delay next =>
        injection works with same
        subst same
        obtain ⟨transient, room, rfl⟩ := RetryPolicy.again_afterRetries next
        exact ⟨Function.update outcomes retries outcome, retries + 1, rfl, room,
          forall_update (P := fun outcome => isTransientFailure outcome = true) failed transient,
          forall_update answered (pending outcome rfl), by simp⟩

private theorem IsRetrying.finished {result : Finished} (h : worker.IsRetrying outcomes retries)
    (finishes : worker.advance state = .finished result) :
    ∃ outcomes', worker.job.Finishes outcomes' retries result := by
  obtain ⟨retrying, allowed, failed, answered, pending⟩ := h
  rcases worker with ⟨job, startedAt, _, _ | outcome, due⟩
  · cases finishes
  · obtain rfl : _ = job.policy.afterRetries retries := retrying
    unfold advance at finishes
    dsimp only at finishes
    split at finishes
    · next invocation next =>
        injection finishes with same
        subst same
        have others : ∀ attempt < retries,
            isTransientFailure (Function.update outcomes retries outcome attempt) = true := by
          intro attempt lt
          rw [Function.update_of_ne (Nat.ne_of_lt lt)]
          exact failed attempt lt
        rw [← Function.update_self retries outcome outcomes] at next
        obtain ⟨isLast, reports⟩ := RetryPolicy.reports_of_next_over allowed others next
        exact ⟨_, rfl, isLast, reports, fun attempt le =>
          forall_update answered (pending outcome rfl) attempt (Nat.lt_succ_of_le le)⟩
    · cases finishes

end Worker

namespace Pool

structure Attempts (jobs : Job σ → Prop) (pool : Pool σ) : Prop where
  admits : Admits jobs pool
  workers : ∀ worker ∈ pool.workers, ∃ outcomes retries, worker.IsRetrying outcomes retries
  finished : ∀ finished ∈ pool.finished, ∃ job, jobs job ∧
    ∃ outcomes last, job.Finishes outcomes last finished

private theorem Attempts.of_moves {jobs : Job σ → Prop} {pool later : Pool σ}
    (moves : pool.Moves later) (h : Attempts jobs pool) : Attempts jobs later := by
  have admits := h.admits.of_moves moves
  cases moves with
  | enter queue =>
      refine ⟨admits, fun worker member => ?_, h.finished⟩
      rcases List.mem_append.mp member with old | new
      · exact h.workers worker old
      · rw [List.mem_singleton.mp new]
        exact ⟨_, 0, Worker.isRetrying_new _ _⟩
  | @work before worker after next state workers works =>
      have working := workers ▸ h.workers
      refine ⟨admits, fun other member => ?_, h.finished⟩
      simp only [List.mem_append, List.mem_cons] at member
      rcases member with old | rfl | old
      · exact working other (by simp [old])
      · obtain ⟨outcomes, retries, retrying⟩ := working worker (by simp)
        exact retrying.working works
      · exact working other (by simp [old])
  | @finish before worker after result workers finishes =>
      have kept (other : Worker σ) (member : other ∈ before ++ after) : other ∈ pool.workers := by
        rw [workers]
        simp only [List.mem_append, List.mem_cons] at member ⊢
        tauto
      refine ⟨admits, fun other member => h.workers other (kept other member), ?_⟩
      intro finished member
      rcases List.mem_append.mp member with old | new
      · exact h.finished finished old
      · rw [List.mem_singleton.mp new]
        have present : worker ∈ pool.workers := by simp [workers]
        obtain ⟨outcomes, retries, retrying⟩ := h.workers worker present
        obtain ⟨outcomes', finishes⟩ := retrying.finished finishes
        exact ⟨worker.job, h.admits.workers worker present, outcomes', retries, finishes⟩

theorem exists_finishes {schedule : Schedule σ} {pool : Pool σ} (idle : pool.workers = [])
    (fresh : pool.finished = []) {finished : Finished}
    (member : finished ∈ (run schedule pool).finished) :
    ∃ job ∈ pool.queue, ∃ outcomes last, job.Finishes outcomes last finished := by
  have start : Attempts (· ∈ pool.queue) pool :=
    ⟨⟨fun _ waiting => waiting, by simp [idle]⟩, by simp [idle], by simp [fresh]⟩
  exact (run_of_moves schedule (fun _ _ moves => Attempts.of_moves moves) start).finished
    finished member

end Pool

/-! ## Results -/

namespace StepResult

/-- What holds of every result of a step, however it came about. -/
structure IsConsistent (step : Step) (result : StepResult) : Prop where
  number : result.number = step.number
  output : result.output.isSome = true ↔
    result.status = .completed ∨ result.status = .completedWithFallback
  abortsRun : result.abortsRun = true ↔ result.status = .failed ∧ step.onError = .fail
  uncalled : result.attempts = 0 → result.retries = 0 ∧ result.backoffs = []
  called : result.attempts ≠ 0 →
    result.retries = result.attempts - 1 ∧ result.retries = result.backoffs.length

/-- A final failure, shaped by what the step does on errors. -/
structure IsFailure (step : Step) (message : String) (result : StepResult) : Prop where
  error : result.error = some s!"step {step.number} ({step.target}): {message}"
  fail : step.onError = .fail → result.status = .failed ∧ result.output = none
  replaced : ∀ value, step.onError = .continue → step.fallback = some value →
    result.status = .completedWithFallback ∧ result.output = some value
  unreplaced : step.onError = .continue → step.fallback = none →
    result.status = .failed ∧ result.output = none
  skip : step.onError = .skip → result.status = .skipped ∧ result.output = none

/-- What becomes of a step whose call ended with attempt number `last`. -/
structure IsOutcome (step : Step) (policy : RetryPolicy)
    (outcomes : Nat → Except EngineError Json) (last : Nat) (result : StepResult) : Prop where
  attempts : result.attempts = last + 1
  backoffs : result.backoffs = (List.range last).map policy.backoff
  completed : ∀ value, outcomes last = .ok value →
    result.status = .completed ∧ result.output = some value ∧ result.error = none
  replaced : ∀ value, isTransientFailure (outcomes last) = true → step.fallback = some value →
    result.status = .completedWithFallback ∧ result.output = some value ∧ result.error = none
  failed : ∀ error, outcomes last = .error error →
    (error.isTransient = true → step.fallback = none) → result.IsFailure step error.message

variable {step : Step} {now : Moment} {result : StepResult}

theorem isConsistent_of_isSkip (h : step.IsSkip now result) : result.IsConsistent step := by
  cases h <;> constructor <;> simp [skipped, ofStep]

theorem isFailure_failure (step : Step) (message : String) (startedAt now : Moment) :
    (failure step message startedAt now).IsFailure step message := by
  unfold failure
  cases policy : step.onError with
  | fail => constructor <;> simp [policy, ofStep]
  | skip => constructor <;> simp [policy, ofStep]
  | «continue» =>
      cases fallback : step.fallback <;> constructor <;> simp [policy, fallback, ofStep]

theorem isConsistent_failure (step : Step) (message : String) (startedAt now : Moment) :
    (failure step message startedAt now).IsConsistent step := by
  unfold failure
  cases policy : step.onError with
  | fail => constructor <;> simp [policy, ofStep]
  | skip => constructor <;> simp [policy, ofStep]
  | «continue» =>
      cases step.fallback <;> constructor <;> simp [policy, ofStep]

end StepResult

theorem Finished.result_of_ok {finished : Finished} {value : Json}
    (h : finished.invocation.result = .ok value) (origin : Moment) :
    (finished.result origin).status =
        (if finished.invocation.usedFallback then .completedWithFallback else .completed) ∧
      (finished.result origin).output = some value ∧ (finished.result origin).error = none ∧
      (finished.result origin).abortsRun = false := by
  unfold result
  dsimp only
  rw [h]
  exact ⟨rfl, rfl, rfl, rfl⟩

theorem Finished.result_of_error {finished : Finished} {error : EngineError} {origin : Moment}
    (h : finished.invocation.result = .error error) :
    finished.result origin =
      { StepResult.failure finished.step error.message (origin.addMillis finished.startedAt)
          (origin.addMillis finished.finishedAt) with
        attempts := finished.invocation.attempts
        retries := finished.invocation.retries
        backoffs := finished.invocation.backoffs } := by
  unfold result
  dsimp only
  rw [h]

namespace Job.Finishes

variable {job : Job σ} {outcomes : Nat → Except EngineError Json} {last : Nat}
  {finished : Finished} {origin : Moment}

theorem isConsistent (h : job.Finishes outcomes last finished) :
    (finished.result origin).IsConsistent job.step := by
  have retries := h.reports.retries
  have backoffs := congrArg List.length h.reports.backoffs
  rw [List.length_map, List.length_range, ← retries] at backoffs
  rw [← h.step]
  cases result : finished.invocation.result with
  | ok value =>
      obtain ⟨status, output, -, aborts⟩ := Finished.result_of_ok result origin
      refine ⟨Finished.number_result _ _, ?_, ?_, nofun, fun _ => ⟨rfl, backoffs.symm⟩⟩
      · rw [output, status]
        cases finished.invocation.usedFallback <;> simp
      · rw [aborts, status]
        cases finished.invocation.usedFallback <;> simp
  | error error =>
      obtain ⟨number, output, aborts, -, -⟩ := StepResult.isConsistent_failure finished.step
        error.message (origin.addMillis finished.startedAt) (origin.addMillis finished.finishedAt)
      rw [Finished.result_of_error result]
      exact ⟨number, output, aborts, nofun, fun _ => ⟨rfl, backoffs.symm⟩⟩

theorem isOutcome (h : job.Finishes outcomes last finished) :
    (finished.result origin).IsOutcome job.step job.policy outcomes last := by
  obtain ⟨step, -, reports, -⟩ := h
  refine ⟨reports.attempts, reports.backoffs, ?_, ?_, ?_⟩
  · intro value outcome
    obtain ⟨result, usedFallback⟩ := reports.settled (by rw [outcome]; rfl)
    obtain ⟨status, output, error, -⟩ :=
      Finished.result_of_ok (result.trans outcome) origin
    rw [usedFallback] at status
    exact ⟨status, output, error⟩
  · intro value transient fallback
    obtain ⟨result, usedFallback⟩ := reports.replaced value transient fallback
    obtain ⟨status, output, error, -⟩ := Finished.result_of_ok result origin
    rw [usedFallback] at status
    exact ⟨status, output, error⟩
  · intro error outcome unreplaced
    have result : finished.invocation.result = .error error := by
      cases transient : isTransientFailure (outcomes last) with
      | false => exact (reports.settled transient).1.trans outcome
      | true =>
          refine (reports.failed transient (unreplaced ?_)).1.trans outcome
          rw [outcome] at transient
          exact transient
    obtain ⟨text, fail, replaced, kept, skip⟩ := StepResult.isFailure_failure finished.step
      error.message (origin.addMillis finished.startedAt) (origin.addMillis finished.finishedAt)
    rw [Finished.result_of_error result, ← step]
    exact ⟨text, fail, replaced, kept, skip⟩

end Job.Finishes

namespace Executor

variable {executor : Executor σ} {steps : List Step} {context : Context} {state : σ}
  {now : Moment} {result : StepResult}

/-- The ways in which a step comes to its result: its condition keeps it from running, its engine
is not found, or it is attempted until an attempt is the last. -/
inductive Settles (executor : Executor σ) (step : Step) (context : Context) (now : Moment)
    (result : StepResult) : Prop
  | gated (prepared : ∀ evaluator, (step.prepare context evaluator now).1 = .skip result)
      (status : result.status = .skipped) (attempts : result.attempts = 0)
  | unresolved {error : EngineError}
      (prepared : ∀ evaluator,
        (step.prepare context evaluator now).1 = .run (step.arguments context.scope))
      (missing : executor.registry.resolve step.tool step.function = .error error)
      (failure : result.IsFailure step error.message) (attempts : result.attempts = 0)
  | attempted {engine : Engine σ} {policy : RetryPolicy}
      {outcomes : Nat → Except EngineError Json} {last : Nat}
      (prepared : ∀ evaluator,
        (step.prepare context evaluator now).1 = .run (step.arguments context.scope))
      (found : executor.registry.resolve step.tool step.function = .ok engine)
      (settings : policy = executor.config.policy step.retries step.timeoutSeconds)
      (answered : ∀ attempt ≤ last, ∃ state, outcomes attempt =
        policy.observe (engine.call step.function (step.arguments context.scope) state).1)
      (isLast : policy.IsLast outcomes last)
      (outcome : result.IsOutcome step policy outcomes last)

theorem arguments_of_preparation {step : Step} {arguments : Json}
    (h : step.preparation context now = .run arguments) :
    arguments = step.arguments context.scope := by
  unfold Step.preparation at h
  split at h
  · injection h with same
    exact same.symm
  · injection h with same
    exact same.symm
  · cases h
  · cases h

theorem settles_of_place_inl {step : Step} (h : executor.place step context now = .inl result) :
    result.IsConsistent step ∧ executor.Settles step context now result := by
  have attempts := attempts_of_place_inl h
  unfold place at h
  split at h
  · next skips =>
      injection h with same
      subst same
      have skip := Step.isSkip_of_preparation skips
      refine ⟨StepResult.isConsistent_of_isSkip skip, .gated ?_ ?_ attempts⟩
      · exact fun evaluator => (step.prepare_fst context evaluator now).trans skips
      · cases skip <;> rfl
  · next arguments prepared =>
      obtain rfl := arguments_of_preparation prepared
      split at h
      · next error missing =>
          injection h with same
          subst same
          refine ⟨StepResult.isConsistent_failure _ _ _ _, .unresolved ?_ missing ?_ attempts⟩
          · exact fun evaluator => (step.prepare_fst context evaluator now).trans prepared
          · exact StepResult.isFailure_failure _ _ _ _
      · cases h

private theorem settles_of_place_inr {step : Step} {job : Job σ}
    {outcomes : Nat → Except EngineError Json} {last : Nat} {finished : Finished}
    (placed : executor.place step context now = .inr job)
    (finishes : job.Finishes outcomes last finished) :
    (finished.result now).IsConsistent step ∧
      executor.Settles step context now (finished.result now) := by
  unfold place at placed
  split at placed
  · cases placed
  · next arguments prepared =>
      obtain rfl := arguments_of_preparation prepared
      split at placed
      · cases placed
      · next engine found =>
          injection placed with same
          subst same
          refine ⟨finishes.isConsistent, .attempted ?_ found rfl finishes.answered
            finishes.isLast finishes.isOutcome⟩
          exact fun evaluator => (step.prepare_fst context evaluator now).trans prepared

private theorem settles_of_mem_levelResults
    (member : result ∈ executor.levelResults steps context state now) :
    ∃ step ∈ steps, result.IsConsistent step ∧ executor.Settles step context now result := by
  rcases List.mem_append.mp ((inStepOrder_perm _).mem_iff.mp member) with settled | ran
  · obtain ⟨step, known, placed⟩ := exists_place_of_mem_settled settled
    exact ⟨step, known, settles_of_place_inl placed⟩
  · obtain ⟨finished, done, rfl⟩ := List.mem_map.mp ran
    obtain ⟨job, queued, outcomes, last, finishes⟩ := Pool.exists_finishes rfl rfl done
    obtain ⟨step, known, placed⟩ := exists_place_of_mem_jobs queued
    exact ⟨step, known, settles_of_place_inr placed finishes⟩

private theorem Settles.attempts_le {step : Step} (h : executor.Settles step context now result) :
    result.attempts ≤ step.retries + 1 := by
  cases h with
  | gated _ _ attempts | unresolved _ _ _ attempts =>
      rw [attempts]
      exact Nat.zero_le _
  | attempted _ _ settings _ isLast outcome =>
      have allowed := isLast.allowed
      rw [settings] at allowed
      rw [outcome.attempts]
      exact Nat.succ_le_succ allowed

/-- The results of a level follow the error policies of its steps, and count the calls that were
made for them.  With fewer retries than a word can count, the counts are those of words. -/
theorem results_follow_policy (executor : Executor σ) (definition : Definition)
    (context : Context) (evaluator : Evaluator) (state : σ) (now : Moment) {level : List Nat}
    (known : level.map definition.step? = steps.map some) :
    let results := executor.levelResults steps context state now
    (executor.runLevel definition level context evaluator state now).outcome =
        (context.commitAll results).1.map (fun _ => results) ∧
      (∀ result ∈ results,
        ∃ step ∈ steps, result.IsConsistent step ∧ executor.Settles step context now result ∧
          (step.retries + 1 < Bound.word → result.attempts < Bound.word)) ∧
      ((steps.map Step.number).Pairwise (· < ·) →
        results.map StepResult.number = steps.map Step.number ∧
          ∀ result ∈ results,
            (executor.levelCalls definition level context evaluator state now).countP
              (fun job => job.step.number == result.number) = result.attempts) := by
  refine ⟨(executor.runLevel_eq definition context evaluator state now known).1, ?_, ?_⟩
  · intro result member
    obtain ⟨step, listed, consistent, settles⟩ := settles_of_mem_levelResults member
    exact ⟨step, listed, consistent, settles, settles.attempts_le.trans_lt⟩
  · intro ascending
    refine ⟨executor.number_levelResults context state now ascending, fun result member => ?_⟩
    rw [executor.levelCalls_eq definition context evaluator state now known]
    exact countP_jobCalls ascending member

/-! ## A step that is never served -/

def busy : Engine Nat where
  name := "door"
  functions := ["poll"]
  call := fun _ _ calls => ({ outcome := .error (.transient "busy") }, calls + 1)

def polling : Step :=
  { Step.make 1 "door" "poll" with retries := 2, onError := .skip, fallback := some .null }

def pollDoor : Definition := { id := "poll", steps := [polling] }

def doorkeeper : Executor Nat where
  registry := ⟨[("door", busy)]⟩

def atDoor : Context := .ofInput [polling] .null

theorem results_follow_policy_busy :
    [1].map pollDoor.step? = [polling].map some ∧
      ([polling].map Step.number).Pairwise (· < ·) ∧
      ∃ result, doorkeeper.levelResults [polling] atDoor 0 default = [result] ∧
        result.status = .completedWithFallback ∧ result.output = some .null ∧
        result.attempts = 3 ∧
        (doorkeeper.levelCalls pollDoor [1] atDoor .empty 0 default).countP
          (fun job => job.step.number == result.number) = 3 := by
  have known : [1].map pollDoor.step? = [polling].map some := rfl
  have ascending : ([polling].map Step.number).Pairwise (· < ·) := List.pairwise_singleton _ _
  obtain ⟨-, policy, account⟩ :=
    results_follow_policy doorkeeper pollDoor atDoor .empty 0 default known
  obtain ⟨numbers, calls⟩ := account ascending
  obtain ⟨result, single, -⟩ := List.map_eq_singleton_iff.mp numbers
  have member : result ∈ doorkeeper.levelResults [polling] atDoor 0 default := by simp [single]
  obtain ⟨step, listed, -, settles, -⟩ := policy result member
  obtain rfl := List.mem_singleton.mp listed
  have resolved : doorkeeper.registry.resolve polling.tool polling.function = .ok busy := by rfl
  refine ⟨known, ascending, result, single, ?_⟩
  rw [calls result member]
  cases settles with
  | gated prepared => cases prepared .empty
  | unresolved prepared missing =>
      rw [resolved] at missing
      cases missing
  | @attempted engine policy outcomes last prepared found settings answered isLast outcome =>
      rw [resolved] at found
      cases found
      have transient (attempt : Nat) (le : attempt ≤ last) :
          isTransientFailure (outcomes attempt) = true := by
        obtain ⟨state, same⟩ := answered attempt le
        rw [same, settings]
        rfl
      have exhausted : last = 2 := by
        have allowed := isLast.allowed
        have room := mt isLast.settled (by simp [transient last le_rfl])
        rw [settings] at allowed room
        exact le_antisymm allowed (not_lt.mp room)
      obtain ⟨status, output, -⟩ := outcome.replaced .null (transient last le_rfl) rfl
      have attempts := outcome.attempts
      rw [exhausted] at attempts
      exact ⟨status, output, attempts, attempts⟩

end Executor

end Tollgate
