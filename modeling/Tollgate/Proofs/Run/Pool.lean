import Mathlib.Data.List.Perm.Basic
import Tollgate.Proofs.Engine.Retry
import Tollgate.Run.Pool

/-!
# Runs of worker pools

Every move of a pool admits a queued job, makes a call for a worker, or takes a
finished worker out.  An account of the jobs that these moves keep is settled
at the end: whatever the schedule, each job has then finished exactly once.
-/

namespace Tollgate

namespace Worker

variable {σ : Type}

theorem job_advance {worker later : Worker σ} {state after : σ}
    (h : worker.advance state = .working later after) : later.job = worker.job := by
  unfold advance at h
  rcases worker with ⟨job, startedAt, retrying, _ | outcome, due⟩
  · injection h with same
    rw [← same]
  · dsimp only at h
    split at h
    · cases h
    · injection h with same
      rw [← same]

theorem step_advance {worker : Worker σ} {state : σ} {result : Finished}
    (h : worker.advance state = .finished result) : result.step = worker.job.step := by
  unfold advance at h
  rcases worker with ⟨job, startedAt, retrying, _ | outcome, due⟩
  · cases h
  · dsimp only at h
    split at h
    · injection h with same
      rw [← same]
    · cases h

end Worker

namespace Pool

variable {σ : Type}

/-- Everything that a step of a pool can be. -/
inductive Moves (pool : Pool σ) : Pool σ → Prop
  | enter {before : List (Job σ)} {job : Job σ} {after : List (Job σ)}
      (queue : pool.queue = before ++ job :: after) :
      Moves pool
        { pool with
          queue := before ++ after
          workers := pool.workers ++ [{ job, startedAt := pool.clock, due := pool.clock }] }
  | work {before : List (Worker σ)} {worker : Worker σ} {after : List (Worker σ)}
      {later : Worker σ} {state : σ} (workers : pool.workers = before ++ worker :: after)
      (works : worker.advance pool.state = .working later state) :
      Moves pool
        { pool with
          workers := before ++ later :: after
          clock := max pool.clock worker.due
          state }
  | finish {before : List (Worker σ)} {worker : Worker σ} {after : List (Worker σ)}
      {result : Finished} (workers : pool.workers = before ++ worker :: after)
      (finishes : worker.advance pool.state = .finished result) :
      Moves pool
        { pool with
          workers := before ++ after
          finished := pool.finished ++ [result]
          clock := max pool.clock worker.due }

private theorem moves_of_enter? {pool later : Pool σ} {position : Nat}
    (h : pool.enter? position = some later) : pool.Moves later := by
  unfold enter? at h
  split at h
  · obtain ⟨⟨before, job, after⟩, found, rfl⟩ := Option.map_eq_some_iff.mp h
    exact .enter (eq_of_splitAt? found)
  · cases h

private theorem moves_of_advance? {pool later : Pool σ} {position : Nat}
    (h : pool.advance? position = some later) : pool.Moves later := by
  unfold advance? at h
  obtain ⟨⟨before, worker, after⟩, found, same⟩ := Option.map_eq_some_iff.mp h
  have workers := eq_of_splitAt? found
  dsimp only at same
  split at same
  · next works =>
      subst same
      exact .work workers works
  · next finishes =>
      subst same
      exact .finish workers finishes

theorem moves_of_step? {schedule : Schedule σ} {pool later : Pool σ}
    (h : step? schedule pool = some later) : pool.Moves later := by
  unfold step? at h
  rcases Option.or_eq_some_iff.mp h with h | ⟨_, h⟩
  · cases chosen : schedule pool <;> rw [chosen] at h
    · exact moves_of_enter? h
    · exact moves_of_advance? h
  · rcases Option.or_eq_some_iff.mp h with h | ⟨_, h⟩
    · exact moves_of_advance? h
    · exact moves_of_enter? h

theorem run_of_moves {motive : Pool σ → Prop} (schedule : Schedule σ)
    (keeps : ∀ pool later, pool.Moves later → motive pool → motive later) {pool : Pool σ}
    (h : motive pool) : motive (run schedule pool) := by
  fun_induction run schedule pool with
  | case1 pool later moved _ ih => exact ih (keeps pool later (moves_of_step? moved) h)
  | case2 => exact h

private theorem step?_run (schedule : Schedule σ) (pool : Pool σ) :
    step? schedule (run schedule pool) = none := by
  fun_induction run schedule pool with
  | case1 _ _ _ _ ih => exact ih
  | case2 _ stuck => exact stuck

@[simp] theorem permits_run (schedule : Schedule σ) (pool : Pool σ) :
    (run schedule pool).permits = pool.permits := by
  refine run_of_moves (motive := fun later => later.permits = pool.permits) schedule ?_ rfl
  intro pool later moves same
  cases moves <;> exact same

theorem run_idle (schedule : Schedule σ) {pool : Pool σ} (h : 0 < pool.permits) :
    (run schedule pool).workers = [] ∧ (run schedule pool).queue = [] := by
  have stuck := step?_run schedule pool
  have permits := permits_run schedule pool
  generalize run schedule pool = last at stuck permits ⊢
  unfold step? at stuck
  obtain ⟨_, stuck⟩ := Option.or_eq_none_iff.mp stuck
  obtain ⟨no_advance, no_enter⟩ := Option.or_eq_none_iff.mp stuck
  have workers : last.workers = [] := by
    cases shape : last.workers with
    | nil => rfl
    | cons worker rest => simp [advance?, splitAt?, shape] at no_advance
  refine ⟨workers, ?_⟩
  cases shape : last.queue with
  | nil => rfl
  | cons job rest =>
      rw [← permits] at h
      simp [enter?, splitAt?, shape, workers, h] at no_enter

/-- What a job is worth while it waits, works, and has finished, in that no move changes it. -/
structure Account (σ β : Type) (admits : Job σ → Prop) where
  queued : Job σ → β
  working : Worker σ → β
  done : Finished → β
  enter : ∀ job time, admits job →
    working { job, startedAt := time, due := time } = queued job
  work : ∀ worker state later after, admits worker.job →
    worker.advance state = .working later after → working later = working worker
  finish : ∀ worker state result, admits worker.job →
    worker.advance state = .finished result → done result = working worker

namespace Account

variable {β : Type} {admits : Job σ → Prop}

def total (account : Account σ β admits) (pool : Pool σ) : List β :=
  pool.finished.map account.done ++ pool.workers.map account.working ++
    pool.queue.map account.queued

end Account

structure Admits (admits : Job σ → Prop) (pool : Pool σ) : Prop where
  queue : ∀ job ∈ pool.queue, admits job
  workers : ∀ worker ∈ pool.workers, admits worker.job

theorem Admits.of_moves {admits : Job σ → Prop} {pool later : Pool σ} (moves : pool.Moves later)
    (h : Admits admits pool) : Admits admits later := by
  cases moves with
  | @enter before job after queue =>
      have waiting : ∀ other ∈ before ++ job :: after, admits other := queue ▸ h.queue
      constructor
      · intro other member
        exact waiting other (by simp only [List.mem_append, List.mem_cons] at member ⊢; tauto)
      · intro worker member
        rcases List.mem_append.mp member with old | new
        · exact h.workers worker old
        · rw [List.mem_singleton.mp new]
          exact waiting job (by simp)
  | @work before worker after next state workers works =>
      have working : ∀ other ∈ before ++ worker :: after, admits other.job := workers ▸ h.workers
      refine ⟨h.queue, fun other member => ?_⟩
      simp only [List.mem_append, List.mem_cons] at member
      rcases member with old | rfl | old
      · exact working other (by simp [old])
      · rw [Worker.job_advance works]
        exact working worker (by simp)
      · exact working other (by simp [old])
  | @finish before worker after result workers finishes =>
      have working : ∀ other ∈ before ++ worker :: after, admits other.job := workers ▸ h.workers
      refine ⟨h.queue, fun other member => ?_⟩
      simp only [List.mem_append] at member
      exact working other (by simp only [List.mem_append, List.mem_cons]; tauto)

namespace Account

variable {β : Type} {admits : Job σ → Prop}

private theorem total_perm (account : Account σ β admits) {pool later : Pool σ}
    (moves : pool.Moves later) (h : Admits admits pool) :
    (account.total later).Perm (account.total pool) := by
  cases moves with
  | @enter before job after queue =>
      have same := account.enter job pool.clock (h.queue job (by simp [queue]))
      simp only [total, queue, List.map_append, List.map_cons, List.map_nil, same,
        List.append_assoc, List.cons_append, List.nil_append]
      refine .append_left _ (.append_left _ ?_)
      exact List.perm_middle.symm
  | @work before worker after next state workers works =>
      have same := account.work worker pool.state next state
        (h.workers worker (by simp [workers])) works
      simp [total, workers, same]
  | @finish before worker after result workers finishes =>
      have same := account.finish worker pool.state result
        (h.workers worker (by simp [workers])) finishes
      simp only [total, workers, List.map_append, List.map_cons, List.map_nil, same,
        List.append_assoc, List.cons_append, List.nil_append]
      exact .append_left _ List.perm_middle.symm

theorem finished_perm (account : Account σ β admits) (schedule : Schedule σ) {pool : Pool σ}
    (permits : 0 < pool.permits) (idle : pool.workers = []) (fresh : pool.finished = [])
    (h : ∀ job ∈ pool.queue, admits job) :
    ((run schedule pool).finished.map account.done).Perm (pool.queue.map account.queued) := by
  have kept := run_of_moves
    (motive := fun later => Admits admits later ∧ (account.total later).Perm (account.total pool))
    schedule
    (fun earlier later moves kept =>
      ⟨kept.1.of_moves moves, (account.total_perm moves kept.1).trans kept.2⟩)
    ⟨⟨h, by simp [idle]⟩, .refl _⟩
  obtain ⟨workers, queue⟩ := run_idle schedule permits
  have settled := kept.2
  simp only [total, workers, queue, idle, fresh, List.map_nil, List.append_nil,
    List.nil_append] at settled
  exact settled

end Account

def steps : Account σ Step fun _ => True where
  queued := Job.step
  working := fun worker => worker.job.step
  done := Finished.step
  enter := fun _ _ _ => rfl
  work := fun _ _ _ _ _ h => congrArg Job.step (Worker.job_advance h)
  finish := fun _ _ _ _ h => Worker.step_advance h

end Pool

/-- The reply to a call does not depend on the state of the engine. -/
def Engine.IsSteady {σ : Type} (engine : Engine σ) : Prop :=
  ∀ function arguments state later,
    (engine.call function arguments state).1 = (engine.call function arguments later).1

namespace RetryPolicy

variable {σ : Type} {policy : RetryPolicy} {fallback : Option Json} {call : σ → Reply × σ}

theorem invokeFrom_steady (steady : ∀ state later, (call state).1 = (call later).1)
    (retrying : Retrying) (state later : σ) :
    (policy.invokeFrom fallback call retrying state).1 =
      (policy.invokeFrom fallback call retrying later).1 := by
  -- Retries left bound the recursion; the reply is the same in both states.
  induction left : policy.maxRetries - retrying.retries using Nat.strongRecOn
    generalizing retrying state later with
  | ind _ ih =>
      match next : policy.next fallback retrying (policy.observe (call state).1) with
      | .over invocation =>
          have same := next
          rw [steady state later] at same
          rw [invokeFrom_over next, invokeFrom_over same]
      | .again again delay =>
          have same := next
          rw [steady state later] at same
          rw [invokeFrom_again next, invokeFrom_again same]
          obtain ⟨room, count⟩ := lt_of_next_again next
          exact ih (policy.maxRetries - again.retries) (by omega) again _ _ rfl

end RetryPolicy

namespace Job

variable {σ : Type}

def call (job : Job σ) : σ → Reply × σ := job.engine.call job.step.function job.arguments

def invocation (job : Job σ) (state : σ) : Invocation :=
  (job.policy.invoke job.step.fallback job.call state).1

end Job

namespace Worker

variable {σ : Type}

def invocation (worker : Worker σ) (state : σ) : Invocation :=
  let job := worker.job
  match worker.pending with
  | none => (job.policy.invokeFrom job.step.fallback job.call worker.retrying state).1
  | some outcome =>
      match job.policy.next job.step.fallback worker.retrying outcome with
      | .over invocation => invocation
      | .again later _ => (job.policy.invokeFrom job.step.fallback job.call later state).1

theorem invocation_working {worker later : Worker σ} {state after : σ}
    (steady : worker.job.engine.IsSteady) (h : worker.advance state = .working later after)
    (any : σ) : later.invocation any = worker.invocation any := by
  have answers : ∀ s t, (worker.job.call s).1 = (worker.job.call t).1 := steady _ _
  unfold advance at h
  rcases worker with ⟨job, startedAt, retrying, _ | outcome, due⟩
  · injection h with same
    rw [← same]
    simp only [invocation]
    change _ = (job.policy.invokeFrom job.step.fallback job.call retrying any).1
    have reply : (job.engine.call job.step.function job.arguments state).1 = (job.call any).1 :=
      answers state any
    rw [reply]
    match next : job.policy.next job.step.fallback retrying
        (job.policy.observe (job.call any).1) with
    | .over result => exact (congrArg Prod.fst (RetryPolicy.invokeFrom_over next)).symm
    | .again again delay =>
        rw [RetryPolicy.invokeFrom_again next]
        exact RetryPolicy.invokeFrom_steady answers again any _
  · dsimp only at h
    split at h
    · cases h
    · next found =>
        injection h with same
        rw [← same]
        simp only [invocation, found]

private theorem invocation_finished {worker : Worker σ} {state : σ} {result : Finished}
    (h : worker.advance state = .finished result) (any : σ) :
    result.invocation = worker.invocation any := by
  unfold advance at h
  rcases worker with ⟨job, startedAt, retrying, _ | outcome, due⟩
  · cases h
  · dsimp only at h
    split at h
    · next found =>
        injection h with same
        rw [← same]
        simp only [invocation, found]
    · cases h

end Worker

def Pool.invocations {σ : Type} (any : σ) :
    Account σ (Step × Invocation) fun job => job.engine.IsSteady where
  queued := fun job => (job.step, job.invocation any)
  working := fun worker => (worker.job.step, worker.invocation any)
  done := fun finished => (finished.step, finished.invocation)
  enter := fun _ _ _ => rfl
  work := fun _ _ _ _ steady h => by
    rw [Worker.job_advance h, Worker.invocation_working steady h]
  finish := fun _ _ _ _ h => by
    rw [Worker.step_advance h, Worker.invocation_finished h any]

end Tollgate
