import Tollgate.Proofs.Run.Session

/-!
# Calls to engines

A run changes the states of the engines by calling them, and in no other way.
The calls that it makes are listed here in the order in which it makes them,
level by level.
-/

namespace Tollgate

variable {σ τ : Type}

def Job.serve (state : σ) (job : Job σ) : σ := (job.call state).2

def Worker.caller? (worker : Worker σ) : Option (Job σ) :=
  if worker.pending.isNone then some worker.job else none

namespace Pool

def worker? (pool : Pool σ) : Move → Option (Worker σ)
  | .enter _ => none
  | .advance position => pool.workers[position]?

def mover? (schedule : Schedule σ) (pool : Pool σ) : Option (Worker σ) :=
  if (pool.move? (schedule pool)).isSome then pool.worker? (schedule pool)
  else pool.worker? (.advance 0)

def caller? (schedule : Schedule σ) (pool : Pool σ) : Option (Job σ) :=
  (pool.mover? schedule).bind Worker.caller?

def calls (schedule : Schedule σ) (pool : Pool σ) : List (Job σ) :=
  match h : step? schedule pool with
  | some later =>
      have := weight_step? h
      (pool.caller? schedule).toList ++ calls schedule later
  | none => []
  termination_by pool.weight

/-- Everything that a step of a pool can be, with the job for which it calls an engine. -/
inductive Turn (pool : Pool σ) : Option (Job σ) → Pool σ → Prop
  | enter {before : List (Job σ)} {job : Job σ} {after : List (Job σ)}
      (queue : pool.queue = before ++ job :: after) :
      Turn pool none
        { pool with
          queue := before ++ after
          workers := pool.workers ++ [{ job, startedAt := pool.clock, due := pool.clock }] }
  | call {before : List (Worker σ)} {worker later : Worker σ} {after : List (Worker σ)}
      (workers : pool.workers = before ++ worker :: after) (idle : worker.pending = none)
      (same : later.job = worker.job ∧ later.retrying = worker.retrying)
      (waits : later.pending.isSome = true) :
      Turn pool (some worker.job)
        { pool with
          workers := before ++ later :: after
          clock := max pool.clock worker.due
          state := worker.job.serve pool.state }
  | retry {before : List (Worker σ)} {worker later : Worker σ} {after : List (Worker σ)}
      (workers : pool.workers = before ++ worker :: after)
      (answered : worker.pending.isSome = true) (same : later.job = worker.job)
      (retries : later.retrying.retries = worker.retrying.retries + 1)
      (idle : later.pending = none) :
      Turn pool none
        { pool with
          workers := before ++ later :: after
          clock := max pool.clock worker.due }
  | finish {before : List (Worker σ)} {worker : Worker σ} {after : List (Worker σ)}
      {result : Finished} (workers : pool.workers = before ++ worker :: after)
      (answered : worker.pending.isSome = true) (same : result.step = worker.job.step)
      (retries : result.invocation.retries = worker.retrying.retries) :
      Turn pool none
        { pool with
          workers := before ++ after
          finished := pool.finished ++ [result]
          clock := max pool.clock worker.due }

end Pool

private theorem getElem?_of_splitAt? {α : Type} {position : Nat} {members before after : List α}
    {a : α} (h : splitAt? position members = some (before, a, after)) :
    members[position]? = some a := by
  unfold splitAt? at h
  split at h
  · cases h
  · next found =>
      simp only [Option.some.injEq, Prod.mk.injEq] at h
      obtain ⟨_, rfl, _⟩ := h
      rw [← List.head?_drop, found]
      rfl

namespace Pool

private theorem turn_of_enter? {pool later : Pool σ} {position : Nat}
    (h : pool.enter? position = some later) : pool.Turn none later := by
  unfold enter? at h
  split at h
  · obtain ⟨⟨before, job, after⟩, found, rfl⟩ := Option.map_eq_some_iff.mp h
    exact .enter (eq_of_splitAt? found)
  · cases h

private theorem turn_of_advance? {pool later : Pool σ} {position : Nat}
    (h : pool.advance? position = some later) :
    pool.Turn ((pool.workers[position]?).bind Worker.caller?) later := by
  unfold advance? at h
  obtain ⟨⟨before, worker, after⟩, found, same⟩ := Option.map_eq_some_iff.mp h
  have workers := eq_of_splitAt? found
  rw [getElem?_of_splitAt? found, Option.bind_some]
  rcases worker with ⟨job, startedAt, retrying, _ | outcome, due⟩
  · subst same
    exact .call workers rfl ⟨rfl, rfl⟩ rfl
  · dsimp only [Worker.advance] at same
    match next : job.policy.next job.step.fallback retrying outcome with
    | .over invocation =>
        rw [next] at same
        subst same
        exact .finish workers rfl rfl (RetryPolicy.retries_of_next_over next)
    | .again again delay =>
        rw [next] at same
        subst same
        exact .retry workers rfl rfl (RetryPolicy.lt_of_next_again next).2 rfl

theorem turn_of_step? {schedule : Schedule σ} {pool later : Pool σ}
    (h : step? schedule pool = some later) : pool.Turn (pool.caller? schedule) later := by
  unfold step? at h
  unfold caller? mover?
  rcases Option.or_eq_some_iff.mp h with chosen | ⟨none_chosen, h⟩
  · rw [chosen, if_pos Option.isSome_some]
    cases move : schedule pool <;> rw [move] at chosen
    · exact turn_of_enter? chosen
    · exact turn_of_advance? chosen
  · rw [none_chosen, if_neg (by simp)]
    rcases Option.or_eq_some_iff.mp h with first | ⟨none_works, admitted⟩
    · exact turn_of_advance? first
    · have idle : pool.workers[0]? = none := by
        cases shape : pool.workers with
        | nil => rfl
        | cons worker rest => simp [advance?, splitAt?, shape] at none_works
      rw [worker?, idle]
      exact turn_of_enter? admitted

theorem calls_of_step? {schedule : Schedule σ} {pool later : Pool σ}
    (h : step? schedule pool = some later) :
    calls schedule pool = (pool.caller? schedule).toList ++ calls schedule later := by
  rw [calls]
  split
  · next moved =>
      rw [h] at moved
      injection moved with same
      rw [same]
  · next stuck => simp [h] at stuck

theorem calls_of_stuck {schedule : Schedule σ} {pool : Pool σ}
    (h : step? schedule pool = none) : calls schedule pool = [] := by
  rw [calls]
  split
  · next moved => simp [h] at moved
  · rfl

private theorem Turn.state {pool later : Pool σ} {called : Option (Job σ)}
    (turn : pool.Turn called later) :
    later.state = called.toList.foldl Job.serve pool.state := by
  cases turn <;> rfl

theorem state_run (schedule : Schedule σ) (pool : Pool σ) :
    (run schedule pool).state = (calls schedule pool).foldl Job.serve pool.state := by
  fun_induction run schedule pool with
  | case1 pool later moved _ ih =>
      rw [ih, calls_of_step? moved, List.foldl_append, (turn_of_step? moved).state]
  | case2 pool stuck =>
      rw [calls_of_stuck stuck]
      rfl

private theorem Turn.admits {admits : Job σ → Prop} {pool later : Pool σ} {job : Job σ}
    (turn : pool.Turn (some job) later) (h : Admits admits pool) : admits job := by
  cases turn with
  | call workers => exact h.workers _ (by simp [workers])

theorem admits_of_mem_calls {admits : Job σ → Prop} {schedule : Schedule σ} {pool : Pool σ}
    (h : Admits admits pool) {job : Job σ} (member : job ∈ calls schedule pool) : admits job := by
  fun_induction run schedule pool with
  | case1 pool later moved _ ih =>
      rw [calls_of_step? moved, List.mem_append, Option.mem_toList] at member
      rcases member with now | afterwards
      · have turn := turn_of_step? moved
        rw [Option.mem_def.mp now] at turn
        exact turn.admits h
      · exact ih (h.of_moves (moves_of_step? moved)) afterwards
  | case2 pool stuck =>
      rw [calls_of_stuck stuck] at member
      cases member

def attempts (number : Nat) (pool : Pool σ) : Nat :=
  totalOf (fun finished : Finished =>
      if finished.step.number = number then finished.invocation.attempts else 0) pool.finished +
    totalOf (fun worker =>
      if worker.job.step.number = number then
        worker.retrying.retries + (if worker.pending.isSome then 1 else 0)
      else 0) pool.workers

private theorem Turn.attempts (number : Nat) {pool later : Pool σ} {called : Option (Job σ)}
    (turn : pool.Turn called later) :
    later.attempts number =
      pool.attempts number + called.toList.countP fun job => job.step.number == number := by
  cases turn with
  | enter => simp [Pool.attempts, totalOf_append, totalOf]
  | @call before worker later after workers idle same waits =>
      obtain ⟨job, retrying⟩ := same
      by_cases about : worker.job.step.number = number <;>
        simp +arith [Pool.attempts, totalOf_append, totalOf, workers, idle, job, retrying, waits,
          about]
  | retry workers answered same retries idle =>
      simp [Pool.attempts, totalOf_append, totalOf, workers, answered, same, retries, idle]
  | finish workers answered same retries =>
      simp [Pool.attempts, totalOf_append, totalOf, workers, answered, same, retries,
        Invocation.attempts]
      omega

private theorem attempts_run (number : Nat) (schedule : Schedule σ) (pool : Pool σ) :
    (run schedule pool).attempts number =
      pool.attempts number + (calls schedule pool).countP fun job => job.step.number == number := by
  fun_induction run schedule pool with
  | case1 pool later moved _ ih =>
      rw [ih, calls_of_step? moved, List.countP_append, (turn_of_step? moved).attempts number,
        Nat.add_assoc]
  | case2 pool stuck => rw [calls_of_stuck stuck, List.countP_nil, Nat.add_zero]

private theorem totalOf_eq_zero {α : Type} {f : α → Nat} {members : List α}
    (h : ∀ a ∈ members, f a = 0) : totalOf f members = 0 := by
  induction members with
  | nil => rfl
  | cons a rest ih =>
      rw [totalOf, h a List.mem_cons_self, ih fun b member => h b (List.mem_cons_of_mem a member)]

private theorem totalOf_key {α : Type} (key f : α → Nat) {members : List α}
    (distinct : (members.map key).Nodup) {a : α} (member : a ∈ members) :
    totalOf (fun b => if key b = key a then f b else 0) members = f a := by
  induction members with
  | nil => cases member
  | cons b rest ih =>
      rw [List.map_cons, List.nodup_cons] at distinct
      obtain ⟨new, distinct⟩ := distinct
      rw [totalOf]
      rcases List.mem_cons.mp member with rfl | later
      · have others : totalOf (fun b => if key b = key a then f b else 0) rest = 0 :=
          totalOf_eq_zero fun b present =>
            if_neg fun same => new (List.mem_map.mpr ⟨b, present, same⟩)
        rw [if_pos rfl, others, Nat.add_zero]
      · have other : key b ≠ key a := fun same => new (List.mem_map.mpr ⟨a, later, same.symm⟩)
        rw [if_neg other, Nat.zero_add, ih distinct later]

theorem countP_calls (schedule : Schedule σ) {pool : Pool σ} (permits : 0 < pool.permits)
    (idle : pool.workers = []) (fresh : pool.finished = [])
    (distinct : (pool.queue.map fun job => job.step.number).Nodup) {finished : Finished}
    (member : finished ∈ (run schedule pool).finished) :
    (calls schedule pool).countP (fun job => job.step.number == finished.step.number) =
      finished.invocation.attempts := by
  have numbers : ((run schedule pool).finished.map fun result => result.step.number).Nodup := by
    have account := (steps.finished_perm schedule permits idle fresh fun _ _ => trivial).map
      Step.number
    simp only [List.map_map] at account
    exact account.symm.nodup distinct
  obtain ⟨workers, _⟩ := run_idle schedule permits
  have at_first : pool.attempts finished.step.number = 0 := by
    simp [attempts, idle, fresh, totalOf]
  have at_last : (run schedule pool).attempts finished.step.number =
      finished.invocation.attempts := by
    have own := totalOf_key (fun result : Finished => result.step.number)
      (fun result => result.invocation.attempts) numbers member
    simpa [attempts, workers, totalOf] using own
  have total := attempts_run finished.step.number schedule pool
  omega

end Pool

namespace Executor

variable {executor : Executor σ} {context : Context} {steps : List Step} {now : Moment}

def jobCalls (executor : Executor σ) (jobs : List (Job σ)) (state : σ) : List (Job σ) :=
  Pool.calls executor.schedule
    { permits := max executor.config.maxParallel 1, queue := jobs, state }

def levelCalls (executor : Executor σ) (definition : Definition) (level : List Nat)
    (context : Context) (evaluator : Evaluator) (state : σ) (now : Moment) : List (Job σ) :=
  match (executor.prepareAll definition context now {} evaluator level).1 with
  | .error _ => []
  | .ok prepared => executor.jobCalls prepared.jobs state

theorem state_runLevel (executor : Executor σ) (definition : Definition) (level : List Nat)
    (context : Context) (evaluator : Evaluator) (state : σ) (now : Moment) :
    (executor.runLevel definition level context evaluator state now).state =
      (executor.levelCalls definition level context evaluator state now).foldl Job.serve
        state := by
  unfold runLevel levelCalls
  rcases executor.prepareAll definition context now {} evaluator level with
    ⟨error | prepared, evaluator⟩
  · rfl
  · exact Pool.state_run _ _

theorem levelCalls_eq (executor : Executor σ) (definition : Definition) (context : Context)
    (evaluator : Evaluator) (state : σ) (now : Moment) {level : List Nat}
    (h : level.map definition.step? = steps.map some) :
    executor.levelCalls definition level context evaluator state now =
      executor.jobCalls (executor.placeAll steps context now).jobs state := by
  unfold levelCalls
  rw [executor.prepareAll_fst definition context now {} evaluator h]
  rfl

theorem exists_place_of_mem_jobCalls {state : σ} {job : Job σ}
    (member : job ∈ executor.jobCalls (executor.placeAll steps context now).jobs state) :
    ∃ step ∈ steps, executor.place step context now = .inr job := by
  have queued : Pool.Admits (· ∈ (executor.placeAll steps context now).jobs)
      { permits := max executor.config.maxParallel 1
        queue := (executor.placeAll steps context now).jobs
        state } :=
    ⟨fun _ present => present, fun _ present => by cases present⟩
  exact exists_place_of_mem_jobs (Pool.admits_of_mem_calls queued member)

theorem attempts_of_place_inl {step : Step} {result : StepResult}
    (h : executor.place step context now = .inl result) : result.attempts = 0 := by
  unfold place at h
  split at h
  · next skips =>
      injection h with same
      cases same ▸ Step.isSkip_of_preparation skips <;> rfl
  · split at h
    · injection h with same
      rw [← same]
      unfold StepResult.failure
      cases step.onError <;> rfl
    · cases h

theorem countP_jobCalls {state : σ} (ascending : (steps.map Step.number).Pairwise (· < ·))
    {result : StepResult} (member : result ∈ executor.levelResults steps context state now) :
    (executor.jobCalls (executor.placeAll steps context now).jobs state).countP
      (fun job => job.step.number == result.number) = result.attempts := by
  have distinct : (steps.map Step.number).Nodup := ascending.imp Nat.ne_of_lt
  rcases List.mem_append.mp ((inStepOrder_perm _).mem_iff.mp member) with settled | ran
  · obtain ⟨step, known, placed⟩ := exists_place_of_mem_settled settled
    rw [attempts_of_place_inl placed, List.countP_eq_zero]
    intro job called same
    obtain ⟨other, known', placed'⟩ := exists_place_of_mem_jobCalls called
    have number : other.number = step.number := by
      rw [← step_of_place_inr placed', ← number_of_place_inl placed, beq_iff_eq.mp same]
    obtain rfl := List.inj_on_of_nodup_map distinct known' known number
    rw [placed] at placed'
    cases placed'
  · obtain ⟨finished, done, rfl⟩ := List.mem_map.mp ran
    rw [Finished.number_result]
    have placed := executor.placeAll_perm context now StepResult.number
      (fun job => job.step.number) Step.number steps
      (fun _ _ _ h => number_of_place_inl h)
      (fun _ _ _ h => congrArg Step.number (step_of_place_inr h))
    have queued := (placed.symm.nodup distinct).of_append_right
    exact Pool.countP_calls _ (Nat.le_max_right _ _) rfl rfl queued done

end Executor

namespace Run

def callsAt (env : Environment σ τ) (level : List Nat) (run : Run σ τ) : List (Job σ) :=
  if run.seesCancel env then []
  else
    env.executor.levelCalls run.definition level run.context run.evaluator
      (env.meanwhile run.state) run.now

def stageCalls (env : Environment σ τ) : Stage × Run σ τ → List (Job σ)
  | (.point _, _) => []
  | (.level level, run) => run.callsAt env level

/-- The states of the engines once a trace has been gone through: at each level the outside has
its turn, and then the calls of the level are made. -/
def replay (env : Environment σ τ) : List (Stage × Run σ τ) → σ → σ
  | [], state => state
  | (.point _, _) :: rest, state => replay env rest state
  | (.level level, run) :: rest, state =>
      replay env rest ((run.callsAt env level).foldl Job.serve (env.meanwhile state))

theorem replay_append (env : Environment σ τ) (past later : List (Stage × Run σ τ)) (state : σ) :
    replay env (past ++ later) state = replay env later (replay env past state) := by
  induction past generalizing state with
  | nil => rfl
  | cons entry rest ih =>
      obtain ⟨_ | _, run⟩ := entry <;> exact ih _

private theorem state_perform (env : Environment σ τ) (stage : Stage) (run : Run σ τ) :
    (run.perform env stage).last.state = replay env [(stage, run)] run.state := by
  cases stage with
  | point phase =>
      rw [perform_point]
      split
      · exact judged_state env phase run
      · split <;> exact judged_state env phase run
  | level level =>
      have called := env.executor.state_runLevel run.definition level run.context run.evaluator
        (env.meanwhile run.state) run.now
      change (run.runLevel env level).last.state =
        (run.callsAt env level).foldl Job.serve (env.meanwhile run.state)
      unfold runLevel callsAt
      split
      · rfl
      · rw [← called]
        split
        · rfl
        · dsimp only
          split <;> rfl

private theorem state_follow (env : Environment σ τ) (stages : List Stage) (run : Run σ τ) :
    (follow env stages run).last.state = replay env (trace env stages run) run.state := by
  induction stages generalizing run with
  | nil => rfl
  | cons stage rest ih =>
      have performed := state_perform env stage run
      unfold follow trace
      rw [← List.singleton_append, replay_append, ← performed]
      cases run.perform env stage with
      | going later => exact ih later
      | ended last => rfl
      | failed last error => rfl

end Run

theorem Session.state_execute {session : Session} (sound : session.IsSound)
    (env : Environment σ τ) (request : RunRequest) (state : σ) (log : τ) :
    (session.execute env request state log).state =
      Run.replay env (session.trace env request state log) state := by
  rcases execute_cases sound env request state log with
    ⟨definition, start, opened⟩ | ⟨error, _, _, same, _, none_begun⟩
  · obtain ⟨_, after, _⟩ := opened.after
    rw [after, opened.trace, ← opened.begins.1, ← Run.state_follow]
    cases Run.follow env (Stage.agenda (Edges.ofSteps definition.steps).levels) start <;> rfl
  · rw [same, none_begun]
    rfl

end Tollgate
