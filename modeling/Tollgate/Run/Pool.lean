import Tollgate.Engine.Retry
import Tollgate.Run.StepResult

/-!
# Worker pools

The jobs of one level share a limited number of permits.  A job that holds one
calls its engine, waits for the reply, and then finishes or waits for its next
attempt; meanwhile other jobs may move.  A schedule chooses who moves next, and
the pool comes to an end under every schedule.
-/

namespace Tollgate

structure Job (σ : Type) where
  step : Step
  engine : Engine σ
  arguments : Json
  policy : RetryPolicy

/-- A job that holds a permit.  Times are milliseconds since the level began. -/
structure Worker (σ : Type) where
  job : Job σ
  startedAt : Nat
  retrying : Retrying := {}
  /-- What the call under way will come to, unless the next call is still to be made. -/
  pending : Option (Except EngineError Json) := none
  due : Nat

structure Finished where
  step : Step
  invocation : Invocation
  startedAt : Nat
  finishedAt : Nat

structure Pool (σ : Type) where
  permits : Nat
  queue : List (Job σ)
  workers : List (Worker σ) := []
  finished : List Finished := []
  clock : Nat := 0
  state : σ

namespace Pool

variable {σ : Type}

inductive Advance (σ : Type) where
  | working (worker : Worker σ) (state : σ)
  | finished (result : Finished)

end Pool

namespace Worker

variable {σ : Type}

def advance (worker : Worker σ) (state : σ) : Pool.Advance σ :=
  let { job, startedAt, retrying, pending, due } := worker
  match pending with
  | none =>
      let (reply, state) := job.engine.call job.step.function job.arguments state
      .working
        { job, startedAt, retrying
          pending := some (job.policy.observe reply)
          due := due + job.policy.elapsed reply }
        state
  | some outcome =>
      match job.policy.next job.step.fallback retrying outcome with
      | .over invocation => .finished ⟨job.step, invocation, startedAt, due⟩
      | .again later delay =>
          .working { job, startedAt, retrying := later, due := due + delay } state

def weight (worker : Worker σ) : Nat :=
  2 * (worker.job.policy.maxRetries - worker.retrying.retries) +
    (if worker.pending.isSome then 1 else 2)

theorem weight_pos (worker : Worker σ) : 0 < worker.weight := by
  unfold weight
  split <;> omega

theorem weight_advance {worker later : Worker σ} {state state' : σ}
    (h : worker.advance state = .working later state') : later.weight < worker.weight := by
  unfold advance at h
  rcases worker with ⟨job, startedAt, retrying, _ | outcome, due⟩
  · injection h with same
    subst same
    simp [weight]
  · dsimp only at h
    split at h
    · cases h
    · next found =>
        injection h with same
        subst same
        have := RetryPolicy.lt_of_next_again found
        simp only [weight, Option.isSome_none, Option.isSome_some, Bool.false_eq_true, if_true,
          if_false]
        omega

end Worker

def splitAt? {α : Type} (position : Nat) (members : List α) : Option (List α × α × List α) :=
  match members.drop position with
  | [] => none
  | a :: after => some (members.take position, a, after)

theorem eq_of_splitAt? {α : Type} {position : Nat} {members before after : List α} {a : α}
    (h : splitAt? position members = some (before, a, after)) :
    members = before ++ a :: after := by
  unfold splitAt? at h
  split at h
  · cases h
  · next found =>
      simp only [Option.some.injEq, Prod.mk.injEq] at h
      obtain ⟨rfl, rfl, rfl⟩ := h
      rw [← found, List.take_append_drop]

def totalOf {α : Type} (f : α → Nat) : List α → Nat
  | [] => 0
  | a :: rest => f a + totalOf f rest

theorem totalOf_append {α : Type} (f : α → Nat) (before after : List α) :
    totalOf f (before ++ after) = totalOf f before + totalOf f after := by
  induction before with
  | nil => simp [totalOf]
  | cons a rest ih => simp [totalOf, ih, Nat.add_assoc]

inductive Move where
  | enter (position : Nat)
  | advance (position : Nat)
  deriving DecidableEq, Repr

/-- Chooses the next move; a choice that is not possible falls back on a default. -/
abbrev Schedule (σ : Type) := Pool σ → Move

namespace Pool

variable {σ : Type}

def enter? (pool : Pool σ) (position : Nat) : Option (Pool σ) :=
  if pool.workers.length < pool.permits then
    (splitAt? position pool.queue).map fun (before, job, after) =>
      { pool with
        queue := before ++ after
        workers := pool.workers ++ [{ job, startedAt := pool.clock, due := pool.clock }] }
  else none

def advance? (pool : Pool σ) (position : Nat) : Option (Pool σ) :=
  (splitAt? position pool.workers).map fun (before, worker, after) =>
    let clock := max pool.clock worker.due
    match worker.advance pool.state with
    | .working worker state =>
        { pool with workers := before ++ worker :: after, clock, state }
    | .finished result =>
        { pool with workers := before ++ after, finished := pool.finished ++ [result], clock }

def move? (pool : Pool σ) : Move → Option (Pool σ)
  | .enter position => pool.enter? position
  | .advance position => pool.advance? position

def earliest : List (Worker σ) → Nat
  | [] => 0
  | worker :: rest =>
      let best := earliest rest
      match rest[best]? with
      | some other => if other.due < worker.due then best + 1 else 0
      | none => 0

/-- Permits go to the queue in order, and the earliest worker moves first. -/
def inOrder : Schedule σ := fun pool =>
  if pool.workers.length < pool.permits && !pool.queue.isEmpty then .enter 0
  else .advance (earliest pool.workers)

def step? (schedule : Schedule σ) (pool : Pool σ) : Option (Pool σ) :=
  (pool.move? (schedule pool)).or ((pool.advance? 0).or (pool.enter? 0))

def weight (pool : Pool σ) : Nat :=
  totalOf (fun job => 2 * job.policy.maxRetries + 3) pool.queue +
    totalOf Worker.weight pool.workers

private theorem weight_enter? {pool later : Pool σ} {position : Nat}
    (h : pool.enter? position = some later) : later.weight < pool.weight := by
  unfold enter? at h
  split at h
  · obtain ⟨⟨before, job, after⟩, found, rfl⟩ := Option.map_eq_some_iff.mp h
    simp only [weight, eq_of_splitAt? found, totalOf_append, totalOf, Worker.weight,
      Option.isSome_none, Bool.false_eq_true, if_false]
    omega
  · cases h

private theorem weight_advance? {pool later : Pool σ} {position : Nat}
    (h : pool.advance? position = some later) : later.weight < pool.weight := by
  unfold advance? at h
  obtain ⟨⟨before, worker, after⟩, found, same⟩ := Option.map_eq_some_iff.mp h
  simp only [weight, eq_of_splitAt? found, totalOf_append, totalOf]
  dsimp only at same
  split at same
  · next moved =>
      have := Worker.weight_advance moved
      subst same
      simp only [totalOf_append, totalOf]
      omega
  · have := worker.weight_pos
    subst same
    simp only [totalOf_append]
    omega

theorem weight_step? {schedule : Schedule σ} {pool later : Pool σ}
    (h : step? schedule pool = some later) : later.weight < pool.weight := by
  unfold step? at h
  rcases Option.or_eq_some_iff.mp h with h | ⟨_, h⟩
  · cases chosen : schedule pool <;> rw [chosen] at h
    · exact weight_enter? h
    · exact weight_advance? h
  · rcases Option.or_eq_some_iff.mp h with h | ⟨_, h⟩
    · exact weight_advance? h
    · exact weight_enter? h

def run (schedule : Schedule σ) (pool : Pool σ) : Pool σ :=
  match h : step? schedule pool with
  | some later =>
      have := weight_step? h
      run schedule later
  | none => pool
  termination_by pool.weight

end Pool

end Tollgate
