import Mathlib.Data.Nat.Find
import Tollgate.Engine.Retry

/-!
# Retried calls

The attempts of a call come to a sequence of outcomes, each of them made in the
state that the attempt before it left behind.  How many attempts are made can be
read off the sequence: they go on while they fail transiently and retries are
left.  What the call comes to depends on the last of them only.
-/

namespace Tollgate

def isTransientFailure : Except EngineError Json → Bool
  | .ok _ => false
  | .error error => error.isTransient

namespace RetryPolicy

section Next

variable {policy : RetryPolicy} {fallback : Option Json} {retrying : Retrying}
  {outcome : Except EngineError Json}

theorem next_of_settled (settled : isTransientFailure outcome = false) :
    policy.next fallback retrying outcome =
      .over ⟨outcome, retrying.retries, retrying.backoffs, false⟩ := by
  cases outcome with
  | ok value => rfl
  | error error =>
      have lasting : (!error.isTransient) = true := by
        rw [show error.isTransient = false from settled, Bool.not_false]
      simp only [next, if_pos lasting]

theorem next_of_room (failed : isTransientFailure outcome = true)
    (room : retrying.retries < policy.maxRetries) :
    policy.next fallback retrying outcome =
      .again ⟨retrying.retries + 1, retrying.backoffs ++ [policy.backoff retrying.retries]⟩
        (policy.backoff retrying.retries) := by
  cases outcome with
  | ok value => cases failed
  | error error =>
      have mendable : error.isTransient = true := failed
      simp [next, mendable, room]

def exhausted (fallback : Option Json) (retrying : Retrying)
    (outcome : Except EngineError Json) : Invocation :=
  match fallback with
  | some value => ⟨.ok value, retrying.retries, retrying.backoffs, true⟩
  | none => ⟨outcome, retrying.retries, retrying.backoffs, false⟩

theorem next_of_exhausted (failed : isTransientFailure outcome = true)
    (used : policy.maxRetries ≤ retrying.retries) :
    policy.next fallback retrying outcome = .over (exhausted fallback retrying outcome) := by
  cases outcome with
  | ok value => cases failed
  | error error =>
      have mendable : error.isTransient = true := failed
      cases fallback <;> simp [next, mendable, Nat.not_lt.mpr used, exhausted]

theorem retries_of_next_over {invocation : Invocation}
    (h : policy.next fallback retrying outcome = .over invocation) :
    invocation.retries = retrying.retries := by
  unfold next at h
  split at h
  · injection h with same
    rw [← same]
  · split at h
    · injection h with same
      rw [← same]
    · split at h
      · cases h
      · split at h <;> injection h with same <;> rw [← same]

end Next

section Turns

variable {σ : Type} {policy : RetryPolicy} {fallback : Option Json} {call : σ → Reply × σ}

theorem invokeFrom_over {retrying : Retrying} {state : σ} {invocation : Invocation}
    (h : policy.next fallback retrying (policy.observe (call state).1) = .over invocation) :
    policy.invokeFrom fallback call retrying state = (invocation, (call state).2) := by
  rw [invokeFrom]
  rcases called : call state with ⟨reply, after⟩
  rw [called] at h
  dsimp only at h ⊢
  split
  · next found =>
      rw [h] at found
      injection found with same
      rw [same]
  · next found =>
      rw [h] at found
      cases found

theorem invokeFrom_again {retrying later : Retrying} {state : σ} {delay : Nat}
    (h : policy.next fallback retrying (policy.observe (call state).1) = .again later delay) :
    policy.invokeFrom fallback call retrying state =
      policy.invokeFrom fallback call later (call state).2 := by
  rw [invokeFrom]
  rcases called : call state with ⟨reply, after⟩
  rw [called] at h
  dsimp only at h ⊢
  split
  · next found =>
      rw [h] at found
      cases found
  · next found =>
      rw [h] at found
      injection found with same
      rw [same]

def stateAfter (call : σ → Reply × σ) (state : σ) : Nat → σ
  | 0 => state
  | calls + 1 => (call (stateAfter call state calls)).2

/-- What each of an endless sequence of attempts comes to, the first being number zero. -/
def outcomes (policy : RetryPolicy) (call : σ → Reply × σ) (state : σ) (attempt : Nat) :
    Except EngineError Json :=
  policy.observe (call (stateAfter call state attempt)).1

def afterRetries (policy : RetryPolicy) (retries : Nat) : Retrying :=
  ⟨retries, (List.range retries).map policy.backoff⟩

section AfterRetries

variable {retries delay : Nat} {later : Retrying} {outcome : Except EngineError Json}

theorem next_afterRetries (failed : isTransientFailure outcome = true)
    (room : retries < policy.maxRetries) :
    policy.next fallback (policy.afterRetries retries) outcome =
      .again (policy.afterRetries (retries + 1)) (policy.backoff retries) := by
  have left : (policy.afterRetries retries).retries < policy.maxRetries := room
  rw [next_of_room failed left]
  simp only [afterRetries, List.range_succ, List.map_append, List.map_cons, List.map_nil]

theorem again_afterRetries
    (h : policy.next fallback (policy.afterRetries retries) outcome = .again later delay) :
    isTransientFailure outcome = true ∧ retries < policy.maxRetries ∧
      later = policy.afterRetries (retries + 1) := by
  have room : retries < policy.maxRetries := (lt_of_next_again h).1
  cases failed : isTransientFailure outcome with
  | false =>
      rw [next_of_settled failed] at h
      cases h
  | true =>
      rw [next_afterRetries failed room] at h
      injection h with same
      exact ⟨rfl, room, same.symm⟩

end AfterRetries

theorem invoke_eq_invokeFrom {state : σ} {attempt : Nat} (room : attempt ≤ policy.maxRetries)
    (failed : ∀ i < attempt, isTransientFailure (policy.outcomes call state i) = true) :
    policy.invoke fallback call state =
      policy.invokeFrom fallback call (policy.afterRetries attempt)
        (stateAfter call state attempt) := by
  induction attempt with
  | zero => rfl
  | succ attempt ih =>
      rw [ih (by omega) fun i lt => failed i (by omega)]
      rw [invokeFrom_again (next_afterRetries (failed attempt (by omega)) room), stateAfter]

/-- Attempt number `last` is the first that does not fail transiently, or the last allowed. -/
structure IsLast (policy : RetryPolicy) (outcomes : Nat → Except EngineError Json)
    (last : Nat) : Prop where
  allowed : last ≤ policy.maxRetries
  failed : ∀ attempt < last, isTransientFailure (outcomes attempt) = true
  settled : last < policy.maxRetries → isTransientFailure (outcomes last) = false

theorem exists_isLast (policy : RetryPolicy) (outcomes : Nat → Except EngineError Json) :
    ∃ last, policy.IsLast outcomes last := by
  have ends : ∃ attempt, attempt = policy.maxRetries ∨
      isTransientFailure (outcomes attempt) = false := ⟨policy.maxRetries, .inl rfl⟩
  refine ⟨Nat.find ends, Nat.find_min' ends (.inl rfl), ?_, ?_⟩
  · intro attempt lt
    exact eq_true_of_ne_false fun settled => Nat.find_min ends lt (.inr settled)
  · intro room
    exact (Nat.find_spec ends).resolve_left (Nat.ne_of_lt room)

theorem IsLast.unique {outcomes : Nat → Except EngineError Json} {last other : Nat}
    (h : policy.IsLast outcomes last) (h' : policy.IsLast outcomes other) : last = other := by
  -- The earlier of two would be settled, yet the later one went past it as failed.
  have not_lt {a b : Nat} (ha : policy.IsLast outcomes a) (hb : policy.IsLast outcomes b) :
      ¬ a < b := by
    intro lt
    have settled := ha.settled (Nat.lt_of_lt_of_le lt hb.allowed)
    rw [hb.failed a lt] at settled
    cases settled
  exact Nat.le_antisymm (Nat.not_lt.mp (not_lt h' h)) (Nat.not_lt.mp (not_lt h h'))

/-- The invocation tells of a call that ended with attempt number `last`. -/
structure Reports (policy : RetryPolicy) (fallback : Option Json)
    (outcomes : Nat → Except EngineError Json) (last : Nat) (invocation : Invocation) :
    Prop where
  attempts : invocation.attempts = last + 1
  retries : invocation.retries = last
  backoffs : invocation.backoffs = (List.range last).map policy.backoff
  settled : isTransientFailure (outcomes last) = false →
    invocation.result = outcomes last ∧ invocation.usedFallback = false
  replaced : ∀ value, isTransientFailure (outcomes last) = true → fallback = some value →
    invocation.result = .ok value ∧ invocation.usedFallback = true
  failed : isTransientFailure (outcomes last) = true → fallback = none →
    invocation.result = outcomes last ∧ invocation.usedFallback = false

theorem reports_of_next_over {outcomes : Nat → Except EngineError Json} {last : Nat}
    {invocation : Invocation} (allowed : last ≤ policy.maxRetries)
    (failed : ∀ attempt < last, isTransientFailure (outcomes attempt) = true)
    (h : policy.next fallback (policy.afterRetries last) (outcomes last) = .over invocation) :
    policy.IsLast outcomes last ∧ policy.Reports fallback outcomes last invocation := by
  cases outcome : isTransientFailure (outcomes last) with
  | false =>
      rw [next_of_settled outcome] at h
      injection h with same
      subst same
      refine ⟨⟨allowed, failed, fun _ => outcome⟩, rfl, rfl, rfl, fun _ => ⟨rfl, rfl⟩, ?_, ?_⟩ <;>
        simp [outcome]
  | true =>
      have used : policy.maxRetries ≤ last := by
        by_contra room
        rw [next_afterRetries outcome (Nat.not_le.mp room)] at h
        cases h
      rw [next_of_exhausted outcome used] at h
      injection h with same
      subst same
      refine ⟨⟨allowed, failed, fun room => absurd room (Nat.not_lt.mpr used)⟩, ?_⟩
      cases fallback with
      | none => refine ⟨rfl, rfl, rfl, ?_, ?_, fun _ _ => ⟨rfl, rfl⟩⟩ <;> simp [outcome]
      | some value => refine ⟨rfl, rfl, rfl, ?_, ?_, ?_⟩ <;> simp [outcome, exhausted]

private theorem reports_invoke (fallback : Option Json) {state : σ} {last : Nat}
    (h : policy.IsLast (policy.outcomes call state) last) :
    policy.Reports fallback (policy.outcomes call state) last
        (policy.invoke fallback call state).1 ∧
      (policy.invoke fallback call state).2 = stateAfter call state (last + 1) := by
  rw [invoke_eq_invokeFrom h.allowed h.failed]
  match next : policy.next fallback (policy.afterRetries last)
      (policy.outcomes call state last) with
  | .over invocation =>
      rw [invokeFrom_over next]
      exact ⟨(reports_of_next_over h.allowed h.failed next).2, rfl⟩
  | .again later delay =>
      obtain ⟨failed, room, -⟩ := again_afterRetries next
      rw [h.settled room] at failed
      cases failed

end Turns

/-- A call is attempted until an attempt does not fail transiently or no retry is left, and not
once more.  The number of attempts fits a word. -/
theorem invoke_is_bounded {σ : Type} (policy : RetryPolicy) (fallback : Option Json)
    (call : σ → Reply × σ) (state : σ) (fits : policy.maxRetries + 1 < Bound.word) :
    ∃ last, policy.IsLast (policy.outcomes call state) last ∧
      policy.Reports fallback (policy.outcomes call state) last
        (policy.invoke fallback call state).1 ∧
      (policy.invoke fallback call state).2 = stateAfter call state (last + 1) ∧
      (policy.invoke fallback call state).1.attempts < Bound.word := by
  obtain ⟨last, isLast⟩ := policy.exists_isLast (policy.outcomes call state)
  obtain ⟨reports, after⟩ := reports_invoke fallback isLast
  have allowed := isLast.allowed
  have attempts := reports.attempts
  exact ⟨last, isLast, reports, after, by omega⟩

def faltering : Nat → Reply × Nat
  | 0 => (⟨.error (.transient "busy"), 0⟩, 1)
  | 1 => (⟨.ok (.bool false), 300⟩, 2)
  | calls + 2 => (⟨.ok (.bool true), 0⟩, calls + 3)

def patient : RetryPolicy := { maxRetries := 3, timeoutMs := 100 }

theorem invoke_is_bounded_faltering :
    patient.maxRetries + 1 < Bound.word ∧
      (patient.invoke (some .null) faltering 0).1.attempts = 3 ∧
      (patient.invoke (some .null) faltering 0).1.result = .ok (.bool true) ∧
      (patient.invoke (some .null) faltering 0).1.usedFallback = false ∧
      (patient.invoke (some .null) faltering 0).1.backoffs =
        [patient.backoff 0, patient.backoff 1] ∧
      (patient.invoke (some .null) faltering 0).2 = 3 := by
  have fits : patient.maxRetries + 1 < Bound.word := by decide
  have third : patient.IsLast (patient.outcomes faltering 0) 2 :=
    ⟨by decide, by decide, fun _ => rfl⟩
  obtain ⟨last, isLast, reports, after, _⟩ :=
    invoke_is_bounded patient (some .null) faltering 0 fits
  obtain rfl := isLast.unique third
  obtain ⟨result, fallback⟩ := reports.settled rfl
  exact ⟨fits, reports.attempts, result, fallback, reports.backoffs, after⟩

end RetryPolicy

end Tollgate
