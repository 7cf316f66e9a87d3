import Tollgate.Decimal.Reading
import Tollgate.Engine.Basic

/-!
# Retries

An attempt that takes longer than the timeout is abandoned.  Transient failures
are tried again after a delay that grows by a factor each time, up to a limit
on the number of retries; then a fallback takes the place of a result.
-/

namespace Tollgate

structure RetryPolicy where
  maxRetries : Nat := 0
  baseDelayMs : Nat := 500
  multiplier : Float := 2.0
  maxDelayMs : Nat := 30000
  timeoutMs : Nat := 60000

namespace RetryPolicy

/-- `base ^ n` times `product`, by repeated squaring. -/
def powerFrom (product base : Float) (n : Nat) : Float :=
  let product := if n % 2 = 1 then product * base else product
  if h : n / 2 = 0 then product
  else powerFrom product (base * base) (n / 2)
  termination_by n
  decreasing_by omega

def power (base : Float) (n : Nat) : Float := powerFrom 1.0 base n

/-- The factor by which delays grow is at least one. -/
def growth (policy : RetryPolicy) : Float :=
  if 1.0 < policy.multiplier then policy.multiplier else 1.0

/-- The smaller of two numbers, or the bound if the first is not a number. -/
def capped (x bound : Float) : Float := if x < bound then x else bound

/-- The delay in milliseconds before retry number `retry`, counted from zero. -/
def backoff (policy : RetryPolicy) (retry : Nat) : Nat :=
  let factor := power policy.growth (min retry 0x7FFFFFFF)
  let delay := Float.ofNat policy.baseDelayMs * factor
  (capped delay (Float.ofNat policy.maxDelayMs)).toUInt64.toNat

/-- What a reply counts for, once the timeout is applied. -/
def observe (policy : RetryPolicy) (reply : Reply) : Except EngineError Json :=
  if policy.timeoutMs < reply.millis then .error (.timedOut policy.timeoutMs)
  else reply.outcome

def elapsed (policy : RetryPolicy) (reply : Reply) : Nat := min reply.millis policy.timeoutMs

end RetryPolicy

structure Invocation where
  result : Except EngineError Json
  retries : Nat
  backoffs : List Nat
  usedFallback : Bool := false

namespace Invocation

def attempts (invocation : Invocation) : Nat := invocation.retries + 1

def isSuccess (invocation : Invocation) : Bool := invocation.result.isOk

end Invocation

structure Retrying where
  retries : Nat := 0
  backoffs : List Nat := []

inductive AfterAttempt where
  | again (retrying : Retrying) (delay : Nat)
  | over (invocation : Invocation)

namespace RetryPolicy

def next (policy : RetryPolicy) (fallback : Option Json) (retrying : Retrying)
    (outcome : Except EngineError Json) : AfterAttempt :=
  let finish (result : Except EngineError Json) (usedFallback : Bool) : AfterAttempt :=
    .over ⟨result, retrying.retries, retrying.backoffs, usedFallback⟩
  match outcome with
  | .ok value => finish (.ok value) false
  | .error error =>
      if !error.isTransient then finish (.error error) false
      else if retrying.retries < policy.maxRetries then
        let delay := policy.backoff retrying.retries
        .again ⟨retrying.retries + 1, retrying.backoffs ++ [delay]⟩ delay
      else
        match fallback with
        | some value => finish (.ok value) true
        | none => finish (.error error) false

theorem lt_of_next_again {policy : RetryPolicy} {fallback : Option Json}
    {retrying later : Retrying} {outcome : Except EngineError Json} {delay : Nat}
    (h : policy.next fallback retrying outcome = .again later delay) :
    retrying.retries < policy.maxRetries ∧ later.retries = retrying.retries + 1 := by
  unfold next at h
  split at h
  · cases h
  · split at h
    · cases h
    · split at h
      · next room =>
          injection h with same
          exact ⟨room, by rw [← same]⟩
      · split at h <;> cases h

variable {σ : Type}

def invokeFrom (policy : RetryPolicy) (fallback : Option Json) (call : σ → Reply × σ)
    (retrying : Retrying) (state : σ) : Invocation × σ :=
  let (reply, state) := call state
  match h : policy.next fallback retrying (policy.observe reply) with
  | .over invocation => (invocation, state)
  | .again later _ =>
      have := lt_of_next_again h
      invokeFrom policy fallback call later state
  termination_by policy.maxRetries - retrying.retries

def invoke (policy : RetryPolicy) (fallback : Option Json) (call : σ → Reply × σ)
    (state : σ) : Invocation × σ :=
  invokeFrom policy fallback call {} state

end RetryPolicy

end Tollgate
