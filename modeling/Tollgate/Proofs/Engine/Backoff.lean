import Tollgate.Engine.Retry
import Tollgate.Proofs.Number.Product

/-!
# Backoff delays

A delay is the base delay times a power of the multiplier, cut off at the
longest delay allowed.  The power is made of doubles by repeated squaring, which
keeps it exact as long as it can be less than the longest delay.  An infinite
power of a base delay of zero is not a number, and then the longest delay stands.
-/

namespace Tollgate

namespace RetryPolicy

open Number

private theorem powerFrom_induction {P : ℕ → Float → Prop}
    (mul : ∀ {i j : ℕ} {x y : Float}, P i x → P j y → P (i + j) (x * y)) {product base : Float}
    {i j : ℕ} (n : ℕ) (hp : P i product) (hb : P j base) :
    P (i + j * n) (powerFrom product base n) := by
  induction n using Nat.strong_induction_on generalizing product base i j with
  | _ n ih =>
      have odd : P (i + j * (n % 2)) (if n % 2 = 1 then product * base else product) := by
        split
        · next one => rw [one, mul_one]; exact mul hp hb
        · next even => rw [show n % 2 = 0 by omega, mul_zero, add_zero]; exact hp
      -- Squaring the base doubles its exponent while the number of factors left is halved.
      have halves : j * n = j * (n % 2) + (j + j) * (n / 2) := by
        rw [← mul_two, mul_assoc, ← mul_add, Nat.mod_add_div]
      rw [powerFrom]
      split
      · next none_left =>
          rw [halves, none_left, mul_zero, add_zero]
          exact odd
      · next some_left =>
          rw [halves, ← add_assoc]
          exact ih (n / 2) (by omega) odd (mul hb hb)

theorem power_induction {P : ℕ → Float → Prop}
    (mul : ∀ {i j : ℕ} {x y : Float}, P i x → P j y → P (i + j) (x * y)) {base : Float}
    (one : P 0 1.0) (hb : P 1 base) (n : ℕ) : P n (power base n) := by
  have := powerFrom_induction mul n one hb
  rwa [zero_add, one_mul] at this

theorem value_one : Float.isFinite 1.0 = true ∧ value 1.0 = (1 : ℕ) :=
  value_of_isWhole (by decide +kernel)

section Power

variable {base : Float} {m : ℕ}

theorem carries_power (pos : 0 < m) (hb : Carries m base) (n : ℕ) :
    Carries (m ^ n) (power base n) := by
  refine power_induction (P := fun i x => Carries (m ^ i) x) ?_ ?_ ?_ n
  · intro i j x y hx hy
    rw [pow_add]
    exact hx.mul (by positivity) (by positivity) hy
  · exact .of_value value_one.1 value_one.2
  · rwa [pow_one]

theorem isInfinite_power {n : ℕ} (finite : base.isFinite = true) (two_le : 2 ≤ value base)
    (large : 1024 ≤ n) : IsInfinite (power base n) := by
  have reaches : Reaches (2 ^ n) (power base n) := by
    refine power_induction (P := fun i x => Reaches (2 ^ i) x) ?_ ?_ ?_ n
    · intro i j x y hx hy
      exact hx.mul hy (by positivity) (by positivity) (pow_add 2 i j).le fun small =>
        exists_value_eq_two_pow (two_pow_lt_overflow_iff.mp small)
    · exact .inr ⟨value_one.1, by rw [value_one.2, pow_zero, Nat.cast_one]⟩
    · exact .inr ⟨finite, by rwa [pow_one]⟩
  refine reaches.resolve_right fun ⟨finite, reach⟩ => ?_
  have := two_pow_lt_overflow_iff.mp (reach.trans_lt (value_lt_overflow finite))
  omega

theorem isFinite_power {n k : ℕ} (finite : base.isFinite = true) (one_le : 1 ≤ value base)
    (le : value base ≤ 2 ^ k) (small : k * n ≤ 1023) : (power base n).isFinite = true := by
  have within : k * n ≤ 1023 → IsWithin (2 ^ (k * n)) (power base n) := by
    refine power_induction (P := fun i x => k * i ≤ 1023 → IsWithin (2 ^ (k * i)) x) ?_ ?_ ?_ n
    · intro i j x y hx hy fits
      rw [mul_add] at fits ⊢
      rw [pow_add]
      refine (hx (by omega)).mul (hy (by omega)) ?_ ?_
      · rw [← pow_add]
        exact two_pow_lt_overflow_iff.mpr fits
      · rw [← pow_add]
        exact exists_value_eq_two_pow fits
    · intro _
      rw [mul_zero, pow_zero]
      exact ⟨value_one.1, by rw [value_one.2, Nat.cast_one], by rw [value_one.2, Nat.cast_one]⟩
    · intro _
      rw [mul_one]
      exact ⟨finite, one_le, le⟩
  exact (within small).isFinite

end Power

/-- The multiplier is a whole number, and doubles count every delay exactly. -/
structure Multiplies (policy : RetryPolicy) (m : ℕ) : Prop where
  isFinite : policy.multiplier.isFinite = true
  value_eq : value policy.multiplier = m
  pos : 0 < m
  base_le : policy.baseDelayMs ≤ policy.maxDelayMs
  max_le : policy.maxDelayMs ≤ 2 ^ 53

def Overflows (policy : RetryPolicy) (retry : ℕ) : Prop :=
  (power policy.growth (min retry 0x7FFFFFFF)).isFinite = false

theorem toNat_capped {delay bound : ℕ} {x : Float} (h : Carries delay x) (le : bound ≤ 2 ^ 53) :
    (capped x (Float.ofNat bound)).toUInt64.toNat = min delay bound := by
  obtain ⟨finite_bound, value_bound⟩ := value_ofNat le
  have fits : bound < 2 ^ 64 := by omega
  unfold capped
  rcases lt_or_ge delay bound with below | above
  · obtain ⟨finite, value_eq⟩ := h.exact (below.le.trans le)
    have lt : x < Float.ofNat bound := by
      rw [lt_iff_value finite finite_bound, value_eq, value_bound]
      exact_mod_cast below
    rw [if_pos lt, min_eq_left below.le]
    exact toNat_toUInt64 value_eq finite (below.trans fits)
  · have not_lt : ¬x < Float.ofNat bound := by
      rcases h.reaches with infinite | ⟨finite, reach⟩
      · exact infinite.not_lt finite_bound
      · rw [lt_iff_value finite finite_bound, value_bound, not_lt]
        refine le_trans ?_ reach
        exact_mod_cast le_min above le
    rw [if_neg not_lt, min_eq_right above]
    exact toNat_toUInt64 value_bound finite_bound fits

section Delays

variable {policy : RetryPolicy} {m : ℕ}

theorem Multiplies.value_growth (h : policy.Multiplies m) :
    policy.growth.isFinite = true ∧ value policy.growth = m := by
  unfold growth
  split
  · exact ⟨h.isFinite, h.value_eq⟩
  · next le =>
      rw [lt_iff_value value_one.1 h.isFinite, value_one.2, h.value_eq, Nat.cast_lt] at le
      have pos := h.pos
      obtain rfl : m = 1 := by omega
      exact value_one

theorem Multiplies.carries_factor (h : policy.Multiplies m) (retry : ℕ) :
    Carries (m ^ min retry 0x7FFFFFFF) (power policy.growth (min retry 0x7FFFFFFF)) :=
  carries_power h.pos (.of_value h.value_growth.1 h.value_growth.2) _

private theorem min_mul_pow_min {base bound : ℕ} (pos : 0 < m) (le : bound ≤ 2 ^ 53) {cut : ℕ}
    (cut_ge : 53 ≤ cut) (retry : ℕ) :
    min (base * m ^ min retry cut) bound = min (base * m ^ retry) bound := by
  rcases le_or_gt retry cut with fits | cut_off
  · rw [min_eq_left fits]
  rw [min_eq_right cut_off.le]
  rcases Nat.eq_zero_or_pos base with rfl | base_pos
  · rw [zero_mul, zero_mul]
  rcases Nat.lt_or_ge m 2 with one | two_le
  · obtain rfl : m = 1 := by omega
    rw [one_pow, one_pow]
  have beyond {n : ℕ} (ge : 53 ≤ n) : bound ≤ base * m ^ n := by
    calc bound
      _ ≤ 2 ^ 53 := le
      _ ≤ 2 ^ n := Nat.pow_le_pow_right (by decide) ge
      _ ≤ m ^ n := Nat.pow_le_pow_left two_le n
      _ ≤ base * m ^ n := Nat.le_mul_of_pos_left _ base_pos
  rw [min_eq_right (beyond cut_ge), min_eq_right (beyond (cut_ge.trans cut_off.le))]

theorem Multiplies.backoff_eq_min (h : policy.Multiplies m) {retry : ℕ}
    (number : policy.baseDelayMs ≠ 0 ∨ ¬policy.Overflows retry) :
    policy.backoff retry = min (policy.baseDelayMs * m ^ retry) policy.maxDelayMs := by
  have factor := h.carries_factor retry
  obtain ⟨finite_base, value_base⟩ := value_ofNat (h.base_le.trans h.max_le)
  have delay : Carries (policy.baseDelayMs * m ^ min retry 0x7FFFFFFF)
      (Float.ofNat policy.baseDelayMs * power policy.growth (min retry 0x7FFFFFFF)) := by
    rcases Nat.eq_zero_or_pos policy.baseDelayMs with zero | base_pos
    · have finite := Bool.eq_true_of_not_eq_false (number.resolve_left (not_not_intro zero))
      rw [zero, zero_mul]
      exact carries_zero_mul finite
    · exact Carries.mul base_pos (Nat.pow_pos h.pos) (.of_value finite_base value_base) factor
  unfold backoff
  rw [toNat_capped delay h.max_le, min_mul_pow_min h.pos h.max_le (by decide)]

theorem Multiplies.backoff_of_overflows (h : policy.Multiplies m) {retry : ℕ}
    (zero : policy.baseDelayMs = 0) (overflows : policy.Overflows retry) :
    policy.backoff retry = policy.maxDelayMs := by
  have factor := h.carries_factor retry
  have infinite : IsInfinite (power policy.growth (min retry 0x7FFFFFFF)) := by
    refine factor.reaches.resolve_right fun ⟨finite, _⟩ => ?_
    rw [Overflows, finite] at overflows
    cases overflows
  obtain ⟨finite_bound, value_bound⟩ := value_ofNat h.max_le
  have max_le := h.max_le
  unfold backoff capped
  dsimp only
  rw [zero, if_neg (not_zero_mul_lt infinite _)]
  exact toNat_toUInt64 value_bound finite_bound (by omega)

theorem Multiplies.overflows_of_large (h : policy.Multiplies m) {retry : ℕ} (two_le : 2 ≤ m)
    (large : 1024 ≤ retry) : policy.Overflows retry := by
  obtain ⟨finite, value_eq⟩ := h.value_growth
  have infinite := isInfinite_power (n := min retry 0x7FFFFFFF) finite
    (value_eq ▸ Nat.ofNat_le_cast.mpr two_le) (by omega)
  exact infinite.not_isFinite

private theorem Multiplies.not_overflows_of_small (h : policy.Multiplies m) {retry k : ℕ}
    (le : m ≤ 2 ^ k) (small : k * retry ≤ 1023) : ¬policy.Overflows retry := by
  obtain ⟨finite, value_eq⟩ := h.value_growth
  have cut : k * min retry 0x7FFFFFFF ≤ 1023 :=
    (Nat.mul_le_mul_left k (Nat.min_le_left _ _)).trans small
  have finite := isFinite_power finite (value_eq ▸ Nat.one_le_cast.mpr h.pos)
    (value_eq ▸ by exact_mod_cast le) cut
  rw [Overflows, finite]
  exact Bool.noConfusion

/-- A delay is the base delay times the power, cut off at the longest one.  A base delay of zero
stays zero until the power overflows; from there on the delay is the longest one instead. -/
theorem backoff_is_capped_power (h : policy.Multiplies m) (retry : ℕ) :
    (policy.baseDelayMs ≠ 0 ∨ ¬policy.Overflows retry →
      policy.backoff retry = min (policy.baseDelayMs * m ^ retry) policy.maxDelayMs) ∧
    (policy.baseDelayMs = 0 → policy.Overflows retry →
      policy.backoff retry = policy.maxDelayMs) ∧
    policy.backoff retry ≤ policy.maxDelayMs ∧
    (policy.baseDelayMs ≠ 0 → ∀ later, retry ≤ later →
      policy.backoff retry ≤ policy.backoff later) ∧
    (2 ≤ m → 1024 ≤ retry → policy.Overflows retry) ∧
    ∀ k, m ≤ 2 ^ k → k * retry ≤ 1023 → ¬policy.Overflows retry := by
  refine ⟨h.backoff_eq_min, h.backoff_of_overflows, ?_, ?_, h.overflows_of_large,
    fun k => h.not_overflows_of_small⟩
  · by_cases number : policy.baseDelayMs ≠ 0 ∨ ¬policy.Overflows retry
    · rw [h.backoff_eq_min number]
      exact min_le_right _ _
    · simp only [not_or, not_not] at number
      exact (h.backoff_of_overflows number.1 number.2).le
  · intro some_delay later le
    rw [h.backoff_eq_min (.inl some_delay), h.backoff_eq_min (.inl some_delay)]
    have powers : m ^ retry ≤ m ^ later := Nat.pow_le_pow_right h.pos le
    gcongr

end Delays

def doubling (base : ℕ) : RetryPolicy := { baseDelayMs := base }

theorem multiplies_doubling (base : ℕ) (le : base ≤ 30000) : (doubling base).Multiplies 2 := by
  obtain ⟨finite, value_eq⟩ := value_of_isWhole (x := 2.0) (n := 2) (by decide +kernel)
  exact ⟨finite, value_eq, by decide, le, by norm_num [doubling]⟩

theorem backoff_is_capped_power_doubling :
    (doubling 500).Multiplies 2 ∧ (doubling 500).backoff 5 = 16000 ∧
      (doubling 500).backoff 10 = 30000 ∧ ¬(doubling 0).Overflows 1023 := by
  have h := multiplies_doubling 500 (by decide)
  obtain ⟨fifth, -⟩ := backoff_is_capped_power h 5
  obtain ⟨tenth, -⟩ := backoff_is_capped_power h 10
  obtain ⟨-, -, -, -, -, small⟩ :=
    backoff_is_capped_power (multiplies_doubling 0 (by decide)) 1023
  refine ⟨h, ?_, ?_, small 1 (by decide) (by decide)⟩
  · rw [fifth (.inl (by decide))]
    norm_num [doubling]
  · rw [tenth (.inl (by decide))]
    norm_num [doubling]

theorem backoff_doubling_zero :
    (doubling 0).Multiplies 2 ∧ (doubling 0).backoff 1024 = 30000 ∧
      min ((doubling 0).baseDelayMs * 2 ^ 1024) (doubling 0).maxDelayMs = 0 := by
  have h := multiplies_doubling 0 (by decide)
  exact ⟨h, h.backoff_of_overflows rfl (h.overflows_of_large (by decide) le_rfl),
    by rw [show (doubling 0).baseDelayMs = 0 from rfl, zero_mul]; rfl⟩

end RetryPolicy

end Tollgate
