import Tollgate.Proofs.Number.Rounding

/-!
# The nearest double

A finite double stands for a rational number.  Rounding takes a positive number
to the double that is closest to it, and of two that are equally close to the
one with an even mantissa.  Numbers that lie half a unit or more beyond the
largest double overflow.
-/

namespace Tollgate.Number

open Float.Model Float.Model.UnpackedFloat

def valueOf : UnpackedFloat → ℚ
  | .finite .positive m e _ => m * 2 ^ e
  | .finite .negative m e _ => -(m * 2 ^ e)
  | _ => 0

def value (x : Float) : ℚ := valueOf x.toModel.unpack

def IsEven (x : Float) : Prop :=
  ∀ sign m e pos, x.toModel.unpack = .finite sign m e pos → Even m

theorem multiple_or_lt {x : Float} (finite : x.isFinite = true) {t : Int} (least : -1074 ≤ t) :
    (∃ k : ℤ, value x = k * 2 ^ t) ∨ -1074 < t ∧ value x < 2 ^ 52 * 2 ^ t := by
  have finite : x.toModel.unpack.isFinite = true := finite
  unfold value
  cases shape : x.toModel.unpack with
  | notANumber => rw [shape] at finite; cases finite
  | infinity sign => rw [shape] at finite; cases finite
  | zero sign => exact .inl ⟨0, by simp [valueOf]⟩
  | finite sign m e pos =>
      obtain ⟨canonical, -⟩ := isCanonical_of_unpack shape
      rcases le_or_gt t e with aligned | below
      · have shifted : (2 : ℚ) ^ e = 2 ^ (e - t).toNat * 2 ^ t := by
          rw [← zpow_natCast, Int.toNat_of_nonneg (by omega), ← zpow_add₀ two_ne_zero]
          congr 1
          omega
        left
        cases sign with
        | positive => exact ⟨m * 2 ^ (e - t).toNat, by simp [valueOf, shifted, mul_assoc]⟩
        | negative => exact ⟨-(m * 2 ^ (e - t).toNat), by simp [valueOf, shifted, mul_assoc]⟩
      · have lt : (m : ℚ) < 2 ^ 53 := by exact_mod_cast canonical.lt
        have small : (m : ℚ) * 2 ^ e < 2 ^ 52 * 2 ^ t := by
          calc (m : ℚ) * 2 ^ e
            _ < 2 ^ 53 * 2 ^ e := by gcongr
            _ = 2 ^ 52 * 2 ^ (e + 1) := by rw [zpow_add_one₀ two_ne_zero]; ring
            _ ≤ 2 ^ 52 * 2 ^ t := by gcongr; exacts [one_le_two, below]
        have least := canonical.le
        refine .inr ⟨by omega, ?_⟩
        cases sign with
        | positive => exact small
        | negative =>
            have nonneg : (0 : ℚ) ≤ m * 2 ^ e := by positivity
            simp only [valueOf]
            linarith

/-- Rounding to a whole number, ties to the even one. -/
structure RoundsTo (x : ℚ) (r : ℕ) : Prop where
  within : |x - r| ≤ 1 / 2
  even : |x - r| = 1 / 2 → Even r

theorem RoundsTo.of_lt {x : ℚ} {r : ℕ} (near : |x - r| < 1 / 2) : RoundsTo x r :=
  ⟨near.le, fun half => absurd half near.ne⟩

theorem RoundsTo.closest {x : ℚ} {r : ℕ} (h : RoundsTo x r) {k : ℤ} (other : k ≠ r) :
    1 / 2 ≤ |x - k| := by
  have apart : (1 : ℚ) ≤ |(k : ℚ) - r| := by
    have : (1 : ℤ) ≤ |k - r| := Int.one_le_abs (sub_ne_zero.mpr other)
    exact_mod_cast this
  have split : |(k : ℚ) - r| ≤ |x - k| + |x - r| := by
    calc |(k : ℚ) - r|
      _ = |(x - r) - (x - k)| := by congr 1; ring
      _ ≤ |x - r| + |x - k| := abs_sub _ _
      _ = |x - k| + |x - r| := add_comm _ _
  linarith [h.within]

def midway : Bool → ℚ
  | true => 1 / 2
  | false => 0

private theorem compare_half (r : ℕ) {n : ℕ} (pos : 0 < n) :
    compare (2 * r) n = compare ((r : ℚ) / n) (1 / 2) := by
  have n_pos : (0 : ℚ) < n := Nat.cast_pos.mpr pos
  have lt_iff : (r : ℚ) / n < 1 / 2 ↔ 2 * r < n := by
    rw [div_lt_div_iff₀ n_pos two_pos, one_mul, mul_comm]
    norm_cast
  have gt_iff : 1 / 2 < (r : ℚ) / n ↔ n < 2 * r := by
    rw [div_lt_div_iff₀ two_pos n_pos, one_mul, mul_comm]
    norm_cast
  rcases lt_trichotomy ((r : ℚ) / n) (1 / 2) with lt | same | gt
  · rw [compare_lt_iff_lt.mpr lt, compare_lt_iff_lt.mpr (lt_iff.mp lt)]
  · have not_lt := mt lt_iff.mpr same.not_lt
    have not_gt := mt gt_iff.mpr same.not_gt
    rw [compare_eq_iff_eq.mpr same, compare_eq_iff_eq.mpr (by omega)]
  · rw [compare_gt_iff_gt.mpr gt, compare_gt_iff_gt.mpr (gt_iff.mp gt)]

/-- The bits of an extended mantissa tell where the number lies between two whole ones. -/
def Denotes (em : ExtendedMantissa) (x : ℚ) : Prop :=
  ∃ tail : ℚ, 0 ≤ tail ∧ tail < 1 / 2 ∧ (tail = 0 ↔ em.stickyBit = false) ∧
    x = em.mantissa + midway em.roundBit + tail

namespace Denotes

variable {em : ExtendedMantissa} {x : ℚ}

theorem exact (m : ℕ) : Denotes (.ofMantissaAndAccuracy m .exact) m :=
  ⟨0, le_rfl, by norm_num, by simp [ExtendedMantissa.ofMantissaAndAccuracy],
    by simp [ExtendedMantissa.ofMantissaAndAccuracy, midway]⟩

theorem quotient (m : ℕ) {n : ℕ} (pos : 0 < n) :
    Denotes (.ofMantissaAndAccuracy (m / n) (accuracyOfFraction (m % n) n)) (m / n : ℚ) := by
  have n_pos : (0 : ℚ) < n := Nat.cast_pos.mpr pos
  have split : (m / n : ℚ) = (m / n : ℕ) + (m % n : ℕ) / n := by
    have whole : (n : ℚ) * (m / n : ℕ) + (m % n : ℕ) = m := by exact_mod_cast Nat.div_add_mod m n
    field_simp
    linarith
  have left_lt : ((m % n : ℕ) : ℚ) / n < 1 := by
    rw [div_lt_one n_pos]
    exact_mod_cast Nat.mod_lt m pos
  rw [split]
  unfold accuracyOfFraction
  by_cases none_left : m % n = 0
  · rw [if_pos none_left, none_left, Nat.cast_zero, zero_div, add_zero]
    exact exact (m / n)
  have left_pos : (0 : ℚ) < (m % n : ℕ) / n :=
    div_pos (Nat.cast_pos.mpr (Nat.pos_of_ne_zero none_left)) n_pos
  rw [if_neg none_left, compare_half _ pos]
  generalize ((m % n : ℕ) : ℚ) / n = left at left_lt left_pos
  rcases lt_trichotomy left (1 / 2) with lt | rfl | gt
  · rw [compare_lt_iff_lt.mpr lt]
    exact ⟨left, left_pos.le, lt, by simp [ExtendedMantissa.ofMantissaAndAccuracy, left_pos.ne'],
      by simp [ExtendedMantissa.ofMantissaAndAccuracy, midway]⟩
  · rw [compare_eq_iff_eq.mpr rfl]
    exact ⟨0, le_rfl, by norm_num, by simp [ExtendedMantissa.ofMantissaAndAccuracy],
      by simp [ExtendedMantissa.ofMantissaAndAccuracy, midway]⟩
  · rw [compare_gt_iff_gt.mpr gt]
    refine ⟨left - 1 / 2, by linarith, by linarith, ?_, ?_⟩
    · simp only [ExtendedMantissa.ofMantissaAndAccuracy, Bool.true_eq_false, iff_false]
      linarith
    · simp [ExtendedMantissa.ofMantissaAndAccuracy, midway]

private theorem shiftRightOne (h : Denotes em x) : Denotes em.shiftRightOne (x / 2) := by
  obtain ⟨tail, nonneg, lt, sticky, rfl⟩ := h
  have halves : (em.mantissa : ℚ) = 2 * (em.mantissa / 2 : ℕ) + (em.mantissa % 2 : ℕ) := by
    exact_mod_cast (Nat.div_add_mod em.mantissa 2).symm
  have bit : midway em.shiftRightOne.roundBit = (em.mantissa % 2 : ℕ) / 2 := by
    change midway (em.mantissa % 2 != 0) = _
    rcases Nat.mod_two_eq_zero_or_one em.mantissa with zero | one
    · simp [zero, midway]
    · simp [one, midway]
  have whole : em.shiftRightOne.mantissa = em.mantissa / 2 := rfl
  refine ⟨midway em.roundBit / 2 + tail / 2, ?_, ?_, ?_, by rw [bit, whole, halves]; ring⟩
  all_goals
    cases round : em.roundBit with
    | false => simp [ExtendedMantissa.shiftRightOne, round, midway, ← sticky] <;> linarith
    | true =>
        simp [ExtendedMantissa.shiftRightOne, round, midway]
        linarith

theorem shiftRight (h : Denotes em x) (n : ℕ) : Denotes (em >>> n) (x / 2 ^ n) := by
  change Denotes (n.repeat ExtendedMantissa.shiftRightOne em) _
  induction n with
  | zero => simpa [Nat.repeat] using h
  | succ n ih =>
      rw [pow_succ, ← div_div]
      exact ih.shiftRightOne

theorem roundsTo (h : Denotes em x) : RoundsTo x em.roundedMantissa := by
  obtain ⟨tail, nonneg, lt, sticky, rfl⟩ := h
  rcases em with ⟨m, round, rest⟩
  cases rest with
  | false =>
      obtain rfl : tail = 0 := sticky.mpr rfl
      cases round with
      | false => exact .of_lt (by simp [midway, ExtendedMantissa.roundedMantissa,
          ExtendedMantissa.accuracy, Accuracy.roundToNearestEven])
      | true =>
          have rounded : ExtendedMantissa.roundedMantissa ⟨m, true, false⟩ = m + m % 2 := rfl
          rw [rounded]
          rcases Nat.even_or_odd m with even | odd
          · rw [Nat.even_iff.mp even]
            exact ⟨by simp [midway], fun _ => even⟩
          · rw [Nat.odd_iff.mp odd]
            exact ⟨by norm_num [midway, abs_le], fun _ => odd.add_one⟩
  | true =>
      have tail_pos : 0 < tail := by
        refine lt_of_le_of_ne nonneg fun zero => ?_
        cases sticky.mp zero.symm
      cases round with
      | false =>
          have rounded : ExtendedMantissa.roundedMantissa ⟨m, false, true⟩ = m := rfl
          rw [rounded]
          refine .of_lt (abs_lt.mpr ⟨?_, ?_⟩)
          · simp only [midway]
            linarith
          · simp only [midway]
            linarith
      | true =>
          have rounded : ExtendedMantissa.roundedMantissa ⟨m, true, true⟩ = m + 1 := rfl
          rw [rounded]
          refine .of_lt (abs_lt.mpr ⟨?_, ?_⟩)
          · push_cast [midway]
            linarith
          · push_cast [midway]
            linarith

theorem bounds (h : Denotes em x) : em.mantissa ≤ x ∧ x < em.mantissa + 1 := by
  obtain ⟨tail, nonneg, lt, -, rfl⟩ := h
  cases em.roundBit <;> constructor <;> simp only [midway] <;> linarith

end Denotes

def Exceeds (r : ℕ) (t : ℤ) : Prop := 971 < t ∨ t = 971 ∧ r = 2 ^ 53

/-- What a rounded mantissa becomes once it is packed: zero, a double, or infinity. -/
inductive Packs (r : ℕ) (t : ℤ) : UnpackedFloat → Prop
  | zero (nothing : r = 0) (fits : ¬Exceeds r t) : Packs r t (.zero .positive)
  | finite {m : ℕ} {e : ℤ} (pos : 0 < m) (fits : ¬Exceeds r t)
      (same : (m : ℚ) * 2 ^ e = r * 2 ^ t) (even : Even r → Even m) :
      Packs r t (.finite .positive m e pos)
  | infinite (exceeds : Exceeds r t) : Packs r t (.infinity .positive)

private theorem packs_rounded {r : ℕ} {t : ℤ} (le : r ≤ 2 ^ 53) (least : -1074 ≤ t)
    (full : 2 ^ 52 ≤ r ∨ t = -1074) :
    let shifted := shiftToTargetExponent Format.binary64 r t .exact
    Packs r t (Float.Model.pack (if nothing : shifted.1.mantissa = 0 then .zero .positive
      else .finite .positive shifted.1.mantissa shifted.2
        (Nat.pos_of_ne_zero nothing))).unpack := by
  dsimp only
  rcases Nat.eq_zero_or_pos r with nothing | pos
  · have none_left : (shiftToTargetExponent Format.binary64 r t .exact).1.mantissa = 0 := by
      unfold shiftToTargetExponent shiftToExponent
      rw [nothing, mantissa_shiftRight, mantissa_ofMantissaAndAccuracy, Nat.zero_div]
    rw [dif_pos none_left, unpack_pack_zero]
    exact .zero nothing (by unfold Exceeds; omega)
  · have either : IsCanonical r t ∨ r = 2 ^ 53 ∧ -1074 ≤ t := by
      rcases Nat.lt_or_ge r (2 ^ 53) with lt | ge
      · exact .inl ⟨pos, lt, least, by omega⟩
      · exact .inr ⟨by omega, least⟩
    obtain ⟨final, e', canonical, again, which⟩ := shift_rounded either
    simp only [again, canonical.pos.ne', dite_false]
    rw [unpack_pack_finite .positive canonical]
    have := canonical.lt
    rcases which with ⟨rfl, same⟩ | ⟨rfl, carry, same⟩
    · split
      · exact .finite canonical.pos (by unfold Exceeds; omega) (by rw [same])
          fun even => same ▸ even
      · exact .infinite (.inl (by omega))
    · split
      · refine .finite canonical.pos (by unfold Exceeds; omega) ?_ fun _ => same ▸ by decide
        rw [same, carry, zpow_add_one₀ two_ne_zero]
        push_cast
        ring
      · exact .infinite (by unfold Exceeds; omega)

theorem packs_roundWithAccuracy {m : ℕ} {e : ℤ} {accuracy : Accuracy} {v : ℚ}
    (denotes : Denotes (.ofMantissaAndAccuracy m accuracy) (v / 2 ^ e)) (le : e ≤ target m e) :
    ∃ (r : ℕ) (t : ℤ), -1074 ≤ t ∧ RoundsTo (v / 2 ^ t) r ∧ v / 2 ^ t < 2 ^ 53 ∧
      (2 ^ 52 ≤ v / 2 ^ t ∨ t = -1074) ∧
      Packs r t (Float.Model.pack
        (roundWithAccuracy Format.binary64 .positive m e accuracy)).unpack := by
  have shifted := shiftToTargetExponent_eq m accuracy le
  obtain ⟨kept_lt, kept_full⟩ := kept_bounds le
  have least : -1074 ≤ target m e := le_max_right _ _
  set t := target m e with t_def
  set em := ExtendedMantissa.ofMantissaAndAccuracy m accuracy >>> (t - e).toNat
  have mantissa : em.mantissa = m / 2 ^ (t - e).toNat := by
    rw [mantissa_shiftRight, mantissa_ofMantissaAndAccuracy]
  have denotes : Denotes em (v / 2 ^ t) := by
    have unit : (2 : ℚ) ^ t = 2 ^ e * 2 ^ (t - e).toNat := by
      rw [← zpow_natCast, Int.toNat_of_nonneg (by omega), ← zpow_add₀ two_ne_zero]
      congr 1
      omega
    rw [unit, ← div_div]
    exact denotes.shiftRight _
  rw [← mantissa] at kept_lt kept_full
  obtain ⟨lower, upper⟩ := denotes.bounds
  refine ⟨em.roundedMantissa, t, least, denotes.roundsTo, ?_, ?_, ?_⟩
  · have : (em.mantissa : ℚ) + 1 ≤ 2 ^ 53 := by exact_mod_cast kept_lt
    linarith
  · refine kept_full.imp_left fun full => ?_
    have : (2 : ℚ) ^ 52 ≤ em.mantissa := by exact_mod_cast full
    linarith
  · have rounded := roundedMantissa_bounds em
    unfold roundWithAccuracy
    simp only [shifted]
    exact packs_rounded (by omega) least (by omega)

/-- No finite double is closer to the number; of two that are as close it is the even one. -/
structure IsNearest (v : ℚ) (x : Float) : Prop where
  isFinite : x.isFinite = true
  closest : ∀ y : Float, y.isFinite = true → |v - value x| ≤ |v - value y|
  even : ∀ y : Float, y.isFinite = true → |v - value y| = |v - value x| →
    value y = value x ∨ IsEven x

def overflow : ℚ := (2 ^ 53 - 1 / 2) * 2 ^ (971 : ℤ)

/-- What a number becomes when it is rounded. -/
structure Rounds (v : ℚ) (x : Float) : Prop where
  nearest : v < overflow → IsNearest v x
  infinite : overflow ≤ v → x.toModel.unpack = .infinity .positive

theorem isNearest_of_roundsTo {v : ℚ} {r : ℕ} {t : ℤ} {x : Float} (least : -1074 ≤ t)
    (rounds : RoundsTo (v / 2 ^ t) r) (full : 2 ^ 52 ≤ v / 2 ^ t ∨ t = -1074)
    (finite : x.isFinite = true) (same : value x = r * 2 ^ t) (even : Even r → IsEven x) :
    IsNearest v x := by
  have unit : (0 : ℚ) < 2 ^ t := by positivity
  have scale (k : ℚ) : |v - k * 2 ^ t| = |v / 2 ^ t - k| * 2 ^ t := by
    rw [← abs_of_pos unit, ← abs_mul, abs_of_pos unit, sub_mul, div_mul_cancel₀ _ unit.ne']
  have closer : ∀ y : Float, y.isFinite = true → value y = value x ∨
      |v - value x| < |v - value y| ∨ |v - value x| = |v - value y| ∧ Even r := by
    intro y finite_y
    rw [same, scale]
    rcases multiple_or_lt finite_y least with ⟨k, multiple⟩ | ⟨above, lt⟩
    · rw [multiple, scale]
      by_cases equal : k = r
      · exact .inl (by rw [equal]; norm_cast)
      · right
        rcases (rounds.within.trans (rounds.closest equal)).lt_or_eq with lt | tie
        · exact .inl (mul_lt_mul_of_pos_right lt unit)
        · refine .inr ⟨by rw [tie], rounds.even (le_antisymm rounds.within ?_)⟩
          exact (rounds.closest equal).trans_eq tie.symm
    · right
      left
      have full : (2 : ℚ) ^ 52 ≤ v / 2 ^ t := full.resolve_right (by omega)
      have reach : (2 : ℚ) ^ 52 * 2 ^ t ≤ v := (le_div_iff₀ unit).mp full
      have distance : |v / 2 ^ t - r| ≤ v / 2 ^ t - 2 ^ 52 := by
        by_cases equal : ((2 : ℤ) ^ 52) = r
        · have : (r : ℚ) = 2 ^ 52 := by exact_mod_cast equal.symm
          rw [this, abs_of_nonneg (by linarith)]
        · have other := rounds.within.trans (rounds.closest equal)
          rw [Int.cast_pow, Int.cast_ofNat] at other
          rwa [abs_of_nonneg (by linarith : 0 ≤ v / 2 ^ t - 2 ^ 52)] at other
      calc |v / 2 ^ t - r| * 2 ^ t
        _ ≤ (v / 2 ^ t - 2 ^ 52) * 2 ^ t := by gcongr
        _ = v - 2 ^ 52 * 2 ^ t := by rw [sub_mul, div_mul_cancel₀ _ unit.ne']
        _ < v - value y := by linarith
        _ ≤ |v - value y| := le_abs_self _
  refine ⟨finite, fun y finite_y => ?_, fun y finite_y tie => ?_⟩
  · rcases closer y finite_y with equal | lt | ⟨tie, -⟩
    · rw [equal]
    · exact lt.le
    · exact tie.le
  · rcases closer y finite_y with equal | lt | ⟨-, even_r⟩
    · exact .inl equal
    · exact absurd tie lt.ne'
    · exact .inr (even even_r)

theorem overflow_bounds :
    (2 : ℚ) ^ 53 * 2 ^ (970 : ℤ) ≤ overflow ∧ overflow ≤ 2 ^ 52 * 2 ^ (972 : ℤ) := by
  have lower : (2 : ℚ) ^ (971 : ℤ) = 2 ^ (970 : ℤ) * 2 := zpow_add_one₀ two_ne_zero 970
  have upper : (2 : ℚ) ^ (972 : ℤ) = 2 ^ (971 : ℤ) * 2 := zpow_add_one₀ two_ne_zero 971
  have unit : (0 : ℚ) < 2 ^ (970 : ℤ) := by positivity
  rw [overflow, upper, lower]
  generalize (2 : ℚ) ^ (970 : ℤ) = u at unit
  constructor <;> linarith

private theorem RoundsTo.carry_iff {x : ℚ} {r : ℕ} (rounds : RoundsTo x r) (lt : x < 2 ^ 53) :
    2 ^ 53 - 1 / 2 ≤ x ↔ r = 2 ^ 53 := by
  obtain ⟨below, above⟩ := abs_le.mp rounds.within
  constructor
  · intro reach
    have upper : 2 ^ 53 ≤ r + 1 := by
      have : (2 : ℚ) ^ 53 ≤ r + 1 := by linarith
      exact_mod_cast this
    have lower : r < 2 ^ 53 + 1 := by
      have : (r : ℚ) < 2 ^ 53 + 1 := by linarith
      exact_mod_cast this
    by_contra not_carried
    have last : (r : ℚ) = 2 ^ 53 - 1 := by
      have : r + 1 = 2 ^ 53 := by omega
      have : (r : ℚ) + 1 = 2 ^ 53 := by exact_mod_cast this
      linarith
    have tie : |x - r| = 1 / 2 :=
      le_antisymm rounds.within (le_trans (by linarith) (le_abs_self _))
    have even := Nat.even_iff.mp (rounds.even tie)
    omega
  · rintro rfl
    push_cast at below
    linarith

private theorem overflow_le_iff {v : ℚ} {r : ℕ} {t : ℤ} (rounds : RoundsTo (v / 2 ^ t) r)
    (lt : v / 2 ^ t < 2 ^ 53) (full : 2 ^ 52 ≤ v / 2 ^ t ∨ t = -1074) :
    overflow ≤ v ↔ Exceeds r t := by
  have unit : (0 : ℚ) < 2 ^ t := by positivity
  have upper : v < 2 ^ 53 * 2 ^ t := (div_lt_iff₀ unit).mp lt
  obtain ⟨overflow_ge, overflow_le⟩ := overflow_bounds
  unfold Exceeds
  rcases lt_trichotomy t 971 with small | rfl | large
  · refine iff_of_false (not_le.mpr ?_) (by omega)
    calc v
      _ < 2 ^ 53 * 2 ^ t := upper
      _ ≤ 2 ^ 53 * 2 ^ (970 : ℤ) := by gcongr; exacts [one_le_two, by omega]
      _ ≤ overflow := overflow_ge
  · rw [overflow, ← le_div_iff₀ unit, rounds.carry_iff lt]
    simp
  · refine iff_of_true ?_ (.inl large)
    calc overflow
      _ ≤ 2 ^ 52 * 2 ^ (972 : ℤ) := overflow_le
      _ ≤ 2 ^ 52 * 2 ^ t := by gcongr; exacts [one_le_two, by omega]
      _ ≤ v := (le_div_iff₀ unit).mp (full.resolve_right (by omega))

theorem rounds_pack {m : ℕ} {e : ℤ} {accuracy : Accuracy} {v : ℚ}
    (denotes : Denotes (.ofMantissaAndAccuracy m accuracy) (v / 2 ^ e)) (le : e ≤ target m e) :
    Rounds v (.ofModel (Float.Model.pack
      (roundWithAccuracy Format.binary64 .positive m e accuracy))) := by
  obtain ⟨r, t, least, rounds, lt, full, packs⟩ := packs_roundWithAccuracy denotes le
  have overflows := overflow_le_iff rounds lt full
  generalize Float.Model.pack (roundWithAccuracy Format.binary64 .positive m e accuracy) = packed
    at packs ⊢
  have unpacked : value (.ofModel packed) = valueOf packed.unpack ∧
      Float.isFinite (.ofModel packed) = packed.unpack.isFinite := ⟨rfl, rfl⟩
  generalize shape : packed.unpack = x at packs unpacked
  obtain ⟨same_value, same_finite⟩ := unpacked
  cases packs with
  | zero nothing fits =>
      refine ⟨fun _ => ?_, fun large => absurd (overflows.mp large) fits⟩
      refine isNearest_of_roundsTo least rounds full same_finite ?_ fun _ sign n f pos same => ?_
      · simp [same_value, valueOf, nothing]
      · rw [shape] at same
        cases same
  | finite pos fits same even =>
      refine ⟨fun _ => ?_, fun large => absurd (overflows.mp large) fits⟩
      refine isNearest_of_roundsTo least rounds full same_finite (same_value.trans same)
        fun even_r sign n f pos unpacked => ?_
      rw [shape] at unpacked
      injection unpacked with _ same_m _
      exact same_m ▸ even even_r
  | infinite exceeds =>
      exact ⟨fun small => absurd (overflows.mpr exceeds) small.not_ge, fun _ => shape⟩

end Tollgate.Number
