import Tollgate.Proofs.Number.Nearest

/-!
# Operations on doubles

Products and quotients of positive doubles are rounded once, and so are whole
numbers and decimals.  What is a double already is not changed by rounding, and
rounding keeps the order of numbers.
-/

namespace Tollgate.Number

open Float.Model Float.Model.UnpackedFloat

namespace IsNearest

variable {v : ℚ} {x y : Float}

theorem value_eq (h : IsNearest v x) (finite : y.isFinite = true) (same : value y = v) :
    value x = v := by
  have closest := h.closest y finite
  rw [same, sub_self, abs_zero] at closest
  exact (sub_eq_zero.mp (abs_nonpos_iff.mp closest)).symm

theorem le_value (h : IsNearest v x) (finite : y.isFinite = true) (le : value y ≤ v) :
    value y ≤ value x := by
  by_contra lt
  have closest := h.closest y finite
  rw [abs_of_nonneg (by linarith), abs_of_nonneg (by linarith)] at closest
  linarith

theorem value_le (h : IsNearest v x) (finite : y.isFinite = true) (le : v ≤ value y) :
    value x ≤ value y := by
  by_contra lt
  have closest := h.closest y finite
  rw [abs_of_nonpos (by linarith), abs_of_nonpos (by linarith)] at closest
  linarith

end IsNearest

theorem exists_value_eq {m : ℕ} {e : ℤ} (canonical : IsCanonical m e) (fits : e ≤ 971) :
    ∃ x : Float, x.isFinite = true ∧ value x = m * 2 ^ e := by
  have unpacked := unpack_pack_finite .positive canonical
  rw [if_pos fits] at unpacked
  refine ⟨.ofModel (Float.Model.pack (.finite .positive m e canonical.pos)), ?_, ?_⟩
  · exact congrArg UnpackedFloat.isFinite unpacked
  · exact congrArg valueOf unpacked

theorem exists_value_eq_two_pow {k : ℕ} (le : k ≤ 1023) :
    ∃ x : Float, x.isFinite = true ∧ value x = 2 ^ k := by
  have canonical : IsCanonical (2 ^ 52) (k - 52) := by
    constructor <;> omega
  obtain ⟨x, finite, same⟩ := exists_value_eq canonical (by omega)
  refine ⟨x, finite, same.trans ?_⟩
  rw [Nat.cast_pow, Nat.cast_ofNat, ← zpow_natCast, ← zpow_natCast, ← zpow_add₀ two_ne_zero]
  congr 1
  omega

theorem exists_value_eq_natCast {n : ℕ} (le : n ≤ 2 ^ 53) :
    ∃ x : Float, x.isFinite = true ∧ value x = n := by
  rcases Nat.eq_zero_or_pos n with rfl | pos
  · exact ⟨0.0, rfl, by rw [Nat.cast_zero]; rfl⟩
  rcases le.eq_or_lt with rfl | lt
  · exact_mod_cast exists_value_eq_two_pow (k := 53) (by omega)
  have bits : n.log2 ≤ 52 := by
    have := (Nat.log2_lt pos.ne').mpr lt
    omega
  have log2_eq := log2_mul_two_pow pos (52 - n.log2)
  have shifted_pos : 0 < n * 2 ^ (52 - n.log2) := by positivity
  have canonical : IsCanonical (n * 2 ^ (52 - n.log2)) (n.log2 - 52) := by
    refine ⟨shifted_pos, (Nat.log2_lt shifted_pos.ne').mp (by omega), by omega, .inl ?_⟩
    exact (Nat.le_log2 shifted_pos.ne').mp (by omega)
  obtain ⟨x, finite, same⟩ := exists_value_eq canonical (by omega)
  refine ⟨x, finite, same.trans ?_⟩
  rw [Nat.cast_mul, Nat.cast_pow, Nat.cast_ofNat, mul_assoc, ← zpow_natCast,
    ← zpow_add₀ two_ne_zero, show ((52 - n.log2 : ℕ) : ℤ) + (n.log2 - 52) = 0 by omega, zpow_zero,
    mul_one]

theorem exists_unpack_eq {x : Float} (finite : x.isFinite = true) (pos : 0 < value x) :
    ∃ (m : ℕ) (e : ℤ) (canonical : IsCanonical m e),
      x.toModel.unpack = .finite .positive m e canonical.pos ∧ value x = m * 2 ^ e := by
  have finite : x.toModel.unpack.isFinite = true := finite
  unfold value at pos ⊢
  cases shape : x.toModel.unpack with
  | notANumber => rw [shape] at finite; cases finite
  | infinity sign => rw [shape] at finite; cases finite
  | zero sign => simp [shape, valueOf] at pos
  | finite sign m e m_pos =>
      obtain ⟨canonical, -⟩ := isCanonical_of_unpack shape
      cases sign with
      | positive => exact ⟨m, e, canonical, rfl, rfl⟩
      | negative =>
          have : (0 : ℚ) ≤ m * 2 ^ e := by positivity
          simp only [shape, valueOf] at pos
          linarith

theorem rounds_exact {m : ℕ} {e : ℤ} (le : e ≤ target m e) :
    Rounds (m * 2 ^ e) (.ofModel (Float.Model.pack
      (roundWithAccuracy Format.binary64 .positive m e .exact))) := by
  refine rounds_pack ?_ le
  rw [mul_div_cancel_right₀ _ (by positivity)]
  exact .exact m

theorem rounds_round {m : ℕ} {e : ℤ} (pos : 0 < m) :
    Rounds (m * 2 ^ e) (.ofModel (Float.Model.pack
      (UnpackedFloat.round Format.binary64 .positive m e))) := by
  unfold UnpackedFloat.round decreaseExponent
  rw [targetExponent_eq]
  simp only [Nat.shiftLeft_eq]
  have unit : (m : ℚ) * 2 ^ e =
      (m * 2 ^ (e - target m e).toNat : ℕ) * 2 ^ (e - (e - target m e).toNat) := by
    rw [zpow_sub₀ two_ne_zero, zpow_natCast]
    push_cast
    field_simp
  rw [unit]
  refine rounds_exact ?_
  rcases le_total e (target m e) with lost | aligned
  · rw [show (e - target m e).toNat = 0 by omega]
    simpa using lost
  · rw [show e - ((e - target m e).toNat : ℤ) = target m e by omega, target_aligned pos aligned]

private theorem IsCanonical.le_target_mul {m n : ℕ} {e f : ℤ} (hm : IsCanonical m e)
    (hn : IsCanonical n f) : e + f ≤ target (m * n) (e + f) := by
  have pos : 0 < m * n := Nat.mul_pos hm.pos hn.pos
  have full {k : ℕ} (ge : 2 ^ 52 ≤ k) (le : k ≤ m * n) : 52 ≤ (m * n).log2 :=
    (Nat.le_log2 pos.ne').mpr (ge.trans le)
  have := hm.le
  have := hn.le
  unfold target
  rcases hm.full with normal | least
  · have := full normal (Nat.le_mul_of_pos_right m hn.pos)
    omega
  · rcases hn.full with normal | least'
    · have := full normal (Nat.le_mul_of_pos_left n hm.pos)
      omega
    · omega

theorem rounds_mul {x y : Float} (hx : x.isFinite = true) (hy : y.isFinite = true)
    (x_pos : 0 < value x) (y_pos : 0 < value y) : Rounds (value x * value y) (x * y) := by
  obtain ⟨m, e, hm, shape_x, value_x⟩ := exists_unpack_eq hx x_pos
  obtain ⟨n, f, hn, shape_y, value_y⟩ := exists_unpack_eq hy y_pos
  have product : value x * value y = (m * n : ℕ) * 2 ^ (e + f) := by
    rw [value_x, value_y, zpow_add₀ two_ne_zero]
    push_cast
    ring
  have unpacked : x * y = .ofModel (Float.Model.pack
      (roundWithAccuracy Format.binary64 .positive (m * n) (e + f) .exact)) := by
    change Float.ofModel (Float.Model.pack (UnpackedFloat.mul Format.binary64
      x.toModel.unpack y.toModel.unpack)) = _
    rw [shape_x, shape_y]
    rfl
  rw [product, unpacked]
  exact rounds_exact (hm.le_target_mul hn)

private theorem targetExponent_sub (m n : ℕ) (e f : ℤ) :
    Format.binary64.targetExponent (totalExponent m e - totalExponent n f) =
      max ((m.log2 : ℤ) - n.log2 + (e - f) - 53) (-1074) := by
  simp only [Format.targetExponent, totalExponent, Format.mantissaBits, Format.minExponent]
  norm_num
  omega

private theorem full_of_shifted {m n s : ℕ} (m_pos : 0 < m) (n_pos : 0 < n)
    (shifted : n.log2 + 53 ≤ m.log2 + s) : 2 ^ 52 ≤ m * 2 ^ s / n := by
  rw [Nat.le_div_iff_mul_le n_pos]
  calc 2 ^ 52 * n
    _ ≤ 2 ^ 52 * 2 ^ (n.log2 + 1) := Nat.mul_le_mul_left _ Nat.lt_log2_self.le
    _ = 2 ^ (n.log2 + 53) := by rw [← pow_add]; congr 1; omega
    _ ≤ 2 ^ (m.log2 + s) := Nat.pow_le_pow_right (by decide) shifted
    _ = 2 ^ m.log2 * 2 ^ s := pow_add 2 _ _
    _ ≤ m * 2 ^ s := Nat.mul_le_mul_right _ (Nat.log2_self_le m_pos.ne')

theorem rounds_div_finite {m n : ℕ} {e f : ℤ} (m_pos : 0 < m) (n_pos : 0 < n) :
    Rounds (m * 2 ^ e / (n * 2 ^ f)) (.ofModel (Float.Model.pack
      (UnpackedFloat.div Format.binary64 (.finite .positive m e m_pos)
        (.finite .positive n f n_pos)))) := by
  set t := min (e - f) (max ((m.log2 : ℤ) - n.log2 + (e - f) - 53) (-1074)) with t_def
  have core : divCore Format.binary64 m e n f =
      (m * 2 ^ (e - f - t).toNat / n, t,
        accuracyOfFraction (m * 2 ^ (e - f - t).toNat % n) n) := by
    unfold divCore
    rw [targetExponent_sub, ← t_def]
    simp only [Nat.shiftLeft_eq]
  have quotient : (m * 2 ^ e / (n * 2 ^ f) / 2 ^ t : ℚ) =
      ((m * 2 ^ (e - f - t).toNat : ℕ) : ℚ) / n := by
    have shift : (2 : ℚ) ^ (e - f - t).toNat = 2 ^ e / 2 ^ f / 2 ^ t := by
      rw [← zpow_natCast, Int.toNat_of_nonneg (by omega), zpow_sub₀ two_ne_zero,
        zpow_sub₀ two_ne_zero]
    push_cast
    rw [shift]
    field_simp
  have unpacked : UnpackedFloat.div Format.binary64 (.finite .positive m e m_pos)
      (.finite .positive n f n_pos) =
        roundWithAccuracy Format.binary64 .positive (m * 2 ^ (e - f - t).toNat / n) t
          (accuracyOfFraction (m * 2 ^ (e - f - t).toNat % n) n) := by
    unfold UnpackedFloat.div
    simp only [core]
    rfl
  rw [unpacked]
  refine rounds_pack (quotient ▸ .quotient _ n_pos) ?_
  rcases le_or_gt t (-1074) with least | above
  · exact least.trans (le_max_right _ _)
  · have shifted : n.log2 + 53 ≤ m.log2 + (e - f - t).toNat := by omega
    have full := full_of_shifted m_pos n_pos shifted
    have := (Nat.le_log2 (by omega)).mpr full
    unfold target
    omega

theorem rounds_div {x y : Float} (hx : x.isFinite = true) (hy : y.isFinite = true)
    (x_pos : 0 < value x) (y_pos : 0 < value y) : Rounds (value x / value y) (x / y) := by
  obtain ⟨m, e, hm, shape_x, value_x⟩ := exists_unpack_eq hx x_pos
  obtain ⟨n, f, hn, shape_y, value_y⟩ := exists_unpack_eq hy y_pos
  have unpacked : x / y = .ofModel (Float.Model.pack (UnpackedFloat.div Format.binary64
      (.finite .positive m e hm.pos) (.finite .positive n f hn.pos))) := by
    change Float.ofModel (Float.Model.pack (UnpackedFloat.div Format.binary64
      x.toModel.unpack y.toModel.unpack)) = _
    rw [shape_x, shape_y]
  rw [value_x, value_y, unpacked]
  exact rounds_div_finite hm.pos hn.pos

theorem two_pow_le_overflow : (2 : ℚ) ^ (1023 : ℤ) ≤ overflow := by
  refine le_trans (le_of_eq ?_) overflow_bounds.1
  rw [← zpow_natCast, ← zpow_add₀ two_ne_zero]
  rfl

theorem overflow_le_two_pow : overflow ≤ (2 : ℚ) ^ (1024 : ℤ) := by
  refine overflow_bounds.2.trans (le_of_eq ?_)
  rw [← zpow_natCast, ← zpow_add₀ two_ne_zero]
  rfl

theorem two_pow_lt_overflow_iff {k : ℕ} : (2 : ℚ) ^ k < overflow ↔ k ≤ 1023 := by
  constructor
  · intro small
    have := small.trans_le overflow_le_two_pow
    rw [← zpow_natCast, zpow_lt_zpow_iff_right₀ one_lt_two] at this
    omega
  · intro le
    calc (2 : ℚ) ^ k
      _ ≤ 2 ^ 1023 := pow_le_pow_right₀ one_le_two le
      _ = 2 ^ 52 * 2 ^ (971 : ℤ) := by
        rw [← zpow_natCast, ← zpow_natCast, ← zpow_add₀ two_ne_zero]
        rfl
      _ < overflow := by
        rw [overflow]
        gcongr
        norm_num

theorem value_lt_overflow {x : Float} (finite : x.isFinite = true) : value x < overflow := by
  rcases le_or_gt (value x) 0 with nonpos | pos
  · refine nonpos.trans_lt (lt_of_lt_of_le ?_ two_pow_le_overflow)
    positivity
  · obtain ⟨m, e, canonical, shape, same⟩ := exists_unpack_eq finite pos
    have fits := (isCanonical_of_unpack shape).2
    have lt : (m : ℚ) ≤ 2 ^ 53 - 1 := by
      have := canonical.lt
      have : m + 1 ≤ 2 ^ 53 := this
      have : (m : ℚ) + 1 ≤ 2 ^ 53 := by exact_mod_cast this
      linarith
    calc value x
      _ = m * 2 ^ e := same
      _ ≤ (2 ^ 53 - 1) * 2 ^ (971 : ℤ) := by gcongr; exacts [one_le_two]
      _ < overflow := by
        rw [overflow]
        gcongr
        norm_num

theorem natCast_lt_overflow {n k : ℕ} (lt : n < 2 ^ k) (le : k ≤ 1023) :
    (n : ℚ) < overflow := by
  calc (n : ℚ)
    _ < 2 ^ k := by exact_mod_cast lt
    _ = 2 ^ (k : ℤ) := (zpow_natCast 2 k).symm
    _ ≤ 2 ^ (1023 : ℤ) := by gcongr; exacts [one_le_two, by exact_mod_cast le]
    _ ≤ overflow := two_pow_le_overflow

theorem rounds_infinite {v : ℚ} {x : Float} (large : overflow ≤ v)
    (infinite : x.toModel.unpack = .infinity .positive) : Rounds v x :=
  ⟨fun small => absurd large small.not_ge, fun _ => infinite⟩

theorem rounds_zero {v : ℚ} {x : Float} {sign : Sign} (nonneg : 0 ≤ v)
    (small : v ≤ 2 ^ (-1075 : ℤ)) (zero : x.toModel.unpack = .zero sign) : Rounds v x := by
  have unit : (0 : ℚ) < 2 ^ (-1074 : ℤ) := by positivity
  have half : v / 2 ^ (-1074 : ℤ) ≤ 1 / 2 := by
    rw [div_le_iff₀ unit]
    refine small.trans_eq ?_
    rw [show (-1075 : ℤ) = -1074 - 1 by norm_num, zpow_sub_one₀ two_ne_zero]
    ring
  have rounds : RoundsTo (v / 2 ^ (-1074 : ℤ)) 0 := by
    refine ⟨?_, fun _ => Even.zero⟩
    rw [Nat.cast_zero, sub_zero, abs_of_nonneg (by positivity)]
    exact half
  have finite : x.isFinite = true := congrArg UnpackedFloat.isFinite zero
  have same : value x = (0 : ℕ) * 2 ^ (-1074 : ℤ) := by
    rw [Nat.cast_zero, zero_mul]
    exact congrArg valueOf zero
  refine ⟨fun _ => isNearest_of_roundsTo le_rfl rounds (.inr rfl) finite same ?_, fun large => ?_⟩
  · intro _ s m e pos shape
    rw [zero] at shape
    cases shape
  · have : (2 : ℚ) ^ (-1075 : ℤ) < 2 ^ (1023 : ℤ) := zpow_lt_zpow_right₀ one_lt_two (by omega)
    linarith [two_pow_le_overflow]

end Tollgate.Number
