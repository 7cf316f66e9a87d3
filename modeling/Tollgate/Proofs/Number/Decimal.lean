import Tollgate.Decimal.Reading
import Tollgate.Proofs.Number.Operations
import Tollgate.Proofs.Text.Digits

/-!
# Decimals as doubles

Whole numbers and decimals of any length are read as the double nearest to
them.  What a double can hold is read exactly.
-/

namespace Tollgate.Number

open Float.Model Float.Model.UnpackedFloat

private theorem toFloat_eq {n : ℕ} (pos : 0 < n) (lt : n < 2 ^ 64) :
    n.toUInt64.toFloat = .ofModel (Float.Model.pack
      (UnpackedFloat.round Format.binary64 .positive n 0)) := by
  have whole : n.toUInt64.toNat = n := by
    rw [Nat.toUInt64, UInt64.toNat_ofNat', Nat.mod_eq_of_lt lt]
  have positive : (0 : ℤ) < n := by exact_mod_cast pos
  change Float.ofModel (Float.Model.pack
    (UnpackedFloat.ofInt Format.binary64 n.toUInt64.toNat)) = _
  rw [whole]
  simp only [UnpackedFloat.ofInt, UnpackedFloat.normalize, compare_gt_iff_gt.mpr positive,
    Int.toNat_natCast]

theorem value_toFloat {n : ℕ} (pos : 0 < n) (lt : n < 2 ^ 53) :
    n.toUInt64.toFloat.isFinite = true ∧ value n.toUInt64.toFloat = n := by
  have rounds : Rounds (n * 2 ^ (0 : ℤ)) n.toUInt64.toFloat := by
    rw [toFloat_eq pos (by omega)]
    exact rounds_round pos
  rw [zpow_zero, mul_one] at rounds
  have nearest := rounds.nearest (natCast_lt_overflow lt (by omega))
  obtain ⟨y, finite, same⟩ := exists_value_eq_natCast lt.le
  exact ⟨nearest.isFinite, nearest.value_eq finite same⟩

theorem two_zpow_eq_div (e : ℤ) : (2 : ℚ) ^ e = 2 ^ e.toNat / 2 ^ (-e).toNat := by
  rw [← zpow_natCast, ← zpow_natCast, ← zpow_sub₀ two_ne_zero]
  congr 1
  omega

def isWhole (x : Float) (n : ℕ) : Bool :=
  match x.toModel.unpack with
  | .finite .positive m e _ => m * 2 ^ e.toNat == n * 2 ^ (-e).toNat
  | _ => false

theorem value_of_isWhole {x : Float} {n : ℕ} (h : isWhole x n = true) :
    x.isFinite = true ∧ value x = n := by
  unfold isWhole at h
  cases shape : x.toModel.unpack with
  | notANumber | infinity | zero => rw [shape] at h; cases h
  | finite sign m e pos =>
      rw [shape] at h
      cases sign with
      | negative => cases h
      | positive =>
          have same : (m : ℚ) * 2 ^ e.toNat = n * 2 ^ (-e).toNat := by exact_mod_cast eq_of_beq h
          have whole : value x = m * 2 ^ e := congrArg valueOf shape
          refine ⟨congrArg UnpackedFloat.isFinite shape, ?_⟩
          rw [whole, two_zpow_eq_div, ← mul_div_assoc, same,
            mul_div_cancel_right₀ _ (by positivity)]

theorem isWhole_powerOfTen : ∀ e : Fin 23,
    isWhole (Float.exactlyRepresentablePowersOfTen[e]) (10 ^ e.val) = true := by
  decide +kernel

private theorem rounds_mul_powerOfTen {m : ℕ} (pos : 0 < m) (e : ℕ) :
    Rounds (m * 10 ^ e) (.ofModel (Float.Model.pack (roundWithAccuracy Format.binary64 .positive
      (m <<< 53 * 10 ^ e) (-53) .exact))) := by
  have widened : m <<< 53 * 10 ^ e = m * 10 ^ e * 2 ^ 53 := by
    rw [Nat.shiftLeft_eq]
    ring
  have same : (m * 10 ^ e : ℚ) = (m <<< 53 * 10 ^ e : ℕ) * 2 ^ (-53 : ℤ) := by
    rw [widened, zpow_neg]
    push_cast
    exact (mul_inv_cancel_right₀ (by positivity) _).symm
  have bits := log2_mul_two_pow (show 0 < m * 10 ^ e by positivity) 53
  rw [same]
  refine rounds_exact ?_
  unfold target
  rw [widened, bits]
  omega

private theorem two_pow_le_ten_pow {e : ℤ} (nonneg : 0 ≤ e) : (2 : ℚ) ^ e ≤ 10 ^ e :=
  zpow_le_zpow_left₀ nonneg (by norm_num) (by norm_num)

private theorem rounds_ofScientific_model {m : ℕ} (pos : 0 < m) (e : ℤ) :
    Rounds (m * 10 ^ e) (.ofModel (Float.Model.ofScientific m e)) := by
  have m_ge : (1 : ℚ) ≤ m := by exact_mod_cast pos
  have m_lt : (m : ℚ) < 2 ^ ((m.log2 : ℤ) + 1) := by
    exact_mod_cast (Nat.lt_log2_self : m < 2 ^ (m.log2 + 1))
  have range : (2 ^ Format.binary64.exponentBits : ℤ) = 2048 := rfl
  unfold Float.Model.ofScientific UnpackedFloat.ofScientific
  rw [dif_neg pos.ne', range]
  split
  · next large =>
      refine rounds_infinite ?_ (unpack_pack_infinity .positive)
      calc overflow
        _ ≤ 2 ^ (1024 : ℤ) := overflow_le_two_pow
        _ ≤ 2 ^ e := by gcongr; exacts [one_le_two, by omega]
        _ ≤ 10 ^ e := two_pow_le_ten_pow (by omega)
        _ ≤ m * 10 ^ e := le_mul_of_one_le_left (by positivity) m_ge
  · split
    · next small =>
        refine rounds_zero (by positivity) ?_ (unpack_pack_zero .positive)
        have power := two_pow_le_ten_pow (show 0 ≤ -e by omega)
        rw [zpow_neg, zpow_neg, inv_le_inv₀ (by positivity) (by positivity)] at power
        calc (m : ℚ) * 10 ^ e
          _ ≤ 2 ^ ((m.log2 : ℤ) + 1) * 2 ^ e := by gcongr
          _ = 2 ^ ((m.log2 : ℤ) + 1 + e) := (zpow_add₀ two_ne_zero _ _).symm
          _ ≤ 2 ^ (-1075 : ℤ) := by gcongr; exacts [one_le_two, by omega]
    · split
      · next whole =>
          obtain ⟨k, rfl⟩ := Int.eq_ofNat_of_zero_le whole
          rw [zpow_natCast]
          exact rounds_mul_powerOfTen pos k
      · next fraction =>
          obtain ⟨k, rfl⟩ : ∃ k : ℕ, e = -k := ⟨(-e).toNat, by omega⟩
          have quotient := rounds_div_finite (e := 0) (f := 0) pos
            (Nat.pow_pos (by decide : 0 < 10) (n := k))
          rw [zpow_zero, mul_one, mul_one] at quotient
          simp only [neg_neg, Int.toNat_natCast]
          rw [zpow_neg, zpow_natCast, ← div_eq_mul_inv]
          exact_mod_cast quotient

theorem rounds_ofScientific {m : ℕ} (pos : 0 < m) (negative : Bool) (e : ℕ) :
    Rounds (m * 10 ^ (if negative then Int.negOfNat e else Int.ofNat e))
      (Float.ofScientific m negative e) := by
  unfold Float.ofScientific
  by_cases fast : m < 2 ^ 53 ∧ e ≤ 22
  · rw [dif_pos fast]
    obtain ⟨finite_m, value_m⟩ := value_toFloat pos fast.1
    obtain ⟨finite_ten, value_ten⟩ := value_of_isWhole (isWhole_powerOfTen ⟨e, by omega⟩)
    have m_pos : 0 < value m.toUInt64.toFloat := value_m ▸ Nat.cast_pos.mpr pos
    have ten_pos := Nat.cast_pos (α := ℚ).mpr (Nat.pow_pos (by decide : 0 < 10) (n := e))
    rw [← value_ten] at ten_pos
    cases negative with
    | true =>
        have exact := rounds_div finite_m finite_ten m_pos ten_pos
        rw [value_m, value_ten] at exact
        have same : (m * 10 ^ Int.negOfNat e : ℚ) = m / (10 ^ e : ℕ) := by
          rw [Int.negOfNat_eq, zpow_neg, Int.ofNat_eq_natCast, zpow_natCast, div_eq_mul_inv]
          push_cast
          rfl
        exact same ▸ exact
    | false =>
        have exact := rounds_mul finite_m finite_ten m_pos ten_pos
        rw [value_m, value_ten, Nat.cast_pow] at exact
        exact exact
  · rw [dif_neg fast]
    exact rounds_ofScientific_model pos _

private theorem toDigits_bounds {n : ℕ} (pos : 0 < n) :
    (10 : ℚ) ^ ((Nat.toDigits 10 n).length - 1 : ℤ) ≤ n ∧
      (n : ℚ) < 10 ^ ((Nat.toDigits 10 n).length : ℤ) := by
  obtain ⟨k, length⟩ : ∃ k, (Nat.toDigits 10 n).length = k + 1 :=
    ⟨_, (Nat.sub_add_cancel (Nat.length_toDigits_pos (b := 10) (n := n))).symm⟩
  have lower : 10 ^ k ≤ n := by
    rcases Nat.eq_zero_or_pos k with rfl | k_pos
    · exact pos
    · by_contra below
      have := (Nat.length_toDigits_le_iff (by decide) k_pos).mpr (not_le.mp below)
      omega
  have upper : n < 10 ^ (k + 1) :=
    (Nat.length_toDigits_le_iff (by decide) k.succ_pos).mp length.le
  rw [length]
  constructor
  · simpa using (by exact_mod_cast lower : (10 : ℚ) ^ k ≤ n)
  · exact_mod_cast upper

theorem rounds_nearest (digits : ℕ) (exponent : ℤ) :
    Rounds (digits * 10 ^ exponent) (Decimal.nearest digits exponent) := by
  have ten_ne : (10 : ℚ) ≠ 0 := by norm_num
  have one_le_ten : (1 : ℚ) ≤ 10 := by norm_num
  unfold Decimal.nearest
  split
  · next none_left =>
      rw [none_left, Nat.cast_zero, zero_mul]
      exact rounds_zero le_rfl (by positivity) rfl
  · next some_left =>
      have pos : 0 < digits := Nat.pos_of_ne_zero some_left
      obtain ⟨lower, upper⟩ := toDigits_bounds pos
      dsimp only
      split
      · next large =>
          refine rounds_infinite ?_ rfl
          have power : (2 : ℕ) ^ 1024 ≤ 10 ^ 310 := by decide +kernel
          calc overflow
            _ ≤ 2 ^ (1024 : ℤ) := overflow_le_two_pow
            _ ≤ 10 ^ (310 : ℤ) := by exact_mod_cast power
            _ ≤ 10 ^ ((Nat.toDigits 10 digits).length - 1 + exponent) := by
              gcongr ?_ ^ ?_
              omega
            _ = 10 ^ ((Nat.toDigits 10 digits).length - 1 : ℤ) * 10 ^ exponent :=
              zpow_add₀ ten_ne _ _
            _ ≤ digits * 10 ^ exponent := by gcongr
      · split
        · next small =>
            refine rounds_zero (by positivity) ?_ rfl
            have power : (2 : ℕ) ^ 1075 ≤ 10 ^ 331 := by decide +kernel
            calc (digits : ℚ) * 10 ^ exponent
              _ ≤ 10 ^ ((Nat.toDigits 10 digits).length : ℤ) * 10 ^ exponent := by gcongr
              _ = 10 ^ ((Nat.toDigits 10 digits).length + exponent) := (zpow_add₀ ten_ne _ _).symm
              _ ≤ 10 ^ (-331 : ℤ) := by
                gcongr ?_ ^ ?_
                omega
              _ ≤ 2 ^ (-1075 : ℤ) := by
                rw [zpow_neg, zpow_neg]
                refine inv_anti₀ (by positivity) ?_
                exact_mod_cast power
        · have scale : (if decide (exponent < 0) then Int.negOfNat exponent.natAbs
              else Int.ofNat exponent.natAbs) = exponent := by
            simp only [decide_eq_true_eq, Int.negOfNat_eq, Int.ofNat_eq_natCast]
            split <;> omega
          have rounds := rounds_ofScientific pos (decide (exponent < 0)) exponent.natAbs
          rwa [scale] at rounds

theorem rounds_ofNat (n : ℕ) : Rounds n (Float.ofNat n) := by
  rcases Nat.eq_zero_or_pos n with rfl | pos
  · exact Nat.cast_zero (R := ℚ) ▸ rounds_zero le_rfl (by positivity) rfl
  · have rounds := rounds_ofScientific pos false 0
    rwa [if_neg Bool.false_ne_true, Int.ofNat_eq_natCast, Nat.cast_zero, zpow_zero, mul_one]
      at rounds

theorem value_ofNat {n : ℕ} (le : n ≤ 2 ^ 53) :
    (Float.ofNat n).isFinite = true ∧ value (Float.ofNat n) = n := by
  have small : n < 2 ^ 54 := by omega
  have nearest := (rounds_ofNat n).nearest (natCast_lt_overflow small (by omega))
  obtain ⟨y, finite, same⟩ := exists_value_eq_natCast le
  exact ⟨nearest.isFinite, nearest.value_eq finite same⟩

private theorem roundToInt_eq {m n : ℕ} {e : ℤ} (same : (m : ℚ) * 2 ^ e = n) :
    roundToInt .positive m e = n := by
  have lifted : (m <<< (e - 0).toNat) / 2 ^ (0 - (e - (e - 0).toNat)).toNat = n := by
    rw [sub_zero, zero_sub, Nat.shiftLeft_eq, show -(e - (e.toNat : ℤ)) = ((-e).toNat : ℤ) by omega,
      Int.toNat_natCast]
    refine Nat.div_eq_of_eq_mul_left (by positivity) ?_
    rw [two_zpow_eq_div, ← mul_div_assoc, div_eq_iff (by positivity)] at same
    exact_mod_cast same
  have mantissa : (shiftToExponent (m <<< (e - 0).toNat) (e - (e - 0).toNat) .exact 0).1.mantissa =
      n := by
    unfold shiftToExponent
    rw [mantissa_shiftRight, mantissa_ofMantissaAndAccuracy, lifted]
  exact congrArg Nat.cast mantissa

theorem toNat_toUInt64 {x : Float} {n : ℕ} (same : value x = n) (finite : x.isFinite = true)
    (lt : n < 2 ^ 64) : x.toUInt64.toNat = n := by
  have finite : x.toModel.unpack.isFinite = true := finite
  have whole : x.toModel.unpack.toInt 0 (UInt64.size - 1) = n := by
    unfold value at same
    cases shape : x.toModel.unpack with
    | notANumber => rw [shape] at finite; cases finite
    | infinity sign => rw [shape] at finite; cases finite
    | zero sign =>
        rw [shape] at same
        rw [Nat.cast_eq_zero.mp same.symm]
        rfl
    | finite sign m e pos =>
        rw [shape] at same
        cases sign with
        | positive => exact roundToInt_eq same
        | negative =>
            have size : (0 : ℚ) < m * 2 ^ e := by positivity
            have nonneg : (0 : ℚ) ≤ n := n.cast_nonneg
            simp only [valueOf] at same
            linarith
  change (UInt64.ofNatClamp (x.toModel.unpack.toInt 0 (UInt64.size - 1)).toNat).toNat = n
  rw [whole, Int.toNat_natCast, UInt64.ofNatClamp_eq_ofNat n lt, UInt64.toNat_ofNat',
    Nat.mod_eq_of_lt lt]

end Tollgate.Number
