import Tollgate.Proofs.Number.Computed

/-!
# Doubles from zero to one

A score is a double from zero to one.  Whatever is lost to rounding, the
quotient of two whole numbers is a score if the first is not the larger one,
and products of finite amounts are amounts.
-/

namespace Tollgate.Number

open Float.Model Float.Model.UnpackedFloat

variable {x y : Float}

def IsScore (x : Float) : Prop := 0.0 ≤ x ∧ x ≤ 1.0

theorem le_iff_value (hx : x.isFinite = true) (hy : y.isFinite = true) :
    x ≤ y ↔ value x ≤ value y := by
  rw [le_iff_rank, ← not_lt, rank_lt_iff_value hy hx, not_lt]
  simp only [isNaN_of_isFinite hx, isNaN_of_isFinite hy, true_and]

theorem value_one : value 1.0 = 1 := by
  have shape : (1.0 : Float).toModel.unpack =
      .finite .positive (2 ^ 52) (-52) (by decide) := rfl
  rw [value, shape, valueOf]
  norm_num

theorem isAmount_iff_value (finite : x.isFinite = true) : IsAmount x ↔ 0 ≤ value x := by
  refine ⟨fun h => (le_iff_value rfl finite).mp h.le, fun nonneg => ?_⟩
  exact ⟨isNaN_of_isFinite finite, (le_iff_value rfl finite).mpr nonneg⟩

theorem IsScore.isAmount (h : IsScore x) : IsAmount x := isAmount_zero.of_le h.1

theorem IsScore.isFinite (h : IsScore x) : x.isFinite = true :=
  h.isAmount.isFinite_of_le h.2 rfl

theorem isScore_iff_value (finite : x.isFinite = true) :
    IsScore x ↔ 0 ≤ value x ∧ value x ≤ 1 := by
  have one := le_iff_value finite (y := 1.0) rfl
  rw [value_one] at one
  exact and_congr (le_iff_value rfl finite) one

private theorem IsZero.isFinite (h : IsZero x) : x.isFinite = true :=
  h.elim fun _ shape => congrArg UnpackedFloat.isFinite shape

private theorem IsZero.value_eq (h : IsZero x) : value x = 0 :=
  h.elim fun _ shape => congrArg valueOf shape

theorem isScore_zero : IsScore 0.0 :=
  ⟨Number.le_refl rfl, (le_iff_value rfl rfl).mpr (value_one ▸ zero_le_one)⟩

theorem isScore_one : IsScore 1.0 := ⟨isScore_zero.2, Number.le_refl rfl⟩

theorem IsZero.isScore (h : IsZero x) : IsScore x := by
  rw [isScore_iff_value h.isFinite, h.value_eq]
  exact ⟨le_rfl, zero_le_one⟩

private theorem Rounds.isAmount {v : ℚ} (h : Rounds v x) (nonneg : 0 ≤ v) : IsAmount x := by
  rcases lt_or_ge v overflow with small | large
  · have nearest := h.nearest small
    exact (isAmount_iff_value nearest.isFinite).mpr (nearest.le_value (y := 0.0) rfl nonneg)
  · have number : x.isNaN = false := congrArg UnpackedFloat.isNaN (h.infinite large)
    refine ⟨number, (le_iff_rank _ _).mpr ⟨rfl, number, ?_⟩⟩
    rw [rank, rank, h.infinite large]
    exact IsUnsigned.infinity.key_zero_le

private theorem IsZero.mul (hx : IsZero x) (finite : y.isFinite = true) :
    IsZero (x * y) ∧ IsZero (y * x) := by
  obtain ⟨sign, shape⟩ := hx
  have unpacked := isUnpacked_unpack finite
  have product (a b : Float) : (a * b).toModel.unpack = (Float.Model.pack
      (UnpackedFloat.mul .binary64 a.toModel.unpack b.toModel.unpack)).unpack := rfl
  unfold IsZero
  rw [product, product, shape]
  generalize y.toModel.unpack = a at unpacked
  cases unpacked <;> exact ⟨⟨_, unpack_pack_zero _⟩, ⟨_, unpack_pack_zero _⟩⟩

theorem IsAmount.mul (hx : IsAmount x) (hy : IsAmount y) (x_finite : x.isFinite = true)
    (y_finite : y.isFinite = true) : IsAmount (x * y) := by
  rcases ((isAmount_iff_value x_finite).mp hx).eq_or_lt with x_zero | x_pos
  · exact ((isZero_of_value x_finite x_zero.symm).mul y_finite).1.isScore.isAmount
  rcases ((isAmount_iff_value y_finite).mp hy).eq_or_lt with y_zero | y_pos
  · exact ((isZero_of_value y_finite y_zero.symm).mul x_finite).2.isScore.isAmount
  · exact (rounds_mul x_finite y_finite x_pos y_pos).isAmount (mul_pos x_pos y_pos).le

theorem IsNearest.mono {v w : ℚ} (hx : IsNearest v x) (hy : IsNearest w y) (lt : v < w) :
    value x ≤ value y := by
  by_contra above
  have near := hx.closest y hy.isFinite
  have near' := hy.closest x hx.isFinite
  have mid : value y + value x ≤ 2 * v := by
    rw [← sq_le_sq] at near
    nlinarith
  have mid' : 2 * w ≤ value y + value x := by
    rw [← sq_le_sq] at near'
    nlinarith
  linarith

private theorem IsZero.div (hx : IsZero x) (finite : y.isFinite = true) (nonzero : value y ≠ 0) :
    IsZero (x / y) := by
  obtain ⟨sign, shape⟩ := hx
  have unpacked := isUnpacked_unpack finite
  have quotient : (x / y).toModel.unpack = (Float.Model.pack
      (UnpackedFloat.div .binary64 x.toModel.unpack y.toModel.unpack)).unpack := rfl
  unfold value at nonzero
  unfold IsZero
  rw [quotient, shape]
  generalize y.toModel.unpack = a at unpacked nonzero
  cases unpacked with
  | zero => exact absurd rfl nonzero
  | finite => exact ⟨_, unpack_pack_zero _⟩

theorem isScore_div (x_finite : x.isFinite = true) (y_finite : y.isFinite = true)
    (nonneg : 0 ≤ value x) (le : value x ≤ value y) (pos : 0 < value y) : IsScore (x / y) := by
  rcases nonneg.eq_or_lt with x_zero | x_pos
  · exact ((isZero_of_value x_finite x_zero.symm).div y_finite pos.ne').isScore
  · have quotient_le : value x / value y ≤ 1 := (div_le_one pos).mpr le
    have small : value x / value y < overflow :=
      quotient_le.trans_lt (value_one ▸ value_lt_overflow (x := 1.0) rfl)
    have nearest := (rounds_div x_finite y_finite x_pos pos).nearest small
    refine (isScore_iff_value nearest.isFinite).mpr ⟨?_, ?_⟩
    · exact nearest.le_value (y := 0.0) rfl (div_pos x_pos pos).le
    · exact value_one ▸ nearest.value_le (y := 1.0) rfl (quotient_le.trans_eq value_one.symm)

end Tollgate.Number
