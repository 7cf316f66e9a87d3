import Tollgate.Proofs.Number.Decimal
import Tollgate.Proofs.Number.Order

/-!
# Bounds on products

A product of doubles that carry whole numbers is exact up to `2 ^ 53`, and
beyond that it stays beyond it, whatever is lost to rounding.  A product within
a power of two does not overflow; one of zero and infinity is not a number.
-/

namespace Tollgate.Number

open Float.Model (UnpackedFloat)

def IsInfinite (x : Float) : Prop := x.toModel.unpack = .infinity .positive

theorem IsInfinite.not_isFinite {x : Float} (infinite : IsInfinite x) : x.isFinite = false :=
  congrArg UnpackedFloat.isFinite infinite

def Reaches (v : ℚ) (x : Float) : Prop := IsInfinite x ∨ x.isFinite = true ∧ v ≤ value x

private theorem isInfinite_mul {x y : Float} (hx : IsInfinite x)
    (hy : IsInfinite y ∨ y.isFinite = true ∧ 0 < value y) :
    IsInfinite (x * y) ∧ IsInfinite (y * x) := by
  have unpacked (a b : Float) : (a * b).toModel.unpack = (Float.Model.pack
      (UnpackedFloat.mul .binary64 a.toModel.unpack b.toModel.unpack)).unpack := rfl
  unfold IsInfinite at hx hy ⊢
  rw [unpacked, unpacked, hx]
  rcases hy with infinite | ⟨finite, pos⟩
  · rw [infinite]
    exact ⟨unpack_pack_infinity .positive, unpack_pack_infinity .positive⟩
  · obtain ⟨m, e, canonical, shape, -⟩ := exists_unpack_eq finite pos
    rw [shape]
    exact ⟨unpack_pack_infinity .positive, unpack_pack_infinity .positive⟩

theorem IsInfinite.not_lt {x y : Float} (infinite : IsInfinite x) (finite : y.isFinite = true) :
    ¬x < y := by
  rw [lt_iff_rank]
  rintro ⟨-, -, lt⟩
  have unpacked := isUnpacked_unpack finite
  unfold IsInfinite at infinite
  unfold rank at lt
  rw [infinite] at lt
  generalize y.toModel.unpack = a at unpacked lt
  cases unpacked with
  | zero sign => simp [key, Prod.Lex.toLex_lt_toLex] at lt
  | finite sign canonical fits => cases sign <;> simp [key, Prod.Lex.toLex_lt_toLex] at lt

theorem Reaches.mul {u v w : ℚ} {x y : Float} (hx : Reaches u x) (hy : Reaches v y)
    (u_pos : 0 < u) (v_pos : 0 < v) (le : w ≤ u * v)
    (held : w < overflow → ∃ z : Float, z.isFinite = true ∧ value z = w) :
    Reaches w (x * y) := by
  have positive {u : ℚ} {x : Float} (u_pos : 0 < u) (h : Reaches u x) :
      IsInfinite x ∨ x.isFinite = true ∧ 0 < value x :=
    h.imp_right fun ⟨finite, reach⟩ => ⟨finite, u_pos.trans_le reach⟩
  rcases hx with infinite | ⟨finite_x, reach_x⟩
  · exact .inl (isInfinite_mul infinite (positive v_pos hy)).1
  · rcases hy with infinite | ⟨finite_y, reach_y⟩
    · exact .inl (isInfinite_mul infinite (.inr ⟨finite_x, u_pos.trans_le reach_x⟩)).2
    · have rounds := rounds_mul finite_x finite_y (u_pos.trans_le reach_x)
        (v_pos.trans_le reach_y)
      have reach : w ≤ value x * value y :=
        le.trans (mul_le_mul reach_x reach_y v_pos.le (u_pos.le.trans reach_x))
      rcases lt_or_ge (value x * value y) overflow with small | large
      · have nearest := rounds.nearest small
        obtain ⟨z, finite_z, rfl⟩ := held (reach.trans_lt small)
        exact .inr ⟨nearest.isFinite, nearest.le_value finite_z reach⟩
      · exact .inl (rounds.infinite large)

/-- Exact up to `2 ^ 53`, and no less than that beyond. -/
structure Carries (n : ℕ) (x : Float) : Prop where
  reaches : Reaches (min n (2 ^ 53) : ℕ) x
  exact : n ≤ 2 ^ 53 → x.isFinite = true ∧ value x = n

theorem Carries.of_value {n : ℕ} {x : Float} (finite : x.isFinite = true) (same : value x = n) :
    Carries n x where
  reaches := .inr ⟨finite, same ▸ Nat.cast_le.mpr (Nat.min_le_left n _)⟩
  exact := fun _ => ⟨finite, same⟩

private theorem min_mul_le {m n c : ℕ} (m_pos : 0 < m) (n_pos : 0 < n) (c_pos : 0 < c) :
    min (m * n) c ≤ min m c * min n c := by
  rcases le_total m c with m_le | c_le
  · rw [min_eq_left m_le]
    rcases le_total n c with n_le | c_le
    · rw [min_eq_left n_le]
      exact min_le_left _ _
    · rw [min_eq_right c_le]
      exact (min_le_right _ _).trans (Nat.le_mul_of_pos_left c m_pos)
  · rw [min_eq_right c_le]
    exact (min_le_right _ _).trans (Nat.le_mul_of_pos_right c (lt_min n_pos c_pos))

theorem Carries.mul {m n : ℕ} {x y : Float} (m_pos : 0 < m) (n_pos : 0 < n) (hx : Carries m x)
    (hy : Carries n y) : Carries (m * n) (x * y) where
  reaches := by
    refine hx.reaches.mul hy.reaches ?_ ?_ ?_ ?_
    · exact_mod_cast lt_min m_pos (by decide)
    · exact_mod_cast lt_min n_pos (by decide)
    · exact_mod_cast min_mul_le m_pos n_pos (by decide)
    · intro _
      exact exists_value_eq_natCast (Nat.min_le_right _ _)
  exact := by
    intro le
    obtain ⟨finite_x, value_x⟩ := hx.exact ((Nat.le_mul_of_pos_right m n_pos).trans le)
    obtain ⟨finite_y, value_y⟩ := hy.exact ((Nat.le_mul_of_pos_left n m_pos).trans le)
    have rounds := rounds_mul finite_x finite_y (value_x ▸ Nat.cast_pos.mpr m_pos)
      (value_y ▸ Nat.cast_pos.mpr n_pos)
    rw [value_x, value_y, ← Nat.cast_mul] at rounds
    have small : m * n < 2 ^ 54 := by omega
    have nearest := rounds.nearest (natCast_lt_overflow small (by omega))
    obtain ⟨z, finite_z, value_z⟩ := exists_value_eq_natCast le
    exact ⟨nearest.isFinite, nearest.value_eq finite_z value_z⟩

section Zero

variable {x : Float}

theorem carries_zero_mul (finite : x.isFinite = true) : Carries 0 (Float.ofNat 0 * x) := by
  have unpacked := isUnpacked_unpack finite
  obtain ⟨sign, zero⟩ : ∃ sign, (Float.ofNat 0 * x).toModel.unpack = .zero sign := by
    change ∃ sign, (Float.Model.pack (UnpackedFloat.mul .binary64 (.zero .positive)
      x.toModel.unpack)).unpack = _
    generalize x.toModel.unpack = a at unpacked
    cases unpacked <;> exact ⟨_, unpack_pack_zero _⟩
  refine .of_value (congrArg UnpackedFloat.isFinite zero) ?_
  rw [Nat.cast_zero]
  exact congrArg valueOf zero

theorem not_zero_mul_lt (infinite : IsInfinite x) (y : Float) : ¬Float.ofNat 0 * x < y := by
  have unpacked : (Float.ofNat 0 * x).isNaN = true := by
    change (Float.Model.pack (UnpackedFloat.mul .binary64 (.zero .positive)
      x.toModel.unpack)).unpack.isNaN = true
    rw [show x.toModel.unpack = .infinity .positive from infinite]
    rfl
  rw [lt_iff_rank, unpacked]
  simp

end Zero

structure IsWithin (v : ℚ) (x : Float) : Prop where
  isFinite : x.isFinite = true
  one_le : 1 ≤ value x
  le : value x ≤ v

theorem IsWithin.mul {u v : ℚ} {x y : Float} (hx : IsWithin u x) (hy : IsWithin v y)
    (small : u * v < overflow) (held : ∃ z : Float, z.isFinite = true ∧ value z = u * v) :
    IsWithin (u * v) (x * y) := by
  have rounds := rounds_mul hx.isFinite hy.isFinite (zero_lt_one.trans_le hx.one_le)
    (zero_lt_one.trans_le hy.one_le)
  have le : value x * value y ≤ u * v :=
    mul_le_mul hx.le hy.le (zero_le_one.trans hy.one_le) ((zero_le_one.trans hx.one_le).trans hx.le)
  have nearest := rounds.nearest (le.trans_lt small)
  obtain ⟨z, finite_z, value_z⟩ := held
  obtain ⟨one, finite_one, value_one⟩ := exists_value_eq_natCast (n := 1) (by decide)
  rw [Nat.cast_one] at value_one
  refine ⟨nearest.isFinite, ?_, ?_⟩
  · rw [← value_one]
    refine nearest.le_value finite_one (value_one ▸ ?_)
    exact one_le_mul_of_one_le_of_one_le hx.one_le hy.one_le
  · rw [← value_z]
    exact nearest.value_le finite_z (value_z ▸ le)

end Tollgate.Number
