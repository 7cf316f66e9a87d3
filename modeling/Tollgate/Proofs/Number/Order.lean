import Tollgate.Proofs.Number.Amount
import Tollgate.Proofs.Number.Nearest

/-!
# The order of finite doubles

Finite doubles are compared by the numbers they stand for.  Negation keeps them
finite and negates their values.
-/

namespace Tollgate.Number

open Float.Model Float.Model.UnpackedFloat

inductive IsUnpacked : UnpackedFloat → Prop
  | zero (sign : Sign) : IsUnpacked (.zero sign)
  | finite (sign : Sign) {m : ℕ} {e : ℤ} (canonical : IsCanonical m e) (fits : e ≤ 971) :
      IsUnpacked (.finite sign m e canonical.pos)

theorem isUnpacked_unpack {x : Float} (finite : x.isFinite = true) :
    IsUnpacked x.toModel.unpack := by
  have finite : x.toModel.unpack.isFinite = true := finite
  cases shape : x.toModel.unpack with
  | notANumber => rw [shape] at finite; cases finite
  | infinity sign => rw [shape] at finite; cases finite
  | zero sign => exact .zero sign
  | finite sign m e pos =>
      obtain ⟨canonical, fits⟩ := isCanonical_of_unpack shape
      exact .finite sign canonical fits

theorem isNaN_of_isFinite {x : Float} (finite : x.isFinite = true) : x.isNaN = false := by
  have unpacked := isUnpacked_unpack finite
  change x.toModel.unpack.isNaN = false
  generalize x.toModel.unpack = a at unpacked
  cases unpacked <;> rfl

private theorem key_finite_lt_iff {m n : ℕ} {e f : ℤ} {hm : 0 < m} {hn : 0 < n} :
    key (.finite .positive m e hm) < key (.finite .positive n f hn) ↔ e < f ∨ e = f ∧ m < n := by
  simp [key, Prod.Lex.toLex_lt_toLex]

private theorem key_negative_lt_iff {m n : ℕ} {e f : ℤ} {hm : 0 < m} {hn : 0 < n} :
    key (.finite .negative m e hm) < key (.finite .negative n f hn) ↔ f < e ∨ f = e ∧ n < m := by
  simp [key, Prod.Lex.toLex_lt_toLex, eq_comm]

private theorem mul_two_zpow_lt {m n : ℕ} {e f : ℤ} (hm : IsCanonical m e) (hn : IsCanonical n f)
    (lt : e < f ∨ e = f ∧ m < n) : (m : ℚ) * 2 ^ e < n * 2 ^ f := by
  rcases lt with lt | ⟨rfl, lt⟩
  · have least := hm.le
    have full : (2 : ℚ) ^ 52 ≤ n := by exact_mod_cast hn.full.resolve_right (by omega)
    have below : (m : ℚ) < 2 ^ 53 := by exact_mod_cast hm.lt
    calc (m : ℚ) * 2 ^ e
      _ < 2 ^ 53 * 2 ^ e := by gcongr
      _ = 2 ^ 52 * 2 ^ (e + 1) := by rw [zpow_add_one₀ two_ne_zero]; ring
      _ ≤ n * 2 ^ f := by gcongr; exacts [one_le_two, lt]
  · gcongr

theorem IsCanonical.value_pos {m : ℕ} {e : ℤ} (h : IsCanonical m e) : (0 : ℚ) < m * 2 ^ e :=
  mul_pos (Nat.cast_pos.mpr h.pos) (by positivity)

private theorem valueOf_lt_of_key_lt {a b : UnpackedFloat} (ha : IsUnpacked a) (hb : IsUnpacked b)
    (lt : key a < key b) : valueOf a < valueOf b := by
  cases ha with
  | zero s =>
      cases hb with
      | zero t => simp [key] at lt
      | finite t hn fits =>
          cases t with
          | positive => exact hn.value_pos
          | negative => simp [key, Prod.Lex.toLex_lt_toLex] at lt
  | finite s hm fits =>
      cases hb with
      | zero t =>
          cases s with
          | positive => simp [key, Prod.Lex.toLex_lt_toLex] at lt
          | negative => exact neg_lt_zero.mpr hm.value_pos
      | finite t hn fits' =>
          cases s <;> cases t
          · exact neg_lt_neg (mul_two_zpow_lt hn hm (key_negative_lt_iff.mp lt))
          · exact (neg_lt_zero.mpr hm.value_pos).trans hn.value_pos
          · simp [key, Prod.Lex.toLex_lt_toLex] at lt
          · exact mul_two_zpow_lt hm hn (key_finite_lt_iff.mp lt)

private theorem valueOf_eq_of_key_eq {a b : UnpackedFloat} (ha : IsUnpacked a) (hb : IsUnpacked b)
    (same : key a = key b) : valueOf a = valueOf b := by
  cases ha with
  | zero s =>
      cases hb with
      | zero t => rfl
      | finite t hn fits => cases t <;> simp [key] at same
  | finite s hm fits =>
      cases hb with
      | zero t => cases s <;> simp [key] at same
      | finite t hn fits' => cases s <;> cases t <;> simp [key] at same <;> simp [valueOf, same]

section

variable {x y : Float}

theorem rank_lt_iff_value (hx : x.isFinite = true) (hy : y.isFinite = true) :
    rank x < rank y ↔ value x < value y := by
  have ux := isUnpacked_unpack hx
  have uy := isUnpacked_unpack hy
  refine ⟨valueOf_lt_of_key_lt ux uy, fun lt => ?_⟩
  rcases lt_trichotomy (rank x) (rank y) with below | same | above
  · exact below
  · exact absurd (valueOf_eq_of_key_eq ux uy same) lt.ne
  · exact absurd (valueOf_lt_of_key_lt uy ux above) lt.not_gt

theorem rank_eq_iff_value (hx : x.isFinite = true) (hy : y.isFinite = true) :
    rank x = rank y ↔ value x = value y := by
  rw [eq_iff_le_not_lt, eq_iff_le_not_lt, ← not_lt, ← not_lt, rank_lt_iff_value hx hy,
    rank_lt_iff_value hy hx]

theorem lt_iff_value (hx : x.isFinite = true) (hy : y.isFinite = true) :
    x < y ↔ value x < value y := by
  rw [lt_iff_rank, rank_lt_iff_value hx hy]
  simp only [isNaN_of_isFinite hx, isNaN_of_isFinite hy, true_and]

theorem beq_iff_value (hx : x.isFinite = true) (hy : y.isFinite = true) :
    (x == y) = true ↔ value x = value y := by
  rw [← rank_eq_iff_value hx hy]
  change (x.toModel.unpack.compare y.toModel.unpack == some .eq) = true ↔ _
  rw [compare_eq (isNaN_of_isFinite hx) (isNaN_of_isFinite hy)]
  rw [beq_iff_eq, Option.some.injEq, compare_eq_iff_eq]
  rfl

end

theorem unpack_neg {x : Float} (finite : x.isFinite = true) :
    (-x).toModel.unpack = x.toModel.unpack.neg := by
  have unpacked := isUnpacked_unpack finite
  change (Float.Model.pack x.toModel.unpack.neg).unpack = _
  generalize x.toModel.unpack = a at unpacked
  cases unpacked with
  | zero sign => exact unpack_pack_zero (-sign)
  | finite sign canonical fits =>
      have packed := unpack_pack_finite (-sign) canonical
      rwa [if_pos fits] at packed

theorem isFinite_neg {x : Float} (finite : x.isFinite = true) : (-x).isFinite = true := by
  have unpacked := isUnpacked_unpack finite
  change (-x).toModel.unpack.isFinite = true
  rw [unpack_neg finite]
  generalize x.toModel.unpack = a at unpacked
  cases unpacked <;> rfl

theorem value_neg {x : Float} (finite : x.isFinite = true) : value (-x) = -value x := by
  have unpacked := isUnpacked_unpack finite
  unfold value
  rw [unpack_neg finite]
  generalize x.toModel.unpack = a at unpacked
  cases unpacked with
  | zero sign => exact neg_zero.symm
  | finite sign canonical fits =>
      cases sign with
      | positive => rfl
      | negative => exact (neg_neg _).symm

end Tollgate.Number
