import Tollgate.Proofs.Number.Numeral
import Tollgate.Proofs.Number.Order

/-!
# Computed numbers

Writing a double as a JSON number and reading it back keeps its value.  Only
the sign of a zero can be lost, and what is written for a sum does not depend
on it: zeros of either sign are written as the integer zero.
-/

namespace Tollgate

namespace Number

open Float.Model Float.Model.UnpackedFloat

variable {x y z : Float}

def IsZero (x : Float) : Prop := ∃ sign, x.toModel.unpack = .zero sign

theorem isZero_of_value (finite : x.isFinite = true) (zero : value x = 0) : IsZero x := by
  have unpacked := isUnpacked_unpack finite
  unfold value at zero
  unfold IsZero
  generalize x.toModel.unpack = a at unpacked zero
  cases unpacked with
  | zero sign => exact ⟨sign, rfl⟩
  | finite sign canonical fits =>
      have pos := canonical.value_pos
      cases sign with
      | positive => exact absurd zero pos.ne'
      | negative => exact absurd (neg_eq_zero.mp zero) pos.ne'

private theorem unpack_eq_of_value (hx : x.isFinite = true) (hy : y.isFinite = true)
    (same : value x = value y) (nonzero : value x ≠ 0) : x.toModel.unpack = y.toModel.unpack := by
  have same_key : key x.toModel.unpack = key y.toModel.unpack := (rank_eq_iff_value hx hy).mpr same
  have ux := isUnpacked_unpack hx
  have uy := isUnpacked_unpack hy
  unfold value at same nonzero
  generalize x.toModel.unpack = a at *
  generalize y.toModel.unpack = b at *
  cases ux with
  | zero sign => exact absurd rfl nonzero
  | finite s hm fits =>
      cases uy with
      | zero sign => exact absurd same nonzero
      | finite t hn fits' => cases s <;> cases t <;> simp [key] at same_key <;> simp [same_key]

private theorem add_eq (x z : Float) : x + z = .ofModel (Float.Model.pack
    (UnpackedFloat.add .binary64 x.toModel.unpack z.toModel.unpack)) := rfl

theorem unpack_add (x z : Float) : (x + z).toModel.unpack = (Float.Model.pack
    (UnpackedFloat.add .binary64 x.toModel.unpack z.toModel.unpack)).unpack := rfl

private theorem IsZero.add (hx : IsZero x) (hz : IsZero z) : IsZero (x + z) := by
  obtain ⟨s, zero_x⟩ := hx
  obtain ⟨t, zero_z⟩ := hz
  unfold IsZero
  rw [unpack_add, zero_x, zero_z]
  cases s <;> cases t <;> exact ⟨_, unpack_pack_zero _⟩

theorem add_of_value_eq (hx : x.isFinite = true) (hy : y.isFinite = true)
    (same : value x = value y) (z : Float) :
    x + z = y + z ∨ IsZero (x + z) ∧ IsZero (y + z) := by
  by_cases zero : value x = 0
  · have zero_x := isZero_of_value hx zero
    have zero_y := isZero_of_value hy (same ▸ zero)
    cases shape : z.toModel.unpack with
    | zero sign => exact .inr ⟨zero_x.add ⟨sign, shape⟩, zero_y.add ⟨sign, shape⟩⟩
    | notANumber | infinity | finite =>
        obtain ⟨s, zero_x⟩ := zero_x
        obtain ⟨t, zero_y⟩ := zero_y
        left
        rw [add_eq, add_eq, shape, zero_x, zero_y]
        rfl
  · left
    rw [add_eq, add_eq, unpack_eq_of_value hx hy same zero]

theorem isFinite_add (h : x.isFinite = false) (z : Float) : (x + z).isFinite = false := by
  have unbounded : x.toModel.unpack.isFinite = false := h
  change (x + z).toModel.unpack.isFinite = false
  rw [unpack_add]
  cases shape : x.toModel.unpack with
  | zero | finite => rw [shape] at unbounded; cases unbounded
  | notANumber => exact congrArg UnpackedFloat.isFinite unpack_pack_notANumber
  | infinity s =>
      cases z.toModel.unpack with
      | notANumber => exact congrArg UnpackedFloat.isFinite unpack_pack_notANumber
      | infinity t => cases s <;> cases t <;> rfl
      | zero | finite => exact congrArg UnpackedFloat.isFinite (unpack_pack_infinity s)

end Number

namespace Json.Number

open Tollgate.Number

theorem isNearest_ofNat {n : ℕ} (lt : n < 2 ^ 65) : IsNearest n (Float.ofNat n) :=
  (rounds_ofNat n).nearest (natCast_lt_overflow lt (by omega))

theorem isFinite_toFloat (n : Json.Number) : n.toFloat.isFinite = true := by
  cases n with
  | float x finite => exact finite
  | integer n inRange =>
      cases n with
      | ofNat n =>
          exact (isNearest_ofNat (by simp only [Int.ofNat_eq_natCast] at inRange; omega)).isFinite
      | negSucc n => exact isFinite_neg (isNearest_ofNat (by omega)).isFinite

theorem value_ofInt_negSucc {n : ℕ} (finite : (Float.ofNat (n + 1)).isFinite = true) :
    value (Float.ofInt (.negSucc n)) = -value (Float.ofNat (n + 1)) := value_neg finite

private theorem value_ofInt {n : ℤ} (le : n.natAbs ≤ 2 ^ 53) : value (Float.ofInt n) = n := by
  cases n with
  | ofNat n => exact (value_ofNat le).2.trans (Int.cast_natCast n).symm
  | negSucc n =>
      obtain ⟨finite, same⟩ := value_ofNat (n := n + 1) le
      rw [value_ofInt_negSucc finite, same]
      exact (Int.cast_negSucc n).symm

theorem value_toFloat {x : Float} {n : Json.Number} (h : ofComputed? x = some n) :
    value n.toFloat = value x := by
  unfold ofComputed? at h
  split at h
  · next k whole =>
      obtain ⟨same, small⟩ := whole?_eq_some whole
      unfold ofInt? at h
      split at h
      · cases h
        exact (value_ofInt small.le).trans same.symm
      · cases h
  · unfold ofFloat? at h
    split at h
    · cases h
      rfl
    · cases h

theorem value_ofNat_eq_zero_iff {n : ℕ} (lt : n < 2 ^ 65) : value (Float.ofNat n) = 0 ↔ n = 0 := by
  constructor
  · intro zero
    by_contra nonzero
    obtain ⟨one, finite_one, value_one⟩ := exists_value_eq_natCast (n := 1) (by decide)
    have one_le : value one ≤ n := by
      rw [value_one]
      exact_mod_cast Nat.one_le_iff_ne_zero.mpr nonzero
    have reach := (isNearest_ofNat lt).le_value finite_one one_le
    rw [value_one, zero, Nat.cast_one] at reach
    exact absurd reach one_pos.not_ge
  · rintro rfl
    exact (value_ofNat (Nat.zero_le _)).2.trans Nat.cast_zero

private theorem value_toFloat_eq_zero_iff (n : Json.Number) :
    value n.toFloat = 0 ↔ n.toRat = 0 := by
  cases n with
  | float x finite => rfl
  | integer n inRange =>
      cases n with
      | ofNat n =>
          have lt : n < 2 ^ 65 := by simp only [Int.ofNat_eq_natCast] at inRange; omega
          exact (value_ofNat_eq_zero_iff lt).trans (by simp [toRat])
      | negSucc n =>
          have lt : n + 1 < 2 ^ 65 := by omega
          change value (Float.ofInt (.negSucc n)) = 0 ↔ _
          rw [value_ofInt_negSucc (isNearest_ofNat lt).isFinite, neg_eq_zero,
            value_ofNat_eq_zero_iff lt, toRat, Int.cast_eq_zero]
          simp

theorem beq_zero_iff (n : Json.Number) : (n.toFloat == 0.0) = true ↔ n.toRat = 0 :=
  (beq_iff_value n.isFinite_toFloat rfl).trans n.value_toFloat_eq_zero_iff

private theorem ofComputed?_of_isZero {x : Float} (zero : IsZero x) : ofComputed? x = ofInt? 0 := by
  obtain ⟨sign, zero⟩ := zero
  unfold ofComputed? whole?
  rw [zero]

/-- A running sum may be written and read back before it goes on. -/
theorem ofComputed?_add {x : Float} {n : Json.Number} (h : ofComputed? x = some n) (z : Float) :
    ofComputed? (n.toFloat + z) = ofComputed? (x + z) := by
  rcases add_of_value_eq n.isFinite_toFloat (isFinite_of_ofComputed? h) (value_toFloat h) z
    with same | ⟨zero, zero'⟩
  · rw [same]
  · rw [ofComputed?_of_isZero zero, ofComputed?_of_isZero zero']

end Json.Number

end Tollgate
