import Mathlib

/-!
# Rounding to doubles

A finite double has one canonical form: a mantissa of at most 53 bits and the
least exponent that this allows.  Packing keeps canonical forms, and a number
that reaches a double is never rounded to less than it.
-/

namespace Tollgate.Number

open Float.Model Float.Model.UnpackedFloat

/-- The mantissa fills its bits unless the exponent is the least one. -/
structure IsCanonical (m : Nat) (e : Int) : Prop where
  pos : 0 < m
  lt : m < 2 ^ 53
  le : -1074 ≤ e
  full : 2 ^ 52 ≤ m ∨ e = -1074

namespace IsCanonical

variable {m : Nat} {e : Int}

theorem log2_le (h : IsCanonical m e) : m.log2 ≤ 52 := by
  have := (Nat.log2_lt h.pos.ne').mpr h.lt
  omega

theorem log2_eq (h : IsCanonical m e) : m.log2 = 52 ∨ e = -1074 := by
  rcases h.full with full | least
  · have := (Nat.le_log2 h.pos.ne').mpr full
    have := h.log2_le
    exact .inl (by omega)
  · exact .inr least

end IsCanonical

@[simp] theorem unpack_pack_notANumber :
    (Float.Model.pack .notANumber).unpack = .notANumber := rfl

@[simp] theorem unpack_pack_infinity (sign : Sign) :
    (Float.Model.pack (.infinity sign)).unpack = .infinity sign := by
  cases sign <;> rfl

@[simp] theorem unpack_pack_zero (sign : Sign) :
    (Float.Model.pack (.zero sign)).unpack = .zero sign := by
  cases sign <;> rfl

private theorem toNat_one_append {m : Nat} (low : 2 ^ 52 ≤ m) (high : m < 2 ^ 53) :
    (1#1 ++ BitVec.ofNat 52 m).toNat = m := by
  rw [BitVec.toNat_append, BitVec.toNat_ofNat, BitVec.toNat_ofNat,
    ← Nat.shiftLeft_add_eq_or_of_lt (Nat.mod_lt _ (by decide)), Nat.shiftLeft_eq]
  omega

private theorem unpack_normal (sign : Sign) {m b : Nat} (low : 2 ^ 52 ≤ m) (high : m < 2 ^ 53)
    (pos : 0 < b) (lt : b < 2047) :
    UnpackedFloat.unpack Format.binary64
        (packComponents Format.binary64 sign (BitVec.ofNat 11 b) (BitVec.ofNat 52 m)) =
      .finite sign m (b - 1075) (by omega) := by
  have ne_ones : BitVec.ofNat 11 b ≠ -1#11 := by
    intro same
    have := congrArg BitVec.toNat same
    simp at this
    omega
  have ne_zero : BitVec.ofNat 11 b ≠ 0#11 := by
    intro same
    have := congrArg BitVec.toNat same
    simp at this
    omega
  have toNat_b : (BitVec.ofNat 11 b).toNat = b := by
    rw [BitVec.toNat_ofNat, Nat.mod_eq_of_lt (by omega)]
  simp only [UnpackedFloat.unpack, unpackExponent_packComponents,
    unpackMantissa_packComponents, unpackSign_packComponents, Sign.ofBitVec_toBitVec, ne_ones,
    ne_zero, if_false, toNat_one_append low high, toNat_b]
  rfl

private theorem unpack_subnormal (sign : Sign) {m : Nat} (pos : 0 < m) (lt : m < 2 ^ 52) :
    UnpackedFloat.unpack Format.binary64
        (packComponents Format.binary64 sign 0#11 (BitVec.ofNat 52 m)) =
      .finite sign m (-1074) pos := by
  have toNat_m : (BitVec.ofNat 52 m).toNat = m := by
    rw [BitVec.toNat_ofNat, Nat.mod_eq_of_lt lt]
  have ne_zero : BitVec.ofNat 52 m ≠ 0#52 := by
    intro same
    have := congrArg BitVec.toNat same
    rw [toNat_m] at this
    simp at this
    omega
  have ne_ones : 0#11 ≠ -1#11 := by decide
  simp only [UnpackedFloat.unpack, unpackExponent_packComponents,
    unpackMantissa_packComponents, unpackSign_packComponents, Sign.ofBitVec_toBitVec, ne_ones,
    if_false, if_true, ne_zero, dite_false, toNat_m]
  rfl

theorem unpack_pack_finite (sign : Sign) {m : Nat} {e : Int} (h : IsCanonical m e) :
    (Float.Model.pack (.finite sign m e h.pos)).unpack =
      if e ≤ 971 then .finite sign m e h.pos else .infinity sign := by
  have bits : (Float.Model.pack (.finite sign m e h.pos)).unpack =
      UnpackedFloat.unpack Format.binary64
        (if 2 ^ 11 ≤ (e + 1075).toNat + 1 then packedInfinity Format.binary64 sign
        else if m.log2 + 1 = 53 then
          packComponents Format.binary64 sign (BitVec.ofNat 11 (e + 1075).toNat)
            (BitVec.ofNat 52 m)
        else packComponents Format.binary64 sign 0#11 (BitVec.ofNat 52 m)) := by
    rw [show e + 1075 = e + (1023 : Nat) + (52 : Nat) by push_cast; ring]
    rfl
  have least := h.le
  rw [bits]
  by_cases fits : e ≤ 971
  · rw [if_pos fits, if_neg (by omega)]
    by_cases normal : m.log2 + 1 = 53
    · rw [if_pos normal, unpack_normal sign ((Nat.le_log2 h.pos.ne').mp (by omega)) h.lt
        (by omega) (by omega)]
      congr 1
      omega
    · obtain rfl : e = -1074 := h.log2_eq.resolve_left (by omega)
      have := h.log2_le
      rw [if_neg normal, unpack_subnormal sign h.pos ((Nat.log2_lt h.pos.ne').mp (by omega))]
  · rw [if_neg fits, if_pos (by omega)]
    exact unpack_pack_infinity sign

theorem isCanonical_of_unpack {f : Float.Model} {sign : Sign} {m : Nat} {e : Int}
    {pos : 0 < m} (h : f.unpack = .finite sign m e pos) : IsCanonical m e ∧ e ≤ 971 := by
  unfold Float.Model.unpack UnpackedFloat.unpack at h
  dsimp only at h
  let fraction : BitVec 52 := @unpackMantissa Format.binary64 f.toBits.toBitVec
  let biased : BitVec 11 := @unpackExponent Format.binary64 f.toBits.toBitVec
  have fraction_lt : fraction.toNat < 2 ^ 52 := fraction.isLt
  have biased_lt : biased.toNat < 2 ^ 11 := biased.isLt
  have unit : (Format.binary64.exponentBias : Int) + (52 : Nat) = 1075 := rfl
  split at h
  · split at h <;> cases h
  · next ne_ones =>
      have ne_ones : biased.toNat ≠ 2047 := fun same => ne_ones (BitVec.eq_of_toNat_eq same)
      split at h
      · next zero =>
          have zero : biased.toNat = 0 := congrArg BitVec.toNat zero
          split at h
          · cases h
          · injection h with _ same_m same_e
            rw [unit, zero] at same_e
            subst same_m same_e
            exact ⟨⟨pos, by omega, by omega, .inr (by omega)⟩, by omega⟩
      · next ne_zero =>
          have ne_zero : biased.toNat ≠ 0 := fun same => ne_zero (BitVec.eq_of_toNat_eq same)
          injection h with _ same_m same_e
          rw [unit] at same_e
          have same_e : (biased.toNat : Int) - 1075 = e := same_e
          have whole : (1#1 ++ fraction).toNat = 2 ^ 52 + fraction.toNat := by
            rw [BitVec.toNat_append, ← Nat.shiftLeft_add_eq_or_of_lt fraction_lt]
            rfl
          have same_m : 2 ^ 52 + fraction.toNat = m := whole ▸ same_m
          exact ⟨⟨pos, by omega, by omega, .inl (by omega)⟩, by omega⟩

theorem mantissa_shiftRight (em : ExtendedMantissa) (n : Nat) :
    (em >>> n).mantissa = em.mantissa / 2 ^ n := by
  change (n.repeat ExtendedMantissa.shiftRightOne em).mantissa = _
  induction n with
  | zero => simp [Nat.repeat]
  | succ n ih =>
      change (n.repeat ExtendedMantissa.shiftRightOne em).mantissa / 2 = _
      rw [ih, Nat.div_div_eq_div_mul, Nat.pow_succ]

theorem roundedMantissa_bounds (em : ExtendedMantissa) :
    em.mantissa ≤ em.roundedMantissa ∧ em.roundedMantissa ≤ em.mantissa + 1 := by
  rcases em with ⟨m, round, sticky⟩
  cases round <;> cases sticky <;>
    simp [ExtendedMantissa.roundedMantissa, ExtendedMantissa.accuracy,
      Accuracy.roundToNearestEven]
  omega

def target (m : Nat) (e : Int) : Int := max (m.log2 + e - 52) (-1074)

theorem log2_mul_two_pow {m : Nat} (pos : 0 < m) (n : Nat) : (m * 2 ^ n).log2 = m.log2 + n := by
  induction n with
  | zero => simp
  | succ n ih =>
      rw [pow_succ', Nat.mul_left_comm, Nat.log2_two_mul (by positivity), ih, Nat.add_assoc]

theorem targetExponent_eq (m : Nat) (e : Int) :
    Format.binary64.targetExponent (totalExponent m e) = target m e := by
  simp only [Format.targetExponent, totalExponent, Format.mantissaBits, Format.minExponent,
    target]
  norm_num
  omega

private theorem target_le_of_lt {m : Nat} {e : Int} (lt : m < 2 ^ 53) (le : -1074 ≤ e) :
    target m e ≤ e := by
  have : m.log2 ≤ 52 := by
    rcases Nat.eq_zero_or_pos m with rfl | pos
    · simp
    · have := (Nat.log2_lt pos.ne').mpr lt
      omega
  unfold target
  omega

theorem IsCanonical.target_eq {m : Nat} {e : Int} (h : IsCanonical m e) : target m e = e := by
  have := h.log2_eq
  have := h.le
  have := target_le_of_lt h.lt h.le
  unfold target at *
  omega

@[simp] theorem mantissa_ofMantissaAndAccuracy (m : Nat) (accuracy : Accuracy) :
    (ExtendedMantissa.ofMantissaAndAccuracy m accuracy).mantissa = m := by
  cases accuracy with
  | exact => rfl
  | inexact side => cases side <;> rfl

theorem shiftToTargetExponent_eq (m : Nat) {e : Int} (accuracy : Accuracy) (le : e ≤ target m e) :
    shiftToTargetExponent Format.binary64 m e accuracy =
      (ExtendedMantissa.ofMantissaAndAccuracy m accuracy >>> (target m e - e).toNat,
        target m e) := by
  unfold shiftToTargetExponent shiftToExponent
  rw [targetExponent_eq]
  simp only [Prod.mk.injEq, true_and]
  omega

theorem shift_rounded {r : Nat} {e : Int} (h : IsCanonical r e ∨ r = 2 ^ 53 ∧ -1074 ≤ e) :
    ∃ (em : ExtendedMantissa) (e' : Int), IsCanonical em.mantissa e' ∧
      shiftToTargetExponent Format.binary64 r e .exact = (em, e') ∧
      (e' = e ∧ em.mantissa = r ∨ e' = e + 1 ∧ r = 2 ^ 53 ∧ em.mantissa = 2 ^ 52) := by
  rcases h with canonical | ⟨rfl, least⟩
  · have same := canonical.target_eq
    have shifted := shiftToTargetExponent_eq r .exact (le_of_eq same.symm)
    rw [same, sub_self] at shifted
    exact ⟨_, e, canonical, shifted, .inl ⟨rfl, rfl⟩⟩
  · have next : target (2 ^ 53) e = e + 1 := by
      unfold target
      rw [Nat.log2_two_pow]
      omega
    have shifted :=
      shiftToTargetExponent_eq (2 ^ 53) .exact (show e ≤ target (2 ^ 53) e by omega)
    rw [next, show (e + 1 - e).toNat = 1 by omega] at shifted
    refine ⟨_, e + 1, ⟨?_, ?_, by omega, .inl ?_⟩, shifted, .inr ⟨rfl, rfl, ?_⟩⟩ <;>
      rw [mantissa_shiftRight, mantissa_ofMantissaAndAccuracy] <;> omega

theorem kept_bounds {m : Nat} {e : Int} (le : e ≤ target m e) :
    m / 2 ^ (target m e - e).toNat < 2 ^ 53 ∧
      (2 ^ 52 ≤ m / 2 ^ (target m e - e).toNat ∨ target m e = -1074) := by
  constructor
  · rw [Nat.div_lt_iff_lt_mul (by positivity), ← pow_add]
    refine lt_of_lt_of_le Nat.lt_log2_self (Nat.pow_le_pow_right (by decide) ?_)
    unfold target
    omega
  · by_cases least : target m e = -1074
    · exact .inr least
    · left
      have pos : m ≠ 0 := by
        rintro rfl
        unfold target at least le
        rw [Nat.log2_zero] at least le
        omega
      rw [Nat.le_div_iff_mul_le (by positivity), ← pow_add]
      refine le_trans (Nat.pow_le_pow_right (by decide) ?_) (Nat.log2_self_le pos)
      unfold target at least le ⊢
      omega

theorem exists_round (sign : Sign) {m : Nat} {e : Int} (le : e ≤ target m e)
    (kept_pos : 0 < m / 2 ^ (target m e - e).toNat) :
    let kept := m / 2 ^ (target m e - e).toNat
    ∃ (m' : Nat) (e' : Int) (canonical : IsCanonical m' e'),
      round Format.binary64 sign m e = .finite sign m' e' canonical.pos ∧
      (e' = target m e ∧ kept ≤ m' ∧ m' ≤ kept + 1 ∨
        e' = target m e + 1 ∧ 2 ^ 53 ≤ kept + 1) := by
  have shifted := shiftToTargetExponent_eq m .exact le
  obtain ⟨kept_lt, kept_full⟩ := kept_bounds le
  set t := target m e with t_def
  set em := ExtendedMantissa.ofMantissaAndAccuracy m .exact >>> (t - e).toNat
  have mantissa : em.mantissa = m / 2 ^ (t - e).toNat := mantissa_shiftRight _ _
  rw [← mantissa] at kept_lt kept_full kept_pos ⊢
  have rounded := roundedMantissa_bounds em
  have least : -1074 ≤ t := le_max_right _ _
  have either : IsCanonical em.roundedMantissa t ∨
      em.roundedMantissa = 2 ^ 53 ∧ -1074 ≤ t := by
    rcases Nat.lt_or_ge em.roundedMantissa (2 ^ 53) with lt | ge
    · exact .inl ⟨by omega, lt, least, by omega⟩
    · exact .inr ⟨by omega, least⟩
  obtain ⟨final, e', canonical, again, bounds⟩ := shift_rounded either
  refine ⟨final.mantissa, e', canonical, ?_, by omega⟩
  unfold UnpackedFloat.round
  rw [targetExponent_eq, ← t_def]
  simp only [decreaseExponent, show (e - t).toNat = 0 by omega, Nat.shiftLeft_zero,
    Nat.cast_zero, sub_zero]
  unfold roundWithAccuracy
  simp only [shifted, again, canonical.pos.ne', dite_false]

theorem round_ge (sign : Sign) {m₀ m : Nat} {e₀ e : Int} (h : IsCanonical m₀ e₀) (le : e ≤ e₀)
    (reach : m₀ * 2 ^ (e₀ - e).toNat ≤ m) :
    ∃ (m' : Nat) (e' : Int) (canonical : IsCanonical m' e'),
      round Format.binary64 sign m e = .finite sign m' e' canonical.pos ∧
      (e₀ < e' ∨ e₀ = e' ∧ m₀ ≤ m') := by
  have pos : 0 < m := lt_of_lt_of_le (Nat.mul_pos h.pos (by positivity)) reach
  have log2_ge : m₀.log2 + (e₀ - e).toNat ≤ m.log2 := by
    rw [← log2_mul_two_pow h.pos, Nat.le_log2 pos.ne']
    exact (Nat.log2_self_le (Nat.mul_pos h.pos (by positivity)).ne').trans reach
  have target_ge : e₀ ≤ target m e := by
    rw [← h.target_eq]
    unfold target
    omega
  have full := (kept_bounds (le_trans le target_ge)).2
  have kept : e₀ < target m e ∨ e₀ = target m e ∧ m₀ ≤ m / 2 ^ (target m e - e).toNat := by
    rcases lt_or_eq_of_le target_ge with lt | same
    · exact .inl lt
    · refine .inr ⟨same, ?_⟩
      rw [Nat.le_div_iff_mul_le (by positivity), ← same]
      exact reach
  have := h.pos
  have := h.le
  obtain ⟨m', e', canonical, rounded, bounds⟩ :=
    exists_round sign (le_trans le target_ge) (by omega)
  exact ⟨m', e', canonical, rounded, by omega⟩

theorem target_aligned {m : Nat} {e : Int} (pos : 0 < m) (le : target m e ≤ e) :
    target (m * 2 ^ (e - target m e).toNat) (target m e) = target m e := by
  have bits := log2_mul_two_pow pos (e - target m e).toNat
  unfold target at bits le ⊢
  omega

private theorem round_aligned (sign : Sign) {m : Nat} {e : Int} (pos : 0 < m)
    (le : target m e ≤ e) : round Format.binary64 sign m e =
      round Format.binary64 sign (m * 2 ^ (e - target m e).toNat) (target m e) := by
  unfold UnpackedFloat.round
  rw [targetExponent_eq, targetExponent_eq, target_aligned pos le]
  simp only [decreaseExponent, sub_self, Int.toNat_zero, pow_zero, Nat.mul_one, Nat.cast_zero,
    sub_zero, Nat.shiftLeft_eq, show e - ((e - target m e).toNat : Int) = target m e by omega]

private theorem round_lt_of_lost (sign : Sign) {m₀ m : Nat} {e₀ e : Int} (h : IsCanonical m₀ e₀)
    (le : e ≤ e₀) (least : -1074 ≤ e) (pos : 0 < m) (lost : e ≤ target m e)
    (below : m < m₀ * 2 ^ (e₀ - e).toNat) :
    ∃ (m' : Nat) (e' : Int) (canonical : IsCanonical m' e'),
      round Format.binary64 sign m e = .finite sign m' e' canonical.pos ∧ e' ≤ e₀ := by
  have log2_le : m.log2 ≤ m₀.log2 + (e₀ - e).toNat := by
    rw [← log2_mul_two_pow h.pos, Nat.le_log2 (by omega)]
    exact (Nat.log2_self_le pos.ne').trans below.le
  have target_le : target m e ≤ e₀ := by
    rw [← h.target_eq]
    unfold target
    omega
  have kept_pos : 0 < m / 2 ^ (target m e - e).toNat := by
    rcases (kept_bounds lost).2 with full | same
    · omega
    · obtain rfl : e = -1074 := by omega
      simpa [same] using pos
  have kept_lt : target m e = e₀ → m / 2 ^ (target m e - e).toNat < m₀ := by
    intro same
    rw [same]
    exact Nat.div_lt_of_lt_mul (by rwa [Nat.mul_comm])
  have := h.lt
  obtain ⟨m', e', canonical, rounded, bounds⟩ := exists_round sign lost kept_pos
  exact ⟨m', e', canonical, rounded, by omega⟩

theorem round_lt (sign : Sign) {m₀ m : Nat} {e₀ e : Int} (h : IsCanonical m₀ e₀) (le : e ≤ e₀)
    (least : -1074 ≤ e) (pos : 0 < m) (below : m < m₀ * 2 ^ (e₀ - e).toNat) :
    ∃ (m' : Nat) (e' : Int) (canonical : IsCanonical m' e'),
      round Format.binary64 sign m e = .finite sign m' e' canonical.pos ∧ e' ≤ e₀ := by
  rcases le_total e (target m e) with lost | fits
  · exact round_lt_of_lost sign h le least pos lost below
  · rw [round_aligned sign pos fits]
    have same := target_aligned pos fits
    have bound : -1074 ≤ target m e := le_max_right _ _
    refine round_lt_of_lost sign h (fits.trans le) bound (by positivity) same.ge ?_
    calc m * 2 ^ (e - target m e).toNat
      _ < m₀ * 2 ^ (e₀ - e).toNat * 2 ^ (e - target m e).toNat :=
          Nat.mul_lt_mul_of_pos_right below (by positivity)
      _ = m₀ * 2 ^ (e₀ - target m e).toNat := by
          rw [Nat.mul_assoc, ← pow_add]
          congr 2
          omega

end Tollgate.Number
