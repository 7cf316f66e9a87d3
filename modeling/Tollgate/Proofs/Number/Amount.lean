import Tollgate.Definition.Settings
import Tollgate.Proofs.Number.Rounding

/-!
# Amounts

The order of doubles is that of their keys, as long as neither is `NaN`.  An
amount is a double that is zero or more; amounts are closed under addition, and
an amount never shrinks when another one is added to it.
-/

namespace Tollgate.Number

open Float.Model Float.Model.UnpackedFloat

/-- Kinds of numbers from negative to positive infinity, then exponent and mantissa. -/
def key : UnpackedFloat → Int ×ₗ Int ×ₗ Int
  | .infinity .negative => toLex (-2, toLex (0, 0))
  | .finite .negative m e _ => toLex (-1, toLex (-e, -m))
  | .zero _ => toLex (0, toLex (0, 0))
  | .finite .positive m e _ => toLex (1, toLex (e, m))
  | .infinity .positive => toLex (2, toLex (0, 0))
  | .notANumber => toLex (3, toLex (0, 0))

theorem compare_key (k k' e e' m m' : Int) :
    compare (toLex (k, toLex (e, m))) (toLex (k', toLex (e', m'))) =
      (compare k k').then ((compare e e').then (compare m m')) := rfl

private theorem compare_neg (a b : Int) : compare (-a) (-b) = (compare a b).swap := by
  rcases lt_trichotomy a b with h | h | h
  · rw [compare_lt_iff_lt.mpr h, Ordering.swap_lt, compare_gt_iff_gt]
    omega
  · simp [h]
  · rw [compare_gt_iff_gt.mpr h, Ordering.swap_gt, compare_lt_iff_lt]
    omega

private theorem compare_natCast (m n : Nat) : compare (m : Int) n = compare m n := by
  rcases lt_trichotomy m n with h | h | h
  · rw [compare_lt_iff_lt.mpr h, compare_lt_iff_lt]
    omega
  · simp [h]
  · rw [compare_gt_iff_gt.mpr h, compare_gt_iff_gt]
    omega

theorem compare_eq {a b : UnpackedFloat} (ha : a.isNaN = false) (hb : b.isNaN = false) :
    a.compare b = some (compare (key a) (key b)) := by
  cases a with
  | notANumber => cases ha
  | infinity s =>
      cases b with
      | notANumber => cases hb
      | infinity t => cases s <;> cases t <;> rfl
      | zero t => cases s <;> rfl
      | finite t n f _ => cases s <;> cases t <;> rfl
  | zero s =>
      cases b with
      | notANumber => cases hb
      | infinity t => cases t <;> rfl
      | zero t => rfl
      | finite t n f _ => cases t <;> rfl
  | finite s m e _ =>
      cases b with
      | notANumber => cases hb
      | infinity t => cases s <;> cases t <;> rfl
      | zero t => cases s <;> rfl
      | finite t n f _ =>
          cases s <;> cases t
          · simp [UnpackedFloat.compare, key, compare_key, compare_neg, compare_natCast,
              Ordering.swap_then]
          · rfl
          · rfl
          · simp [UnpackedFloat.compare, key, compare_key, compare_natCast]

def rank (x : Float) : Int ×ₗ Int ×ₗ Int := key x.toModel.unpack

theorem compare_none {a b : UnpackedFloat} (h : a.isNaN = true ∨ b.isNaN = true) :
    a.compare b = none := by
  rcases h with h | h
  · cases a <;> first | rfl | cases h
  · cases b <;> cases a <;> first | rfl | cases h

private theorem le_iff_compare (a b : Float) :
    a ≤ b ↔ (a.toModel.unpack.compare b.toModel.unpack).any (·.isLE) = true := by
  change decide (a.toModel ≤ b.toModel) = true ↔ _
  rw [decide_eq_true_iff]
  rfl

private theorem lt_iff_compare (a b : Float) :
    a < b ↔ a.toModel.unpack.compare b.toModel.unpack = some .lt := by
  change decide (a.toModel < b.toModel) = true ↔ _
  rw [decide_eq_true_iff, ← beq_iff_eq]
  rfl

theorem le_iff_rank (a b : Float) :
    a ≤ b ↔ a.isNaN = false ∧ b.isNaN = false ∧ rank a ≤ rank b := by
  rw [le_iff_compare]
  by_cases numbers : a.isNaN = false ∧ b.isNaN = false
  · rw [compare_eq numbers.1 numbers.2]
    simp only [numbers, true_and, Option.any_some]
    exact Ordering.isLE_iff_ne_gt.trans compare_le_iff_le
  · have missing : a.isNaN = true ∨ b.isNaN = true := by
      simpa only [not_and_or, Bool.not_eq_false] using numbers
    rw [compare_none missing]
    simp only [Option.any_none, Bool.false_eq_true, false_iff]
    exact fun h => numbers ⟨h.1, h.2.1⟩

theorem lt_iff_rank (a b : Float) :
    a < b ↔ a.isNaN = false ∧ b.isNaN = false ∧ rank a < rank b := by
  rw [lt_iff_compare]
  by_cases numbers : a.isNaN = false ∧ b.isNaN = false
  · rw [compare_eq numbers.1 numbers.2]
    simp only [numbers, true_and, Option.some.injEq]
    exact compare_lt_iff_lt
  · have missing : a.isNaN = true ∨ b.isNaN = true := by
      simpa only [not_and_or, Bool.not_eq_false] using numbers
    rw [compare_none missing]
    simp only [reduceCtorEq, false_iff]
    exact fun h => numbers ⟨h.1, h.2.1⟩

protected theorem le_of_lt {a b : Float} (h : a < b) : a ≤ b := by
  obtain ⟨ha, hb, lt⟩ := (lt_iff_rank a b).mp h
  exact (le_iff_rank a b).mpr ⟨ha, hb, lt.le⟩

protected theorem le_trans {a b c : Float} (hab : a ≤ b) (hbc : b ≤ c) : a ≤ c := by
  obtain ⟨ha, _, ab⟩ := (le_iff_rank a b).mp hab
  obtain ⟨_, hc, bc⟩ := (le_iff_rank b c).mp hbc
  exact (le_iff_rank a c).mpr ⟨ha, hc, ab.trans bc⟩

protected theorem le_refl {a : Float} (h : a.isNaN = false) : a ≤ a :=
  (le_iff_rank a a).mpr ⟨h, h, le_rfl⟩

protected theorem lt_of_not_le {a b : Float} (ha : a.isNaN = false) (hb : b.isNaN = false)
    (h : ¬b ≤ a) : a < b := by
  rw [le_iff_rank] at h
  exact (lt_iff_rank a b).mpr ⟨ha, hb, not_le.mp fun le => h ⟨hb, ha, le⟩⟩

/-- Zero or more, and possibly infinite. -/
structure IsAmount (x : Float) : Prop where
  isNaN : x.isNaN = false
  le : 0.0 ≤ x

private theorem rank_zero : rank 0.0 = toLex (0, toLex (0, 0)) := rfl

theorem isAmount_zero : IsAmount 0.0 := ⟨rfl, Number.le_refl rfl⟩

theorem IsAmount.of_le {a b : Float} (ha : IsAmount a) (h : a ≤ b) : IsAmount b where
  isNaN := ((le_iff_rank a b).mp h).2.1
  le := Number.le_trans ha.le h

inductive IsUnsigned : UnpackedFloat → Prop
  | zero (sign : Sign) : IsUnsigned (.zero sign)
  | finite {m : Nat} {e : Int} (canonical : IsCanonical m e) (fits : e ≤ 971) :
      IsUnsigned (.finite .positive m e canonical.pos)
  | infinity : IsUnsigned (.infinity .positive)

theorem isUnsigned_unpack {x : Float} (h : IsAmount x) : IsUnsigned x.toModel.unpack := by
  have ge := ((le_iff_rank _ _).mp h.le).2.2
  have number : x.toModel.unpack.isNaN = false := h.isNaN
  rw [rank_zero] at ge
  unfold rank at ge
  cases shape : x.toModel.unpack with
  | notANumber => simp [shape, UnpackedFloat.isNaN] at number
  | infinity s =>
      cases s with
      | positive => exact .infinity
      | negative => simp [shape, key, Prod.Lex.toLex_le_toLex] at ge
  | zero s => exact .zero s
  | finite s m e pos =>
      cases s with
      | positive =>
          obtain ⟨canonical, fits⟩ := isCanonical_of_unpack shape
          exact .finite canonical fits
      | negative => simp [shape, key, Prod.Lex.toLex_le_toLex] at ge

theorem IsUnsigned.pack {x : UnpackedFloat} (h : IsUnsigned x) :
    (Float.Model.pack x).unpack = x := by
  cases h with
  | zero sign => exact unpack_pack_zero sign
  | finite canonical fits => rw [unpack_pack_finite .positive canonical, if_pos fits]
  | infinity => exact unpack_pack_infinity .positive

private theorem IsUnsigned.number {x : UnpackedFloat} (h : IsUnsigned x) : x.isNaN = false := by
  cases h <;> rfl

theorem IsUnsigned.key_zero_le {x : UnpackedFloat} (h : IsUnsigned x) :
    toLex (0, toLex (0, 0)) ≤ key x := by
  cases h <;> simp [key, Prod.Lex.toLex_le_toLex]

private theorem add_finite {m n : Nat} {e f : Int} (hm : 0 < m) (hn : 0 < n) :
    UnpackedFloat.add Format.binary64 (.finite .positive m e hm) (.finite .positive n f hn) =
      round Format.binary64 .positive
        (m * 2 ^ (e - min e f).toNat + n * 2 ^ (f - min e f).toNat) (min e f) := by
  have pos : (0 : Int) < m * 2 ^ (e - min e f).toNat + n * 2 ^ (f - min e f).toNat := by
    positivity
  simp only [UnpackedFloat.add, decreaseExponent, UnpackedFloat.normalize, Sign.apply,
    Nat.shiftLeft_eq, Nat.cast_mul, Nat.cast_pow, Nat.cast_ofNat, compare_gt_iff_gt.mpr pos]
  congr 1

private theorem key_le_add_finite {m n : Nat} {e f : Int} (hm : IsCanonical m e)
    (hn : IsCanonical n f) : let sum := (Float.Model.pack (UnpackedFloat.add Format.binary64
      (.finite .positive m e hm.pos) (.finite .positive n f hn.pos))).unpack
    sum.isNaN = false ∧ key (.finite .positive m e hm.pos) ≤ key sum := by
  obtain ⟨r, g, canonical, rounded, ge⟩ := round_ge .positive hm (min_le_left e f)
    (Nat.le_add_right (m * 2 ^ (e - min e f).toNat) (n * 2 ^ (f - min e f).toNat))
  rw [add_finite hm.pos hn.pos, rounded, unpack_pack_finite .positive canonical]
  split
  · refine ⟨rfl, ?_⟩
    simp only [key, Prod.Lex.toLex_le_toLex, lt_self_iff_false, true_and, false_or]
    omega
  · exact ⟨rfl, by simp [key, Prod.Lex.toLex_le_toLex]⟩

private theorem key_le_add {x y : UnpackedFloat} (hx : IsUnsigned x) (hy : IsUnsigned y) :
    let sum := (Float.Model.pack (UnpackedFloat.add Format.binary64 x y)).unpack
    sum.isNaN = false ∧ key x ≤ key sum := by
  cases hx with
  | zero s =>
      cases hy with
      | zero t => cases s <;> cases t <;> exact ⟨rfl, le_rfl⟩
      | finite canonical fits =>
          have whole := IsUnsigned.finite canonical fits
          exact whole.pack.symm ▸ ⟨whole.number, whole.key_zero_le⟩
      | infinity => exact IsUnsigned.infinity.pack.symm ▸ ⟨rfl, IsUnsigned.infinity.key_zero_le⟩
  | finite canonical fits =>
      cases hy with
      | zero t =>
          have whole := IsUnsigned.finite canonical fits
          exact whole.pack.symm ▸ ⟨whole.number, le_rfl⟩
      | finite canonical' fits' => exact key_le_add_finite canonical canonical'
      | infinity =>
          exact IsUnsigned.infinity.pack.symm ▸ ⟨rfl, by simp [key, Prod.Lex.toLex_le_toLex]⟩
  | infinity =>
      have sum : UnpackedFloat.add Format.binary64 (.infinity .positive) y =
          .infinity .positive := by
        cases hy <;> rfl
      rw [sum]
      exact IsUnsigned.infinity.pack.symm ▸ ⟨rfl, le_rfl⟩

theorem IsAmount.le_add {a b : Float} (ha : IsAmount a) (hb : IsAmount b) : a ≤ a + b := by
  obtain ⟨number, le⟩ := key_le_add (isUnsigned_unpack ha) (isUnsigned_unpack hb)
  exact (le_iff_rank a (a + b)).mpr ⟨ha.isNaN, number, le⟩

theorem IsAmount.add {a b : Float} (ha : IsAmount a) (hb : IsAmount b) : IsAmount (a + b) :=
  ha.of_le (ha.le_add hb)

theorem isAmount_foldl_add {α : Type} (f : α → Float) {members : List α}
    (h : ∀ a ∈ members, IsAmount (f a)) {start : Float} (hs : IsAmount start) :
    IsAmount (members.foldl (fun total a => total + f a) start) := by
  induction members generalizing start with
  | nil => exact hs
  | cons a rest ih =>
      exact ih (fun b hb => h b (List.mem_cons_of_mem a hb))
        (hs.add (h a List.mem_cons_self))

theorem isAmount_of_usable {x : Float} (h : Thresholds.isUnusable x = false) : IsAmount x := by
  simp only [Thresholds.isUnusable, Bool.or_eq_false_iff, Bool.not_eq_false',
    decide_eq_false_iff_not] at h
  obtain ⟨finite, ge⟩ := h
  have number : x.isNaN = false := by
    change x.toModel.unpack.isFinite = true at finite
    change x.toModel.unpack.isNaN = false
    cases shape : x.toModel.unpack <;> simp_all [UnpackedFloat.isNaN, UnpackedFloat.isFinite]
  refine ⟨number, (le_iff_rank _ _).mpr ⟨rfl, number, not_lt.mp fun lt => ge ?_⟩⟩
  exact (lt_iff_rank _ _).mpr ⟨number, rfl, lt⟩

private theorem sub_finite {m n : Nat} {e f : Int} (hm : 0 < m) (hn : 0 < n) :
    UnpackedFloat.sub Format.binary64 (.finite .positive m e hm) (.finite .positive n f hn) =
      normalize Format.binary64
        (m * 2 ^ (e - min e f).toNat - n * 2 ^ (f - min e f).toNat) (min e f) .positive := by
  simp only [UnpackedFloat.sub, decreaseExponent, Sign.apply, Nat.shiftLeft_eq, Nat.cast_mul,
    Nat.cast_pow, Nat.cast_ofNat]

theorem key_finite_le_iff {m n : Nat} {e f : Int} {hm : 0 < m} {hn : 0 < n} :
    key (.finite .positive n f hn) ≤ key (.finite .positive m e hm) ↔ f < e ∨ f = e ∧ n ≤ m := by
  simp [key, Prod.Lex.toLex_le_toLex]

private theorem le_aligned {m n : Nat} {e f : Int} (hm : IsCanonical m e) (hn : IsCanonical n f)
    (le : f < e ∨ f = e ∧ n ≤ m) : n ≤ m * 2 ^ (e - f).toNat := by
  rcases le with lt | ⟨rfl, le⟩
  · have least := hn.le
    have full : 2 ^ 52 ≤ m := hm.full.resolve_right (by omega)
    have shifted : 2 ^ 1 ≤ 2 ^ (e - f).toNat := Nat.pow_le_pow_right (by decide) (by omega)
    calc n
      _ ≤ 2 ^ 52 * 2 ^ 1 := hn.lt.le
      _ ≤ m * 2 ^ (e - f).toNat := Nat.mul_le_mul full shifted
  · simpa using le

private theorem isFinite_sub_finite {m n : Nat} {e f : Int} (hm : IsCanonical m e)
    (hn : IsCanonical n f) (fits : e ≤ 971) (le : f < e ∨ f = e ∧ n ≤ m) :
    (Float.Model.pack (UnpackedFloat.sub Format.binary64 (.finite .positive m e hm.pos)
      (.finite .positive n f hn.pos))).unpack.isFinite = true := by
  have lower : min e f = f := by omega
  have ordered := le_aligned hm hn le
  rw [sub_finite, lower, sub_self, Int.toNat_zero, pow_zero, mul_one]
  rw [show (m : Int) * 2 ^ (e - f).toNat - n = ((m * 2 ^ (e - f).toNat - n : Nat) : Int) by
    push_cast [ordered]; ring]
  rcases Nat.eq_zero_or_pos (m * 2 ^ (e - f).toNat - n) with none_left | left
  · have same : UnpackedFloat.normalize Format.binary64 0 f .positive = .zero .positive := rfl
    rw [none_left, Nat.cast_zero, same, unpack_pack_zero]
    rfl
  · obtain ⟨m', e', canonical, rounded, bound⟩ := round_lt .positive hm (by omega : f ≤ e) hn.le
      left (Nat.sub_lt (by omega) hn.pos)
    have positive : (0 : Int) < ((m * 2 ^ (e - f).toNat - n : Nat) : Int) := by omega
    simp only [UnpackedFloat.normalize, compare_gt_iff_gt.mpr positive, Int.toNat_natCast, rounded]
    rw [unpack_pack_finite .positive canonical, if_pos (bound.trans fits)]
    rfl

theorem IsUnsigned.isFinite_of_key_le {x y : UnpackedFloat} (hy : IsUnsigned y)
    (hx : IsUnsigned x) (le : key y ≤ key x) (finite : x.isFinite = true) : y.isFinite = true := by
  cases hy with
  | zero | finite => rfl
  | infinity =>
      cases hx with
      | infinity => cases finite
      | zero | finite => simp [key, Prod.Lex.toLex_le_toLex] at le

private theorem IsUnsigned.isFinite_sub {x y : UnpackedFloat} (hx : IsUnsigned x)
    (hy : IsUnsigned y) (le : key y ≤ key x) (finite : x.isFinite = true) :
    (Float.Model.pack (UnpackedFloat.sub Format.binary64 x y)).unpack.isFinite = true := by
  cases hy with
  | infinity => cases IsUnsigned.infinity.isFinite_of_key_le hx le finite
  | zero s =>
      cases hx with
      | infinity => cases finite
      | zero t => cases s <;> cases t <;> rfl
      | finite canonical fits => exact (IsUnsigned.finite canonical fits).pack.symm ▸ rfl
  | finite canonical fits =>
      cases hx with
      | infinity => cases finite
      | zero t => simp [key, Prod.Lex.toLex_le_toLex] at le
      | finite canonical' fits' =>
          exact isFinite_sub_finite canonical' canonical fits' (key_finite_le_iff.mp le)

theorem IsAmount.isFinite_of_le {a b : Float} (ha : IsAmount a) (le : a ≤ b)
    (finite : b.isFinite = true) : a.isFinite = true :=
  (isUnsigned_unpack ha).isFinite_of_key_le (isUnsigned_unpack (ha.of_le le))
    ((le_iff_rank a b).mp le).2.2 finite

theorem IsAmount.isFinite_sub {a b : Float} (ha : IsAmount a) (le : a ≤ b)
    (finite : b.isFinite = true) : (b - a).isFinite = true :=
  (isUnsigned_unpack (ha.of_le le)).isFinite_sub (isUnsigned_unpack ha)
    ((le_iff_rank a b).mp le).2.2 finite

end Tollgate.Number
