import Tollgate.Expr.Eval
import Tollgate.Proofs.Number.Computed

/-!
# Comparing numeric values

Numbers and texts that read as a finite number stand for rational numbers, and
the ordering operators compare these.  Equality does as well, unless both sides
are texts: then it is the texts that are compared, so two spellings of one
number are neither equal nor in any order.
-/

namespace Tollgate.Expr

open Number

theorem isFinite_of_numeric {side : Json} {x : Float} (h : side.numeric? = some x) :
    x.isFinite = true := by
  cases side with
  | null | bool | array | object => cases h
  | number n =>
      injection h with same
      exact same ▸ n.isFinite_toFloat
  | string s =>
      have read : Decimal.finite? (Text.trim s) = some x := h
      unfold Decimal.finite? at read
      exact (Option.filter_eq_some_iff.mp read).2

private theorem compareFloats_eq {a b : Float} (ha : a.isFinite = true) (hb : b.isFinite = true) :
    compareFloats a b = some (compare (value a) (value b)) := by
  unfold compareFloats
  simp only [lt_iff_value ha hb, beq_iff_value ha hb, lt_iff_value hb ha]
  rcases lt_trichotomy (value a) (value b) with lt | same | gt
  · rw [if_pos lt, compare_lt_iff_lt.mpr lt]
  · rw [if_neg same.not_lt, if_pos same, compare_eq_iff_eq.mpr same]
  · rw [if_neg gt.not_gt, if_neg gt.ne', if_pos gt, compare_gt_iff_gt.mpr gt]

def Holds (op : Operator) (l r : Json) : Prop := binary op l r = .ok (.bool true)

/-- One of the three relations holds, and the other operators are put together from them. -/
structure Coherent (l r : Json) : Prop where
  one : (Holds .lt l r ∧ ¬Holds .eq l r ∧ ¬Holds .gt l r) ∨
    (¬Holds .lt l r ∧ Holds .eq l r ∧ ¬Holds .gt l r) ∨
    (¬Holds .lt l r ∧ ¬Holds .eq l r ∧ Holds .gt l r)
  le : Holds .le l r ↔ Holds .lt l r ∨ Holds .eq l r
  ge : Holds .ge l r ↔ Holds .gt l r ∨ Holds .eq l r
  ne : Holds .ne l r ↔ ¬Holds .eq l r

theorem holds_iff {op : Operator} {l r : Json} {answer : Bool}
    (h : binary op l r = .ok (.bool answer)) : Holds op l r ↔ answer = true := by
  rw [Holds, h, Except.ok.injEq, Json.bool.injEq]

theorem holds_eq_iff {l r : Json} : Holds .eq l r ↔ equal l r = true := holds_iff rfl

theorem holds_ne_iff {l r : Json} : Holds .ne l r ↔ ¬Holds .eq l r := by
  have answer : binary .ne l r = .ok (.bool !equal l r) := rfl
  rw [holds_eq_iff, holds_iff answer, Bool.not_eq_true', Bool.not_eq_true]

section Numeric

variable {l r : Json} {a b : Float}

theorem ordering_of_numeric (hl : l.numeric? = some a) (hr : r.numeric? = some b) :
    ordering? l r = some (compare (value a) (value b)) := by
  unfold ordering?
  rw [hl, hr]
  exact compareFloats_eq (isFinite_of_numeric hl) (isFinite_of_numeric hr)

theorem holds_lt_iff (hl : l.numeric? = some a) (hr : r.numeric? = some b) :
    Holds .lt l r ↔ value a < value b := by
  rw [holds_iff rfl, ordering_of_numeric hl hr, Option.any_some, Ordering.isLT_iff_eq_lt,
    compare_lt_iff_lt]

theorem holds_gt_iff (hl : l.numeric? = some a) (hr : r.numeric? = some b) :
    Holds .gt l r ↔ value b < value a := by
  rw [holds_iff rfl, ordering_of_numeric hl hr, Option.any_some, Ordering.isGT_iff_eq_gt,
    compare_gt_iff_gt]

theorem holds_le_iff (hl : l.numeric? = some a) (hr : r.numeric? = some b) :
    Holds .le l r ↔ value a ≤ value b := by
  rw [holds_iff rfl, ordering_of_numeric hl hr, Option.any_some, Ordering.isLE_iff_ne_gt]
  exact compare_le_iff_le

theorem holds_ge_iff (hl : l.numeric? = some a) (hr : r.numeric? = some b) :
    Holds .ge l r ↔ value b ≤ value a := by
  rw [holds_iff rfl, ordering_of_numeric hl hr, Option.any_some, Ordering.isGE_iff_ne_lt]
  exact compare_ge_iff_ge

def Respelled (l r : Json) (a b : Float) : Prop :=
  ∃ s t, l = .string s ∧ r = .string t ∧ s ≠ t ∧ value a = value b

private theorem holds_eq_iff_of_number (hl : l.numeric? = some a) (hr : r.numeric? = some b)
    (number : l.isNumber = true ∨ r.isNumber = true) :
    Holds .eq l r ↔ value a = value b := by
  rw [holds_eq_iff, equal, hl, hr]
  dsimp only
  rw [if_pos (Bool.or_eq_true_iff.mpr number)]
  exact beq_iff_value (isFinite_of_numeric hl) (isFinite_of_numeric hr)

private theorem holds_eq_iff_of_texts {s t : String} :
    Holds .eq (.string s) (.string t) ↔ s = t := by
  have texts : equal (.string s) (.string t) = (s == t) := by
    unfold equal
    split <;> rfl
  rw [holds_eq_iff, texts, beq_iff_eq]

theorem holds_eq_iff_value (hl : l.numeric? = some a) (hr : r.numeric? = some b) :
    Holds .eq l r ↔ value a = value b ∧ ¬Respelled l r a b := by
  have number {side : Json} {x : Float} (h : side.numeric? = some x) :
      side.isNumber = true ∨ ∃ s, side = .string s := by
    cases side with
    | null | bool | array | object => cases h
    | number n => exact .inl rfl
    | string s => exact .inr ⟨s, rfl⟩
  by_cases some_number : l.isNumber = true ∨ r.isNumber = true
  · rw [holds_eq_iff_of_number hl hr some_number]
    refine (and_iff_left ?_).symm
    rintro ⟨s, t, rfl, rfl, -⟩
    rcases some_number with h | h <;> cases h
  · rw [not_or] at some_number
    obtain ⟨s, rfl⟩ := (number hl).resolve_left some_number.1
    obtain ⟨t, rfl⟩ := (number hr).resolve_left some_number.2
    rw [holds_eq_iff_of_texts]
    constructor
    · rintro rfl
      rw [hl, Option.some.injEq] at hr
      refine ⟨congrArg value hr, ?_⟩
      rintro ⟨s', t', same, same', ne, -⟩
      exact ne ((Json.string.inj same).symm.trans (Json.string.inj same'))
    · rintro ⟨same, not_respelled⟩
      by_contra ne
      exact not_respelled ⟨s, t, rfl, rfl, ne, same⟩

theorem coherent_iff (hl : l.numeric? = some a) (hr : r.numeric? = some b) :
    Coherent l r ↔ ¬Respelled l r a b := by
  have lt_iff := holds_lt_iff hl hr
  have gt_iff := holds_gt_iff hl hr
  have eq_iff := holds_eq_iff_value hl hr
  constructor
  · rintro ⟨one, -, -, -⟩ respelled
    obtain ⟨-, -, -, -, -, same⟩ := id respelled
    rcases one with ⟨lt, -, -⟩ | ⟨-, eq, -⟩ | ⟨-, -, gt⟩
    · exact (lt_iff.mp lt).ne same
    · exact (eq_iff.mp eq).2 respelled
    · exact (gt_iff.mp gt).ne' same
  · intro not_respelled
    rw [and_iff_left not_respelled] at eq_iff
    refine ⟨?_, ?_, ?_, holds_ne_iff⟩
    · rw [lt_iff, eq_iff, gt_iff]
      rcases lt_trichotomy (value a) (value b) with lt | same | gt
      · exact .inl ⟨lt, lt.ne, lt.not_gt⟩
      · exact .inr (.inl ⟨same.not_lt, same, same.not_gt⟩)
      · exact .inr (.inr ⟨gt.not_gt, gt.ne', gt⟩)
    · rw [holds_le_iff hl hr, lt_iff, eq_iff, le_iff_lt_or_eq]
    · rw [holds_ge_iff hl hr, gt_iff, eq_iff, le_iff_lt_or_eq, eq_comm]

/-- Ordering goes by the numbers that the two sides stand for, and so does equality except on
two texts for one number.  It is on these only that the operators do not agree. -/
theorem comparison_is_numeric (hl : l.numeric? = some a) (hr : r.numeric? = some b) :
    (Holds .lt l r ↔ value a < value b) ∧ (Holds .gt l r ↔ value b < value a) ∧
    (Holds .le l r ↔ value a ≤ value b) ∧ (Holds .ge l r ↔ value b ≤ value a) ∧
    (Holds .eq l r ↔ value a = value b ∧ ¬Respelled l r a b) ∧
    (Holds .ne l r ↔ ¬Holds .eq l r) ∧
    (Coherent l r ↔ ¬Respelled l r a b) :=
  ⟨holds_lt_iff hl hr, holds_gt_iff hl hr, holds_le_iff hl hr, holds_ge_iff hl hr,
    holds_eq_iff_value hl hr, holds_ne_iff, coherent_iff hl hr⟩

end Numeric

theorem comparison_is_numeric_half :
    (Json.ofInt 1).numeric? = some 1.0 ∧ (Json.string " 0.5 ").numeric? = some 0.5 ∧
      Coherent (Json.ofInt 1) (.string " 0.5 ") := by
  have whole : (Json.ofInt 1).numeric? = some 1.0 := by decide +kernel
  have half : (Json.string " 0.5 ").numeric? = some 0.5 := by decide +kernel
  obtain ⟨-, -, -, -, -, -, coherent⟩ := comparison_is_numeric whole half
  refine ⟨whole, half, coherent.mpr ?_⟩
  rintro ⟨s, t, same, -⟩
  cases same

theorem not_coherent_respelled :
    (Json.string "1").numeric? = some 1.0 ∧ (Json.string "1.0").numeric? = some 1.0 ∧
      ¬Coherent (.string "1") (.string "1.0") := by
  have plain : (Json.string "1").numeric? = some 1.0 := by decide +kernel
  have pointed : (Json.string "1.0").numeric? = some 1.0 := by decide +kernel
  refine ⟨plain, pointed, ?_⟩
  rw [coherent_iff plain pointed, not_not]
  exact ⟨"1", "1.0", rfl, rfl, by decide, rfl⟩

end Tollgate.Expr
