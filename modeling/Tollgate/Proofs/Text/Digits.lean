import Mathlib.Algebra.Group.Nat.Defs
import Mathlib.Data.List.Induction
import Tollgate.Decimal.Layout
import Tollgate.Text.Blank

/-!
# Runs of digits

The digits of a number read back as the number, also after zeros that fill them
up to a width, and every run of digits is of that form.  A run of characters
ends at the first one that is not like them.
-/

namespace Tollgate

namespace Text

theorem isDigit_of_isSpace {c : Char} (space : isSpace c = true) : c.isDigit = false := by
  rw [← Bool.not_eq_true]
  intro digit
  have code : c.val.toNat = c.toNat := rfl
  simp only [Char.isDigit, Bool.and_eq_true, decide_eq_true_eq, ge_iff_le,
    UInt32.le_iff_toNat_le, code] at digit
  simp only [isSpace, Bool.or_eq_true, Bool.and_eq_true, decide_eq_true_eq, beq_iff_eq] at space
  have low : '0'.val.toNat = 48 := rfl
  have high : '9'.val.toNat = 57 := rfl
  omega

theorem isSpace_of_isDigit {c : Char} (digit : c.isDigit = true) : isSpace c = false := by
  rw [← Bool.not_eq_true]
  intro space
  rw [isDigit_of_isSpace space] at digit
  cases digit

theorem isIdentifierChar_of_isDigit {c : Char} (digit : c.isDigit = true) :
    isIdentifierChar c = true := by
  simp [isIdentifierChar, Char.isAlphanum, digit]

theorem digitChar_of_isDigit {c : Char} (digit : c.isDigit = true) :
    Nat.digitChar (c.toNat - 48) = c ∧ c.toNat - 48 < 10 := by
  have bounds : 48 ≤ c.toNat ∧ c.toNat ≤ 57 := Char.isDigit_iff_toNat.mp digit
  have small : c.toNat - 48 < 10 := by omega
  refine ⟨?_, small⟩
  rw [← Char.toNat_inj, Nat.toNat_digitChar_of_lt_ten small]
  omega

theorem takeWhile_append_of_head {p : Char → Bool} {rest : List Char}
    (stops : ∀ c ∈ rest.head?, p c = false) (chars : List Char) :
    (chars ++ rest).takeWhile p = chars.takeWhile p ∧
      (chars ++ rest).dropWhile p = chars.dropWhile p ++ rest := by
  induction chars with
  | nil =>
      cases rest with
      | nil => exact ⟨rfl, rfl⟩
      | cons c rest => simp [stops c rfl]
  | cons c chars ih =>
      cases holds : p c with
      | true => simp [holds, ih.1, ih.2]
      | false => simp [holds]

end Text

theorem toString_injective : Function.Injective (toString : Nat → String) := by
  intro m n same
  have digits := congrArg String.toList same
  rw [Nat.toString_eq_repr, Nat.toString_eq_repr, Nat.toList_repr, Nat.toList_repr] at digits
  have values := congrArg (fun chars => Nat.ofDigitChars 10 chars 0) digits
  simpa [Nat.ofDigitChars_ten_toDigits] using values

namespace Decimal

theorem foldl_digits (start : Nat) (chars : List Char) :
    chars.foldl (fun total c => total * 10 + (c.toNat - 48)) start =
      Nat.ofDigitChars 10 chars start := by
  rw [Nat.ofDigitChars_eq_foldl]
  congr
  funext total c
  rw [Nat.mul_comm]
  rfl

theorem eq_zero_of_toDigits {n : Nat} {rest : List Char} (h : Nat.toDigits 10 n = '0' :: rest) :
    n = 0 := by
  induction n using Nat.strongRecOn generalizing rest with
  | ind n ih =>
      by_cases small : n < 10
      · rw [Nat.toDigits_of_lt_base small, List.cons.injEq] at h
        have digits : ∀ d, d < 10 → Nat.digitChar d = '0' → d = 0 := by decide
        exact digits n small h.1
      · rw [Nat.toDigits_of_base_le (by decide) (by omega)] at h
        cases shape : Nat.toDigits 10 (n / 10) with
        | nil => exact absurd shape Nat.toDigits_ne_nil
        | cons first more =>
            rw [shape, List.cons_append, List.cons.injEq] at h
            have := ih (n / 10) (by omega) (h.1 ▸ shape)
            omega

theorem exists_zeros {chars : List Char} (some_digit : chars ≠ [])
    (digits : ∀ c ∈ chars, c.isDigit = true) :
    ∃ zeros, chars =
      List.replicate zeros '0' ++ Nat.toDigits 10 (Nat.ofDigitChars 10 chars 0) := by
  induction chars using List.reverseRecOn with
  | nil => exact absurd rfl some_digit
  | append_singleton chars c ih =>
      obtain ⟨same, small⟩ := Text.digitChar_of_isDigit (digits c (by simp))
      have last : Nat.toDigits 10 (c.toNat - 48) = [c] := by
        rw [Nat.toDigits_of_lt_base small, same]
      have value : Nat.ofDigitChars 10 (chars ++ [c]) 0 =
          10 * Nat.ofDigitChars 10 chars 0 + (c.toNat - 48) := by
        rw [Nat.ofDigitChars_append, Nat.ofDigitChars_cons, Nat.ofDigitChars_nil]
        rfl
      rw [value]
      by_cases first : chars = []
      · subst first
        refine ⟨0, ?_⟩
        rw [Nat.ofDigitChars_nil, Nat.mul_zero, Nat.zero_add, last]
        rfl
      · obtain ⟨zeros, before⟩ := ih first fun d member => digits d (List.mem_append_left _ member)
        rcases Nat.eq_zero_or_pos (Nat.ofDigitChars 10 chars 0) with zero | pos
        · refine ⟨zeros + 1, ?_⟩
          rw [zero, Nat.toDigits_zero, ← List.replicate_succ'] at before
          rw [zero, Nat.mul_zero, Nat.zero_add, last, ← before]
        · refine ⟨zeros, ?_⟩
          rw [← Nat.toDigits_append_toDigits (by decide) pos small, last, ← List.append_assoc,
            ← before]

def padded (width n : Nat) : List Char :=
  List.replicate (width - (Nat.toDigits 10 n).length) '0' ++ Nat.toDigits 10 n

theorem toList_padLeft (width n : Nat) : (padLeft width (toString n)).toList = padded width n := by
  rw [padLeft, String.toList_append, String.toList_ofList, ← String.length_toList,
    Nat.toString_eq_ofList_toDigits, String.toList_ofList, padded]

theorem isDigit_of_mem_padded {width n : Nat} : ∀ c ∈ padded width n, c.isDigit = true := by
  intro c member
  rcases List.mem_append.mp member with zero | digit
  · rw [List.eq_of_mem_replicate zero]
    decide
  · exact Nat.isDigit_of_mem_toDigits (by decide) (by decide) digit

theorem length_padded {width n : Nat} (pos : 0 < width) (fits : n < 10 ^ width) :
    (padded width n).length = width := by
  have short := (Nat.length_toDigits_le_iff (by decide) pos).mpr fits
  rw [padded, List.length_append, List.length_replicate]
  omega

theorem padded_ne_nil (width n : Nat) : padded width n ≠ [] :=
  List.append_ne_nil_of_right_ne_nil _ Nat.toDigits_ne_nil

private theorem ofDigitChars_padded (width n : Nat) :
    Nat.ofDigitChars 10 (padded width n) 0 = n := by
  rw [padded, Nat.ofDigitChars_append, Nat.ofDigitChars_replicate_zero, Nat.mul_zero,
    Nat.ofDigitChars_ten_toDigits]

end Decimal

namespace Text

theorem digits?_padded (width n : Nat) : digits? (Decimal.padded width n) = some n := by
  have some_digit : (Decimal.padded width n).isEmpty = false := by
    rw [List.isEmpty_eq_false_iff]
    exact Decimal.padded_ne_nil width n
  have all : (Decimal.padded width n).all Char.isDigit = true :=
    List.all_eq_true.mpr Decimal.isDigit_of_mem_padded
  rw [digits?, some_digit, all, Decimal.foldl_digits, Decimal.ofDigitChars_padded]
  rfl

theorem digits?_eq_some_iff {chars : List Char} {n : Nat} :
    digits? chars = some n ↔ ∃ zeros, chars = List.replicate zeros '0' ++ Nat.toDigits 10 n := by
  constructor
  · intro read
    unfold digits? at read
    split at read
    · cases read
    · next numeral =>
        have run : chars ≠ [] ∧ ∀ c ∈ chars, c.isDigit = true := by simpa using numeral
        rw [Decimal.foldl_digits, Option.some_inj] at read
        exact read ▸ Decimal.exists_zeros run.1 run.2
  · rintro ⟨zeros, rfl⟩
    have read := digits?_padded (zeros + (Nat.toDigits 10 n).length) n
    rwa [Decimal.padded, Nat.add_sub_cancel] at read

end Text

end Tollgate
