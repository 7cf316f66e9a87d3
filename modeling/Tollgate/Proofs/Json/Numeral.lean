import Mathlib.Data.List.TakeWhile
import Tollgate.Json.Reader
import Tollgate.Proofs.Json.Text
import Tollgate.Proofs.Text.Digits

/-!
# Numerals in JSON texts

The end of a value is the end of its numeral, so a numeral is read alike at the
end of a text and inside a document.  The text of a number that is read back is
read to its end; that of a natural number always is.
-/

namespace Tollgate.Json

open Decimal (Numeral)
open Text (takeWhile_append_of_head)

/-- What may follow a value inside a document. -/
inductive Closes : List Char → Prop
  | nil : Closes []
  | comma (rest : List Char) : Closes (',' :: rest)
  | bracket (rest : List Char) : Closes (']' :: rest)
  | brace (rest : List Char) : Closes ('\x7d' :: rest)

theorem Closes.isDigit {rest : List Char} (h : Closes rest) :
    ∀ c ∈ rest.head?, c.isDigit = false := by
  intro c first
  cases h <;> cases first <;> rfl

namespace Written

def exponentSign : List Char → Bool × List Char
  | '-' :: rest => (true, rest)
  | '+' :: rest => (false, rest)
  | rest => (false, rest)

theorem exponentSign_of_ne {c : Char} (minus : c ≠ '-') (plus : c ≠ '+') (rest : List Char) :
    exponentSign (c :: rest) = (false, c :: rest) := by
  unfold exponentSign
  split
  · next same => exact absurd (List.cons.inj same).1 minus
  · next same => exact absurd (List.cons.inj same).1 plus
  · rfl

def numberSign : List Char → Bool × List Char
  | '-' :: rest => (true, rest)
  | rest => (false, rest)

theorem numberSign_of_ne {c : Char} (minus : c ≠ '-') (rest : List Char) :
    numberSign (c :: rest) = (false, c :: rest) := by
  unfold numberSign
  split
  · next same => exact absurd (List.cons.inj same).1 minus
  · rfl

def fraction : List Char → Option (List Char) × List Char
  | '.' :: rest => (some (rest.takeWhile Char.isDigit), rest.dropWhile Char.isDigit)
  | rest => (none, rest)

theorem fraction_of_ne {c : Char} (point : c ≠ '.') (rest : List Char) :
    fraction (c :: rest) = (none, c :: rest) := by
  unfold fraction
  split
  · next same => exact absurd (List.cons.inj same).1 point
  · rfl

theorem readExponent_cons (mark : Char) (rest : List Char) :
    Numeral.readExponent (mark :: rest) =
      if mark = 'e' || mark = 'E' then
        let digits := (exponentSign rest).2.takeWhile Char.isDigit
        if digits.isEmpty then none
        else
          let size : Int := Numeral.digitValue digits
          some (if (exponentSign rest).1 then -size else size,
            (exponentSign rest).2.dropWhile Char.isDigit)
      else none := rfl

theorem scan_eq (chars : List Char) :
    Numeral.scan chars =
      let (places, rest) := fraction (chars.dropWhile Char.isDigit)
      match Numeral.readExponent rest with
      | some (exponent, rest) => (⟨chars.takeWhile Char.isDigit, places, some exponent⟩, rest)
      | none => (⟨chars.takeWhile Char.isDigit, places, none⟩, rest) := rfl

theorem readNumber_eq (chars : List Char) :
    readNumber chars =
      let (negative, body) := numberSign chars
      let (n, rest) := Numeral.scan body
      if wellFormed n && !(n.exponent.isNone && startsExponent rest) then
        some (.number negative n, rest)
      else none := rfl

section Closes

variable {rest : List Char} (closes : Closes rest)

include closes

private theorem exponentSign_append (chars : List Char) :
    exponentSign (chars ++ rest) = ((exponentSign chars).1, (exponentSign chars).2 ++ rest) := by
  cases chars with
  | nil => cases closes <;> rfl
  | cons c chars =>
      by_cases minus : c = '-'
      · subst minus
        rfl
      · by_cases plus : c = '+'
        · subst plus
          rfl
        · rw [List.cons_append, exponentSign_of_ne minus plus, exponentSign_of_ne minus plus]
          rfl

private theorem readExponent_append (chars : List Char) :
    Numeral.readExponent (chars ++ rest) =
      (Numeral.readExponent chars).map fun (exponent, after) => (exponent, after ++ rest) := by
  cases chars with
  | nil => cases closes <;> rfl
  | cons mark chars =>
      obtain ⟨digits, left⟩ := takeWhile_append_of_head closes.isDigit (exponentSign chars).2
      rw [List.cons_append, readExponent_cons, readExponent_cons, exponentSign_append closes]
      dsimp only
      rw [digits, left]
      split
      · split <;> rfl
      · rfl

private theorem fraction_append (chars : List Char) :
    fraction (chars ++ rest) = ((fraction chars).1, (fraction chars).2 ++ rest) := by
  cases chars with
  | nil => cases closes <;> rfl
  | cons c chars =>
      by_cases point : c = '.'
      · subst point
        obtain ⟨digits, left⟩ := takeWhile_append_of_head closes.isDigit chars
        rw [List.cons_append, fraction, digits, left, fraction]
      · rw [List.cons_append, fraction_of_ne point, fraction_of_ne point]
        rfl

private theorem scan_append (chars : List Char) :
    Numeral.scan (chars ++ rest) = ((Numeral.scan chars).1, (Numeral.scan chars).2 ++ rest) := by
  obtain ⟨digits, left⟩ := takeWhile_append_of_head closes.isDigit chars
  rw [scan_eq, scan_eq, digits, left, fraction_append closes]
  dsimp only
  rw [readExponent_append closes]
  cases Numeral.readExponent (fraction (chars.dropWhile Char.isDigit)).2 <;> rfl

private theorem startsExponent_append (chars : List Char) :
    startsExponent (chars ++ rest) = startsExponent chars := by
  cases chars with
  | nil => cases closes <;> rfl
  | cons c chars => rfl

private theorem numberSign_append (chars : List Char) :
    numberSign (chars ++ rest) = ((numberSign chars).1, (numberSign chars).2 ++ rest) := by
  cases chars with
  | nil => cases closes <;> rfl
  | cons c chars =>
      by_cases minus : c = '-'
      · subst minus
        rfl
      · rw [List.cons_append, numberSign_of_ne minus, numberSign_of_ne minus]
        rfl

theorem readNumber_append (chars : List Char) :
    readNumber (chars ++ rest) =
      (readNumber chars).map fun (document, after) => (document, after ++ rest) := by
  rw [readNumber_eq, readNumber_eq, numberSign_append closes]
  dsimp only
  rw [scan_append closes]
  dsimp only
  rw [startsExponent_append closes]
  split <;> rfl

end Closes

private theorem suffix_of_readExponent {chars after : List Char} {exponent : Int}
    (h : Numeral.readExponent chars = some (exponent, after)) : after <:+ chars := by
  cases chars with
  | nil => cases h
  | cons mark chars =>
      have sign : (exponentSign chars).2 <:+ chars := by
        unfold exponentSign
        split
        · exact List.suffix_cons _ _
        · exact List.suffix_cons _ _
        · exact List.suffix_rfl
      rw [readExponent_cons] at h
      dsimp only at h
      split at h
      · split at h
        · cases h
        · rw [Option.some.injEq, Prod.mk.injEq] at h
          rw [← h.2]
          exact ((List.dropWhile_suffix _).trans sign).trans (List.suffix_cons _ _)
      · cases h

private theorem suffix_scan (chars : List Char) : (Numeral.scan chars).2 <:+ chars := by
  have places : (fraction (chars.dropWhile Char.isDigit)).2 <:+ chars := by
    refine List.IsSuffix.trans ?_ (List.dropWhile_suffix Char.isDigit)
    unfold fraction
    split
    · next rest whole =>
        exact whole ▸ (List.dropWhile_suffix _).trans (List.suffix_cons _ _)
    · exact List.suffix_rfl
  rw [scan_eq]
  dsimp only
  split
  · next read => exact (suffix_of_readExponent read).trans places
  · exact places

theorem number_of_readNumber {chars after : List Char} {document : Written}
    (h : readNumber chars = some (document, after)) :
    (∃ negative numeral, document = .number negative numeral) ∧ after <:+ chars := by
  have sign : (numberSign chars).2 <:+ chars := by
    unfold numberSign
    split
    · exact List.suffix_cons _ _
    · exact List.suffix_rfl
  rw [readNumber_eq] at h
  dsimp only at h
  split at h
  · rw [Option.some.injEq, Prod.mk.injEq] at h
    exact ⟨⟨_, _, h.1.symm⟩, h.2 ▸ (suffix_scan _).trans sign⟩
  · cases h

theorem isBlankChar_of_isNumeralChar {c : Char} (h : isNumeralChar c = true) :
    isBlankChar c = false := by
  by_contra blank
  simp only [isBlankChar, Bool.not_eq_false, Bool.or_eq_true, beq_iff_eq] at blank
  rcases blank with ((rfl | rfl) | rfl) | rfl <;> exact absurd h (by decide)

theorem readValue_numeral {c : Char} (h : isNumeralChar c = true) (fuel : Nat) (rest : List Char) :
    readValue (fuel + 1) (c :: rest) = readNumber (c :: rest) := by
  have shown : skipBlanks (c :: rest) = c :: rest :=
    List.dropWhile_cons_of_neg (by simp [isBlankChar_of_isNumeralChar h])
  have other (d : Char) (no : isNumeralChar d = false) : c ≠ d := by
    rintro rfl
    rw [h] at no
    cases no
  rw [readValue, shown]
  split <;> first
    | rfl
    | next same => exact absurd (List.cons.inj same).1 (other _ rfl)

end Written

/-- A number is legible if its text is read as the number. -/
def Number.IsLegible (n : Number) : Prop := parse? (number n).compact = some (number n)

namespace Number

private theorem parse?_compact (n : Number) :
    Written.parse? (number n).compact =
      (Written.readNumber n.text.toList).bind fun (document, after) =>
        if (Written.skipBlanks after).isEmpty then some document else none := by
  rw [compact, Written.parse?]
  cases shape : n.text.toList with
  | nil => exact absurd shape n.text_ne_nil
  | cons c chars =>
      have numeral := n.inNumeral_text c (shape ▸ List.mem_cons_self)
      rw [Written.readValue_numeral numeral]
      cases Written.readNumber (c :: chars) <;> rfl

theorem isLegible_iff {n : Number} :
    n.IsLegible ↔ ∃ negative numeral,
      Written.readNumber n.text.toList = some (.number negative numeral, []) ∧
        ofNumeral? negative numeral = some n := by
  unfold IsLegible parse?
  rw [parse?_compact]
  constructor
  · intro legible
    obtain ⟨_, parsed, stands⟩ := Option.bind_eq_some_iff.mp legible
    obtain ⟨⟨document, after⟩, read, ended⟩ := Option.bind_eq_some_iff.mp parsed
    obtain ⟨⟨negative, numeral, rfl⟩, ends⟩ := Written.number_of_readNumber read
    dsimp only at ended
    split at ended
    · next blank =>
        injection ended with same
        subst same
        obtain rfl : after = [] := by
          cases after with
          | nil => rfl
          | cons c after =>
              have numeral := n.inNumeral_text c (ends.subset List.mem_cons_self)
              simp [Written.skipBlanks, Written.isBlankChar_of_isNumeralChar numeral] at blank
        refine ⟨negative, numeral, read, ?_⟩
        simpa [Written.value?, Written.valueWithin?] using stands
    · cases ended
  · rintro ⟨negative, numeral, read, stands⟩
    have value : Written.value? (.number negative numeral) = some (number n) := by
      simp [Written.value?, Written.valueWithin?, stands]
    rw [read, Option.bind_some]
    exact value

def reread? (n : Number) : Option Number :=
  match Written.readNumber n.text.toList with
  | some (.number negative numeral, []) => ofNumeral? negative numeral
  | _ => none

private theorem isLegible_iff_reread {n : Number} : n.IsLegible ↔ n.reread? = some n := by
  rw [isLegible_iff, reread?]
  constructor
  · rintro ⟨negative, numeral, read, stands⟩
    rw [read]
    exact stands
  · intro stands
    split at stands
    · next negative numeral read => exact ⟨negative, numeral, read, stands⟩
    · cases stands

instance (n : Number) : Decidable n.IsLegible :=
  decidable_of_iff _ isLegible_iff_reread.symm

private theorem le_ofDigitChars (total : Nat) (chars : List Char) :
    total ≤ Nat.ofDigitChars 10 chars total := by
  rw [Nat.ofDigitChars_eq_ofDigitChars_zero]
  exact Nat.le_add_right_of_le (Nat.le_mul_of_pos_left total (Nat.pow_pos (by decide)))

theorem significant_of_lt {chars : List Char} {total : Nat}
    (fits : Nat.ofDigitChars 10 chars total < Bound.longWord) :
    significant total chars = (Nat.ofDigitChars 10 chars total, 0) := by
  induction chars generalizing total with
  | nil => rfl
  | cons c rest ih =>
      have step : Nat.ofDigitChars 10 (c :: rest) total =
          Nat.ofDigitChars 10 rest (total * 10 + (c.toNat - 48)) := by
        rw [Nat.ofDigitChars_cons, Nat.mul_comm]
        rfl
      rw [step] at fits ⊢
      have small : total * 10 + (c.toNat - 48) < Bound.longWord :=
        Nat.lt_of_le_of_lt (le_ofDigitChars _ rest) fits
      rw [significant, if_pos small, ih fits]

private theorem readNumber_toDigits (n : Nat) :
    Written.readNumber (Nat.toDigits 10 n) =
      some (.number false ⟨Nat.toDigits 10 n, none, none⟩, []) := by
  have digits : ∀ c ∈ Nat.toDigits 10 n, c.isDigit = true := fun c member =>
    Nat.isDigit_of_mem_toDigits (by decide) (by decide) member
  have unsigned : Written.numberSign (Nat.toDigits 10 n) = (false, Nat.toDigits 10 n) := by
    unfold Written.numberSign
    split
    · next minus => exact absurd (digits '-' (minus ▸ List.mem_cons_self)) (by decide)
    · rfl
  have scanned : Numeral.scan (Nat.toDigits 10 n) = (⟨Nat.toDigits 10 n, none, none⟩, []) := by
    rw [Written.scan_eq, List.takeWhile_eq_self_iff.mpr digits,
      List.dropWhile_eq_nil_iff.mpr digits]
    rfl
  have formed : Written.wellFormed ⟨Nat.toDigits 10 n, none, none⟩ = true := by
    cases shape : Nat.toDigits 10 n with
    | nil => exact absurd shape Nat.toDigits_ne_nil
    | cons c rest =>
        by_cases zero : c = '0'
        · subst zero
          obtain rfl := Decimal.eq_zero_of_toDigits shape
          rw [Nat.toDigits_zero, List.cons.injEq] at shape
          rw [← shape.2]
          rfl
        · simp [Written.wellFormed, zero]
  rw [Written.readNumber_eq, unsigned]
  simp [scanned, formed, Written.startsExponent]

theorem isLegible_natural {n : Nat}
    (range : -0x8000000000000000 ≤ (n : Int) ∧ (n : Int) < 0x10000000000000000) :
    (integer n range).IsLegible := by
  have text : (integer n range).text.toList = Nat.toDigits 10 n := by
    change (toString n).toList = _
    rw [Nat.toString_eq_ofList_toDigits, String.toList_ofList]
  have all : significant 0 (Nat.toDigits 10 n) = (n, 0) := by
    rw [significant_of_lt, Nat.ofDigitChars_ten_toDigits]
    rw [Nat.ofDigitChars_ten_toDigits]
    unfold Bound.longWord
    omega
  refine isLegible_iff.mpr ⟨false, ⟨Nat.toDigits 10 n, none, none⟩, ?_, ?_⟩
  · rw [text, readNumber_toDigits]
  · simp [ofNumeral?, all, ofInt?, range]

end Number

end Tollgate.Json
