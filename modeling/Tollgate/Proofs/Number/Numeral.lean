import Tollgate.Expr.Tree
import Tollgate.Proofs.Json.Numeral
import Tollgate.Proofs.Number.Decimal
import Tollgate.Proofs.Number.Product

/-!
# Numerals

A plain numeral is a run of digits with at most one point, which a digit
follows.  It is read as the double nearest to the decimal that it spells, and
that double is kept as a JSON number unless it is infinite.
-/

namespace Tollgate

open Number

namespace Decimal.Numeral

open Json.Written (exponentSign exponentSign_of_ne)

def places (n : Numeral) : List Char := n.fraction.getD []

def spelling (n : Numeral) : List Char :=
  match n.fraction with
  | none => n.whole
  | some places => n.whole ++ '.' :: places

def amount (n : Numeral) : ℚ :=
  Nat.ofDigitChars 10 (n.whole ++ n.places) 0 / 10 ^ n.places.length

structure IsPlain (n : Numeral) : Prop where
  exponent : n.exponent = none
  isDigit : ∀ c ∈ n.whole ++ n.places, c.isDigit = true
  some_whole : n.fraction = none → n.whole ≠ []
  some_places : ∀ places, n.fraction = some places → places ≠ []

variable {n : Numeral}

theorem scan_spelling (plain : n.IsPlain) : scan n.spelling = (n, []) := by
  obtain ⟨no_exponent, digits, -, -⟩ := plain
  rcases n with ⟨whole, fraction, exponent⟩
  obtain rfl : exponent = none := no_exponent
  cases fraction with
  | none =>
      have digits : ∀ c ∈ whole, c.isDigit = true := by simpa [places] using digits
      unfold scan spelling
      simp [List.takeWhile_eq_self_iff.mpr digits, List.dropWhile_eq_nil_iff.mpr digits,
        readExponent]
  | some places =>
      have digits : ∀ c ∈ whole ++ places, c.isDigit = true := digits
      have whole_digits : ∀ c ∈ whole, c.isDigit = true := fun c member =>
        digits c (List.mem_append_left _ member)
      have places_digits : ∀ c ∈ places, c.isDigit = true := fun c member =>
        digits c (List.mem_append_right _ member)
      have stops : ∀ c ∈ ('.' :: places).head?, c.isDigit = false := by
        rintro c ⟨⟩
        rfl
      obtain ⟨taken, dropped⟩ := Text.takeWhile_append_of_head stops whole
      unfold scan spelling
      simp [taken, dropped, List.takeWhile_eq_self_iff.mpr whole_digits,
        List.dropWhile_eq_nil_iff.mpr whole_digits, List.takeWhile_eq_self_iff.mpr places_digits,
        List.dropWhile_eq_nil_iff.mpr places_digits, readExponent]

theorem head_spelling (plain : n.IsPlain) :
    ∃ c rest, n.spelling = c :: rest ∧ (c.isDigit = true ∨ c = '.') := by
  obtain ⟨-, digits, some_whole, -⟩ := plain
  rcases n with ⟨whole, fraction, exponent⟩
  cases whole with
  | cons c whole =>
      have first := digits c (List.mem_append_left _ List.mem_cons_self)
      cases fraction <;> exact ⟨c, _, rfl, .inl first⟩
  | nil =>
      cases fraction with
      | none => exact absurd rfl (some_whole rfl)
      | some places => exact ⟨'.', places, rfl, .inr rfl⟩

private theorem toLower_eq {c : Char} (first : c.isDigit = true ∨ c = '.') : c.toLower = c := by
  rcases first with digit | rfl
  · simp only [Char.isDigit, Bool.and_eq_true, decide_eq_true_eq, UInt32.le_iff_toNat_le] at digit
    have not_upper : ¬(c.val ≥ 'A'.val ∧ c.val ≤ 'Z'.val) := by
      rw [ge_iff_le, UInt32.le_iff_toNat_le]
      rintro ⟨upper, -⟩
      exact absurd (upper.trans digit.2) (by decide)
    exact dif_neg not_upper
  · rfl

private theorem float?_eq (text : String) :
    float? text =
      let (negative, body) := exponentSign text.toList
      let signed (x : Float) : Float := if negative then -x else x
      if lower body = "inf".toList || lower body = "infinity".toList then some (signed infinity)
      else if lower body = "nan".toList then some notANumber
      else
        match scan body with
        | (n, []) => if n.hasDigits then some (signed n.value) else none
        | (_, _ :: _) => none := rfl

private theorem hasDigits_of_isPlain (plain : n.IsPlain) : n.hasDigits = true := by
  obtain ⟨-, -, some_whole, some_places⟩ := plain
  rcases n with ⟨whole, fraction, exponent⟩
  cases fraction with
  | none => simpa [hasDigits] using some_whole rfl
  | some places => simp [hasDigits, some_places places rfl]

theorem float?_spelling (plain : n.IsPlain) :
    float? (String.ofList n.spelling) = some n.value := by
  obtain ⟨c, rest, spelled, first⟩ := head_spelling plain
  have other {d : Char} (not_first : ¬(d.isDigit = true ∨ d = '.')) : c ≠ d := by
    rintro rfl
    exact not_first first
  have unnamed {name : String} {d : Char} {more : List Char} (named : name.toList = d :: more)
      (not_first : ¬(d.isDigit = true ∨ d = '.')) : lower n.spelling ≠ name.toList := by
    rw [spelled, named, lower, List.map_cons, toLower_eq first]
    exact fun same => other not_first (List.cons.inj same).1
  have unsigned : exponentSign n.spelling = (false, n.spelling) := by
    rw [spelled, exponentSign_of_ne (other (by decide)) (other (by decide))]
  rw [float?_eq, String.toList_ofList, unsigned]
  dsimp only
  rw [decide_eq_false (unnamed rfl (by decide)), decide_eq_false (unnamed rfl (by decide)),
    if_neg (by decide), if_neg (unnamed rfl (by decide)), scan_spelling plain]
  exact if_pos (hasDigits_of_isPlain plain)

theorem rounds_value (plain : n.IsPlain) : Rounds n.amount n.value := by
  have rounds := rounds_nearest (digitValue (n.whole ++ n.places)) (-n.places.length)
  have value : n.value = nearest (digitValue (n.whole ++ n.places)) (-n.places.length) := by
    unfold Numeral.value
    dsimp only
    rw [plain.exponent, Option.getD_none, zero_sub]
    rfl
  rw [zpow_neg, zpow_natCast, ← div_eq_mul_inv, digitValue, foldl_digits] at rounds
  rw [value, digitValue, foldl_digits]
  exact rounds

end Decimal.Numeral

namespace Json.Number

def toRat : Json.Number → ℚ
  | .integer n _ => n
  | .float x _ => value x

private theorem shifted_eq {m : ℕ} {e : ℤ} (divides : m % 2 ^ (-e).toNat = 0) :
    (m : ℚ) * 2 ^ e = (m * 2 ^ e.toNat / 2 ^ (-e).toNat : ℕ) := by
  have multiple : 2 ^ (-e).toNat ∣ m * 2 ^ e.toNat :=
    (Nat.dvd_of_mod_eq_zero divides).mul_right _
  rw [Nat.cast_div multiple (by positivity), two_zpow_eq_div, mul_div_assoc']
  push_cast
  rfl

theorem whole?_eq_some {x : Float} {n : ℤ} (h : whole? x = some n) :
    value x = n ∧ n.natAbs < 2 ^ 53 := by
  unfold whole? at h
  unfold value
  split at h
  · next zero =>
      injection h with same
      rw [zero, ← same]
      exact ⟨Int.cast_zero.symm, by decide⟩
  · next sign m e pos shape =>
      rw [shape]
      dsimp only at h
      split at h
      · next divides =>
          split at h
          · next small =>
              injection h with same
              have size := shifted_eq divides
              subst same
              cases sign with
              | positive => exact ⟨size, small⟩
              | negative =>
                  refine ⟨?_, (Int.natAbs_neg _).trans_lt small⟩
                  rw [Int.cast_neg]
                  exact congrArg Neg.neg size
          · cases h
      · cases h
  · cases h

theorem ofComputed?_of_isFinite {x : Float} (finite : x.isFinite = true) :
    ∃ n, ofComputed? x = some n ∧ n.toRat = value x := by
  unfold ofComputed?
  split
  · next n whole =>
      obtain ⟨same, small⟩ := whole?_eq_some whole
      have range : -0x8000000000000000 ≤ n ∧ n < 0x10000000000000000 := by omega
      exact ⟨.integer n range, dif_pos range, same.symm⟩
  · exact ⟨.float x finite, dif_pos finite, rfl⟩

theorem ofComputed?_eq_none_iff {x : Float} : ofComputed? x = none ↔ x.isFinite = false := by
  constructor
  · intro nothing
    by_contra finite
    obtain ⟨n, computed, -⟩ := ofComputed?_of_isFinite (Bool.eq_true_of_not_eq_false finite)
    rw [computed] at nothing
    cases nothing
  · intro unbounded
    have unpacked : x.toModel.unpack.isFinite = false := unbounded
    have fraction : whole? x = none := by
      unfold whole?
      cases shape : x.toModel.unpack with
      | notANumber | infinity => rfl
      | zero | finite => rw [shape] at unpacked; cases unpacked
    rw [ofComputed?, fraction]
    exact dif_neg (by rw [unbounded]; exact Bool.false_ne_true)

theorem isFinite_of_ofComputed? {x : Float} {n : Json.Number} (h : ofComputed? x = some n) :
    x.isFinite = true := by
  refine eq_true_of_ne_false fun unbounded => ?_
  rw [ofComputed?_eq_none_iff.mpr unbounded] at h
  cases h

theorem ofComputed?_of_isInfinite {x : Float} (infinite : IsInfinite x) :
    ofComputed? x = none :=
  ofComputed?_eq_none_iff.mpr infinite.not_isFinite

end Json.Number

end Tollgate
