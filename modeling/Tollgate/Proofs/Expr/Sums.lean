import Tollgate.Proofs.Expr.Trimming

/-!
# Sums of references

The text `0 + $x + $y`, for any number of references, has the words that it
shows, and these derive one tree only: the sums are grouped from the left.
-/

namespace Tollgate.Expr

structure Term (scope : Scope) where
  text : String
  target : Reference
  number : Json.Number
  parsed : Reference.parse? text = some target
  held : scope target = some (.number number)

theorem words?_reference {body rest : List Char} {target : Reference}
    (known : Reference.ofChars? ('$' :: body) = some target) (stops : Reference.extent rest = 0)
    (position : ℕ) :
    words? (tokenizeFrom position ('$' :: (body ++ rest))) =
      (words? (tokenizeFrom (position + 1 + body.length) rest)).map (.variable target :: ·) := by
  rw [words?_cons (by decide), readToken_reference known stops]
  simp [Except.toOption]

theorem words?_zero {rest : List Char} (stops : numberExtent false rest = 0) (position : ℕ) :
    words? (tokenizeFrom position ('0' :: rest)) =
      (words? (tokenizeFrom (position + 1) rest)).map (.number 0.0 :: ·) := by
  have zero : Decimal.float? (String.ofList ['0']) = some 0.0 := rfl
  have read : readToken position '0' rest = .ok (.number 0.0, 0) := by
    simp [readToken, startsNumber, stops, zero]
  rw [words?_cons (by decide), read]
  rfl

theorem words?_sign {c : Char} {word : TokenKind} (visible : Text.isSpace c = false)
    (reads : ∀ position rest, readToken position c rest = .ok (word, 0)) (position : ℕ)
    (rest : List Char) : words? (tokenizeFrom position (c :: rest)) =
      (words? (tokenizeFrom (position + 1) rest)).map (word :: ·) := by
  rw [words?_cons visible, reads]
  rfl

theorem derives_variable (target : Reference) :
    Derives true .unary [.variable target] (.variable target) :=
  .primary (.leaf (.variable target))

namespace Term

variable {scope : Scope}

def sumText (terms : List (Term scope)) : String :=
  terms.foldl (fun text term => text ++ " + " ++ term.text) "0"

def sumTree (terms : List (Term scope)) : Tree :=
  terms.foldl (fun tree term => .binary .add tree (.variable term.target)) (.numeral 0.0)

def addend (term : Term scope) : List Char := ' ' :: '+' :: ' ' :: term.text.toList

def words (term : Term scope) : List TokenKind := [.operator .add, .variable term.target]

theorem toList_sumText (terms : List (Term scope)) :
    (sumText terms).toList = '0' :: terms.flatMap addend := by
  have extended (terms : List (Term scope)) (text : String) :
      (terms.foldl (fun text term => text ++ " + " ++ term.text) text).toList =
        text.toList ++ terms.flatMap addend := by
    induction terms generalizing text with
    | nil => simp
    | cons term terms ih => simp [ih, addend]
  exact extended terms "0"

private theorem words?_addends (terms : List (Term scope)) (position : ℕ) :
    words? (tokenizeFrom position (terms.flatMap addend)) =
      some (terms.flatMap words ++ [.eof]) := by
  induction terms generalizing position with
  | nil =>
      rw [List.flatMap_nil, tokenizeFrom_nil]
      rfl
  | cons term terms ih =>
      have stops : Reference.extent (terms.flatMap addend) = 0 := by cases terms <;> rfl
      obtain ⟨body, _, _, chars, -⟩ := Reference.exists_segments term.parsed
      have known : Reference.ofChars? ('$' :: body) = some term.target := chars ▸ term.parsed
      have plus (position : ℕ) (rest : List Char) :
          readToken position '+' rest = .ok (.operator .add, 0) := rfl
      rw [List.flatMap_cons, addend, chars, List.cons_append, List.cons_append, List.cons_append,
        List.cons_append, tokenizeFrom_space _ _ (by decide), words?_sign (by decide) plus,
        tokenizeFrom_space _ _ (by decide), words?_reference known stops, ih]
      rfl

private theorem derives_sumTree (terms : List (Term scope)) :
    Derives true (.chain .sum) (.number 0.0 :: terms.flatMap words) (sumTree terms) := by
  have plus : Level.sum.Joins (.operator .add) (.binary .add) := .sum (by decide)
  have extended (terms : List (Term scope)) {front : List TokenKind} {tree : Tree}
      (h : Derives true (.chain .sum) front tree) :
      Derives true (.chain .sum) (front ++ terms.flatMap words)
        (terms.foldl (fun tree term => .binary .add tree (.variable term.target)) tree) := by
    induction terms generalizing front tree with
    | nil => simpa using h
    | cons term terms ih =>
        simpa [words] using ih (h.join plus (.operand (derives_variable term.target)))
  exact extended terms (.operand (.operand (.primary (.leaf (.number 0.0)))))

theorem parse_sumText (terms : List (Term scope)) :
    parse (sumText terms) = .ok (sumTree terms) := by
  have derived : Derives true .conditional (.number 0.0 :: terms.flatMap words) (sumTree terms) :=
    .plain (.operand (.operand (.comparison (.operand (derives_sumTree terms)) (by simp))))
  have stops : numberExtent false (terms.flatMap addend) = 0 := by cases terms <;> rfl
  refine parse_eq_ok_iff.mpr ⟨_, ?_, derived.eof_not_mem, derived⟩
  unfold tokenize
  rw [toList_sumText, words?_zero stops, words?_addends]
  rfl

end Term

end Tollgate.Expr
