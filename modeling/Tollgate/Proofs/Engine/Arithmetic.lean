import Tollgate.Engine.Arithmetic
import Tollgate.Proofs.Expr.Sums
import Tollgate.Proofs.Number.Computed
import Tollgate.Run.Context

/-!
# Arithmetic of expressions and of the engine

An expression over two numbers and the engine's function for its operator give
the same number, or both fail.  So do a sum of references and the engine's sum
of what they stand for, although the expression writes every sum on the way as
a JSON number and reads it back, while the engine goes on with the double.
-/

namespace Tollgate

open Number
open Tollgate.Expr

namespace Arithmetic

/-- Both sides give the number that is written for a double, or both fail and should. -/
inductive Agree (Fails : Prop) (x : Float) :
    Except EvalError Json → Except EngineError Json → Prop
  | result {n : Json.Number} (works : ¬Fails) (written : Json.Number.ofComputed? x = some n) :
      Agree Fails x (.ok (.number n)) (.ok (wrap (.number n)))
  | failure {error : EvalError} {error' : EngineError} (fails : Fails) :
      Agree Fails x (.error error) (.error error')

theorem Agree.congr {P Q : Prop} {x : Float} {written : Except EvalError Json}
    {invoked : Except EngineError Json} (h : Agree P x written invoked) (same : P ↔ Q) :
    Agree Q x written invoked := by
  cases h with
  | result works number => exact .result (mt same.mpr works) number
  | failure fails => exact .failure (same.mp fails)

def Comes (outcome : Except EvalError Json) (x : Float) : Prop :=
  match Json.Number.ofComputed? x with
  | some n => outcome = .ok (.number n)
  | none => ∃ error, outcome = .error error

theorem comes_computed (x : Float) : Comes (computed x) x := by
  unfold Comes computed
  cases written : Json.Number.ofComputed? x with
  | some n =>
      rw [Json.Number.isFinite_of_ofComputed? written]
      rfl
  | none =>
      rw [Json.Number.ofComputed?_eq_none_iff.mp written]
      exact ⟨_, rfl⟩

theorem Comes.agree {outcome : Except EvalError Json} {x : Float} (h : Comes outcome x) :
    Agree (x.isFinite = false) x outcome (ofFloat x) := by
  unfold Comes at h
  unfold ofFloat
  cases written : Json.Number.ofComputed? x with
  | some n =>
      rw [written] at h
      obtain rfl := h
      exact .result (by simp [Json.Number.isFinite_of_ofComputed? written]) written
  | none =>
      rw [written] at h
      obtain ⟨error, rfl⟩ := h
      exact .failure (Json.Number.ofComputed?_eq_none_iff.mp written)

inductive Operation where
  | add | subtract | multiply | divide
  deriving DecidableEq

namespace Operation

def operator : Operation → Operator
  | .add => .add
  | .subtract => .sub
  | .multiply => .mul
  | .divide => .div

def function : Operation → String
  | .add => "add"
  | .subtract => "subtract"
  | .multiply => "multiply"
  | .divide => "divide"

def apply : Operation → Float → Float → Float
  | .add => (· + ·)
  | .subtract => (· - ·)
  | .multiply => (· * ·)
  | .divide => (· / ·)

def text (op : Operation) : String := "$input.a " ++ op.operator.text ++ " $input.b"

/-- The divisor is zero, of either sign, or the result is not finite. -/
def Fails (op : Operation) (a b : Json.Number) : Prop :=
  op = .divide ∧ b.toRat = 0 ∨ (op.apply a.toFloat b.toFloat).isFinite = false

def left : Reference := ⟨.input, ["a"]⟩

def right : Reference := ⟨.input, ["b"]⟩

def tree (op : Operation) : Tree := .binary op.operator (.variable left) (.variable right)

def words (op : Operation) : List TokenKind :=
  [.variable left, .operator op.operator, .variable right]

private theorem derives_tree (op : Operation) : Derives true (.chain .sum) op.words op.tree := by
  have factor (target : Reference) :
      Derives true (.chain .product) [.variable target] (.variable target) :=
    .operand (derives_variable target)
  have joined {word : Operator} (joins : Level.sum.Joins (.operator word) (.binary word)) :
      Derives true (.chain .sum) [.variable left, .operator word, .variable right]
        (.binary word (.variable left) (.variable right)) :=
    .join (.operand (factor left)) joins (factor right)
  have product {word : Operator} (joins : Level.product.Joins (.operator word) (.binary word)) :
      Derives true (.chain .sum) [.variable left, .operator word, .variable right]
        (.binary word (.variable left) (.variable right)) :=
    .operand (.join (factor left) joins (derives_variable right))
  cases op with
  | add => exact joined (.sum (by decide))
  | subtract => exact joined (.sum (by decide))
  | multiply => exact product (.product (by decide))
  | divide => exact product (.product (by decide))

private theorem words?_operands {c : Char} {word : TokenKind} (visible : Text.isSpace c = false)
    (reads : ∀ position rest, readToken position c rest = .ok (word, 0)) :
    words? (tokenizeFrom 0 ('$' :: ("input.a".toList ++
      ' ' :: c :: ' ' :: '$' :: ("input.b".toList ++ [])))) =
        some ([.variable left, word, .variable right] ++ [.eof]) := by
  have known_left : Reference.ofChars? ('$' :: "input.a".toList) = some left := rfl
  have known_right : Reference.ofChars? ('$' :: "input.b".toList) = some right := rfl
  rw [words?_reference known_left rfl, tokenizeFrom_space _ _ (by decide),
    words?_sign visible reads, tokenizeFrom_space _ _ (by decide),
    words?_reference known_right rfl, tokenizeFrom_nil]
  rfl

private theorem words?_text (op : Operation) :
    words? (tokenize op.text) = some (op.words ++ [.eof]) := by
  cases op with
  | add => exact words?_operands (c := '+') rfl fun _ _ => rfl
  | subtract => exact words?_operands (c := '-') rfl fun _ _ => rfl
  | multiply => exact words?_operands (c := '*') rfl fun _ _ => rfl
  | divide => exact words?_operands (c := '/') rfl fun _ _ => rfl

private theorem parse_text (op : Operation) : parse op.text = .ok op.tree := by
  have derived : Derives true .conditional op.words op.tree :=
    .plain (.operand (.operand (.comparison (.operand op.derives_tree) (by simp [words]))))
  exact parse_eq_ok_iff.mpr ⟨_, op.words?_text, derived.eof_not_mem, derived⟩

end Operation

def pair (a b : Json.Number) : Json := .object [("a", .number a), ("b", .number b)]

section Pair

variable (context : Context) (op : Operation) (a b : Json.Number)

private theorem evaluate_text : evaluate { context with input := pair a b }.scope op.text =
    binary op.operator (.number a) (.number b) :=
  evaluate_of_parse op.parse_text _

private theorem agree_divide : Agree (Operation.divide.Fails a b) (a.toFloat / b.toFloat)
    (binary .div (.number a) (.number b)) (call "divide" (pair a b)) := by
  have written : binary .div (.number a) (.number b) =
      arithmetic .div (.number a) (.number b) Expr.divide := rfl
  have invoked : call "divide" (pair a b) = if b.toFloat == 0.0 then
      .error (.permanent "division by zero") else ofFloat (a.toFloat / b.toFloat) := rfl
  rw [written, invoked]
  by_cases zero : b.toRat = 0
  · have is_zero := b.beq_zero_iff.mpr zero
    have divided : Expr.divide a.toFloat b.toFloat = .error .divisionByZero := if_pos is_zero
    simp only [arithmetic, Json.float?, divided, is_zero, if_true]
    exact .failure (.inl ⟨rfl, zero⟩)
  · have not_zero := mt b.beq_zero_iff.mp zero
    have divided : Expr.divide a.toFloat b.toFloat = .ok (a.toFloat / b.toFloat) := if_neg not_zero
    rw [if_neg not_zero]
    simp only [arithmetic, Json.float?, divided]
    exact (comes_computed _).agree.congr (by simp [Operation.Fails, Operation.apply, zero])

theorem agree_pair : Agree (op.Fails a b) (op.apply a.toFloat b.toFloat)
    (evaluate { context with input := pair a b }.scope op.text)
    (call op.function (pair a b)) := by
  have computes (x : Float) (other : op ≠ .divide) (same : op.apply a.toFloat b.toFloat = x) :
      Agree (op.Fails a b) x (computed x) (ofFloat x) :=
    (comes_computed x).agree.congr (by simp [Operation.Fails, other, same])
  rw [evaluate_text]
  cases op with
  | add => exact computes (a.toFloat + b.toFloat) (by decide) rfl
  | subtract => exact computes (a.toFloat - b.toFloat) (by decide) rfl
  | multiply => exact computes (a.toFloat * b.toFloat) (by decide) rfl
  | divide => exact agree_divide a b

end Pair

def runningSum (numbers : List Json.Number) : Float :=
  numbers.foldl (fun x n => x + n.toFloat) 0.0

def valuesOf (numbers : List Json.Number) : Json :=
  .object [("values", .array (numbers.map .number))]

private theorem total_eq (x : Float) (numbers : List Json.Number) :
    total x (numbers.map .number) = .ok (numbers.foldl (fun x n => x + n.toFloat) x) := by
  induction numbers generalizing x with
  | nil => rfl
  | cons n numbers ih => exact ih (x + n.toFloat)

theorem call_sum (numbers : List Json.Number) :
    call "sum" (valuesOf numbers) = ofFloat (runningSum numbers) := by
  have unfolded : call "sum" (valuesOf numbers) =
      (total 0.0 (numbers.map .number)).bind ofFloat := rfl
  rw [unfolded, total_eq]
  rfl

section Sum

variable {scope : Scope}

private theorem Comes.add {tree : Tree} {x : Float} (h : Comes (tree.eval scope) x)
    (term : Term scope) : Comes ((Tree.binary .add tree (.variable term.target)).eval scope)
      (x + term.number.toFloat) := by
  unfold Tree.eval
  rw [show (Tree.variable term.target).eval scope = .ok (.number term.number) by
    rw [Tree.eval, term.held]; rfl]
  unfold Comes at h ⊢
  cases written : Json.Number.ofComputed? x with
  | none =>
      rw [written] at h
      obtain ⟨error, failed⟩ := h
      have unbounded := isFinite_add (Json.Number.ofComputed?_eq_none_iff.mp written)
        term.number.toFloat
      rw [Json.Number.ofComputed?_eq_none_iff.mpr unbounded, failed]
      exact ⟨error, rfl⟩
  | some n =>
      rw [written] at h
      rw [← Json.Number.ofComputed?_add written, show tree.eval scope = _ from h]
      exact comes_computed (n.toFloat + term.number.toFloat)

private theorem comes_sumTree (terms : List (Term scope)) :
    Comes ((Term.sumTree terms).eval scope) (runningSum (terms.map Term.number)) := by
  have extended (terms : List (Term scope)) {tree : Tree} {x : Float}
      (h : Comes (tree.eval scope) x) :
      Comes ((terms.foldl (fun tree term => .binary .add tree (.variable term.target)) tree).eval
        scope) ((terms.map Term.number).foldl (fun x n => x + n.toFloat) x) := by
    induction terms generalizing tree x with
    | nil => exact h
    | cons term terms ih => exact ih (h.add term)
  exact extended terms rfl

private theorem agree_sum (terms : List (Term scope)) :
    Agree ((runningSum (terms.map Term.number)).isFinite = false)
      (runningSum (terms.map Term.number)) (evaluate scope (Term.sumText terms))
      (call "sum" (valuesOf (terms.map Term.number))) := by
  rw [evaluate_of_parse (Term.parse_sumText terms), call_sum]
  exact (comes_sumTree terms).agree

end Sum

/-- An expression and the engine agree on each operation between two numbers and on sums of any
length: they give one number of one kind, or fail together.  They fail exactly when the divisor
is zero or the double that they compute is not finite. -/
theorem expressions_agree :
    (∀ (context : Context) (op : Operation) (a b : Json.Number),
      Agree (op.Fails a b) (op.apply a.toFloat b.toFloat)
        (evaluate { context with input := pair a b }.scope op.text)
        (call op.function (pair a b))) ∧
    ∀ {scope : Scope} (terms : List (Term scope)),
      Agree ((runningSum (terms.map Term.number)).isFinite = false)
        (runningSum (terms.map Term.number)) (evaluate scope (Term.sumText terms))
        (call "sum" (valuesOf (terms.map Term.number))) :=
  ⟨agree_pair, agree_sum⟩

def halves : List Json.Number := [.float 0.5 rfl, .float (-0.5) rfl]

def halvesScope : Scope := (Context.ofInput [] (valuesOf halves)).scope

def halfTerms : List (Term halvesScope) :=
  [⟨"$input.values.0", ⟨.input, ["values", "0"]⟩, .float 0.5 rfl, rfl, rfl⟩,
    ⟨"$input.values.1", ⟨.input, ["values", "1"]⟩, .float (-0.5) rfl, rfl, rfl⟩]

theorem expressions_agree_halves :
    (Operation.divide.text = "$input.a / $input.b" ∧
      Operation.divide.Fails (.float 0.5 rfl) (.float (-0.0) rfl) ∧
      Agree (Operation.divide.Fails (.float 0.5 rfl) (.float (-0.0) rfl)) (0.5 / -0.0)
        (evaluate { Context.ofInput [] .null with
          input := pair (.float 0.5 rfl) (.float (-0.0) rfl) }.scope "$input.a / $input.b")
        (call "divide" (pair (.float 0.5 rfl) (.float (-0.0) rfl)))) ∧
    Term.sumText halfTerms = "0 + $input.values.0 + $input.values.1" ∧
      call "sum" (valuesOf halves) = .ok (wrap (.number (.integer 0 (by decide)))) ∧
      Agree ((runningSum halves).isFinite = false) (runningSum halves)
        (evaluate halvesScope (Term.sumText halfTerms)) (call "sum" (valuesOf halves)) := by
  refine ⟨⟨rfl, .inl ⟨rfl, rfl⟩, ?_⟩, rfl, rfl, ?_⟩
  · exact expressions_agree.1 (Context.ofInput [] .null) .divide (.float 0.5 rfl)
      (.float (-0.0) rfl)
  · exact expressions_agree.2 halfTerms

end Arithmetic

end Tollgate
