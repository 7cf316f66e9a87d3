import Mathlib.Data.List.TakeWhile
import Tollgate.Expr.Parser

/-!
# The grammar of expressions

The grammar says which lists of words are expressions and which trees they may
have, without saying how to find one.  A `NOT` can begin a negation or a unary
operand, so some lists have several derivations; an eager derivation begins a
negation wherever it can, and no sentence is lost by that.
-/

namespace Tollgate.Expr

/-- What a phrase can be.  The operands of a chain are phrases of the next tighter category. -/
inductive Category where
  | conditional
  | chain (level : Level)
  | negation
  | unary
  | primary
  deriving DecidableEq

def Level.operand : Level → Category
  | .disjunction => .chain .conjunction
  | .conjunction => .negation
  | .comparison => .chain .sum
  | .sum => .chain .product
  | .product => .unary

inductive Level.Joins : Level → TokenKind → (Tree → Tree → Tree) → Prop
  | or : Joins .disjunction .or .or
  | and : Joins .conjunction .and .and
  | comparison {op : Operator} (h : op ∈ [.gt, .lt, .ge, .le, .eq, .ne]) :
      Joins .comparison (.operator op) (.binary op)
  | sum {op : Operator} (h : op ∈ [.add, .sub]) : Joins .sum (.operator op) (.binary op)
  | product {op : Operator} (h : op ∈ [.mul, .div]) : Joins .product (.operator op) (.binary op)

inductive Leaf : TokenKind → Tree → Prop
  | number (x : Float) : Leaf (.number x) (.numeral x)
  | string (s : String) : Leaf (.string s) (.literal (.string s))
  | bool (b : Bool) : Leaf (.bool b) (.literal (.bool b))
  | null : Leaf .null (.literal .null)
  | variable (target : Reference) : Leaf (.variable target) (.variable target)

/-- Words that are a phrase of a category, with its tree.  In an eager derivation a negation
that begins with `NOT` is made by that `NOT`. -/
inductive Derives (eager : Bool) : Category → List TokenKind → Tree → Prop
  | plain {words : List TokenKind} {tree : Tree} :
      Derives eager (.chain .disjunction) words tree → Derives eager .conditional words tree
  | conditional {condition yes no : List TokenKind} {c y n : Tree} :
      Derives eager (.chain .disjunction) condition c → Derives eager .conditional yes y →
      Derives eager .conditional no n →
      Derives eager .conditional (condition ++ .question :: (yes ++ .colon :: no))
        (.conditional c y n)
  | operand {level : Level} {words : List TokenKind} {tree : Tree} :
      Derives eager level.operand words tree → Derives eager (.chain level) words tree
  | join {level : Level} {left right : List TokenKind} {word : TokenKind}
      {combine : Tree → Tree → Tree} {l r : Tree} :
      Derives eager (.chain level) left l → level.Joins word combine →
      Derives eager level.operand right r →
      Derives eager (.chain level) (left ++ word :: right) (combine l r)
  | not {words : List TokenKind} {tree : Tree} :
      Derives eager .negation words tree → Derives eager .negation (.not :: words) (.not tree)
  | comparison {words : List TokenKind} {tree : Tree} :
      Derives eager (.chain .comparison) words tree →
      (eager = true → words.head? ≠ some .not) → Derives eager .negation words tree
  | minus {words : List TokenKind} {tree : Tree} :
      Derives eager .unary words tree →
      Derives eager .unary (.operator .sub :: words) (.negate tree)
  | invert {words : List TokenKind} {tree : Tree} :
      Derives eager .unary words tree → Derives eager .unary (.not :: words) (.not tree)
  | primary {words : List TokenKind} {tree : Tree} :
      Derives eager .primary words tree → Derives eager .unary words tree
  | leaf {word : TokenKind} {tree : Tree} :
      Leaf word tree → Derives eager .primary [word] tree
  | group {words : List TokenKind} {tree : Tree} :
      Derives eager .conditional words tree →
      Derives eager .primary (.opening :: (words ++ [.closing])) tree

theorem Level.join?_eq_some_iff {level : Level} {word : TokenKind}
    {combine : Tree → Tree → Tree} :
    level.join? word = some combine ↔ level.Joins word combine := by
  constructor
  · intro h
    unfold join? at h
    split at h <;> cases h
    · exact .or
    · exact .and
    iterate 6 · exact .comparison (by decide)
    iterate 2 · exact .sum (by decide)
    iterate 2 · exact .product (by decide)
  · intro h
    cases h with
    | or => rfl
    | and => rfl
    | @comparison op member => cases op <;> first | rfl | simp at member
    | @sum op member => cases op <;> first | rfl | simp at member
    | @product op member => cases op <;> first | rfl | simp at member

private theorem Level.Joins.ne_eof {level : Level} {word : TokenKind} {combine : Tree → Tree → Tree}
    (h : level.Joins word combine) : word ≠ .eof := by
  cases h <;> simp

private theorem Leaf.ne_eof {word : TokenKind} {tree : Tree} (h : Leaf word tree) :
    word ≠ .eof := by
  cases h <;> simp

namespace Derives

variable {eager : Bool} {category : Category} {words : List TokenKind} {tree : Tree}

theorem ne_nil (h : Derives eager category words tree) : words ≠ [] := by
  induction h with
  | plain _ ih => exact ih
  | conditional => simp
  | operand _ ih => exact ih
  | join => simp
  | not => simp
  | comparison _ _ ih => exact ih
  | minus => simp
  | invert => simp
  | primary _ ih => exact ih
  | leaf => simp
  | group => simp

theorem eof_not_mem (h : Derives eager category words tree) : .eof ∉ words := by
  induction h with
  | plain _ ih => exact ih
  | conditional _ _ _ condition yes no => simp [condition, yes, no]
  | operand _ ih => exact ih
  | join _ joins _ left right => simp [left, right, joins.ne_eof.symm]
  | not _ ih => simp [ih]
  | comparison _ _ ih => exact ih
  | minus _ ih => simp [ih]
  | invert _ ih => simp [ih]
  | primary _ ih => exact ih
  | leaf leaf => simp [leaf.ne_eof.symm]
  | group _ ih => simp [ih]

theorem head?_primary (h : Derives eager .primary words tree) :
    words.head? ≠ some (.operator .sub) ∧ words.head? ≠ some .not := by
  cases h with
  | leaf leaf => cases leaf <;> simp
  | group => simp

theorem of_eager (h : Derives true category words tree) : Derives false category words tree := by
  induction h with
  | plain _ ih => exact .plain ih
  | conditional _ _ _ condition yes no => exact .conditional condition yes no
  | operand _ ih => exact .operand ih
  | join _ joins _ left right => exact .join left joins right
  | not _ ih => exact .not ih
  | comparison _ _ ih => exact .comparison ih (by simp)
  | minus _ ih => exact .minus ih
  | invert _ ih => exact .invert ih
  | primary _ ih => exact .primary ih
  | leaf leaf => exact .leaf leaf
  | group _ ih => exact .group ih

end Derives

def Category.isArithmetic : Category → Bool
  | .unary | .chain .product | .chain .sum | .chain .comparison => true
  | _ => false

private theorem Level.isArithmetic_operand {level : Level}
    (h : (Category.chain level).isArithmetic = true) : level.operand.isArithmetic = true := by
  cases level <;> simp [Category.isArithmetic, operand] at h ⊢

namespace Derives

variable {category : Category} {words : List TokenKind} {tree : Tree}

private theorem of_not {rest : List TokenKind} (h : Derives true category (.not :: rest) tree)
    (arithmetic : category.isArithmetic = true) : ∃ other, Derives true category rest other := by
  generalize begins : TokenKind.not :: rest = words at h
  -- The `NOT` stands in the leftmost operand, however deep, and only a unary phrase takes it.
  induction h generalizing rest with
  | operand _ ih =>
      obtain ⟨other, inner⟩ := ih (Level.isArithmetic_operand arithmetic) begins
      exact ⟨other, .operand inner⟩
  | @join _ left _ _ _ _ _ first joins right ih =>
      cases left with
      | nil => exact absurd rfl first.ne_nil
      | cons word left =>
          rw [List.cons_append, List.cons.injEq] at begins
          obtain ⟨rfl, rfl⟩ := begins
          obtain ⟨other, inner⟩ := ih arithmetic rfl
          exact ⟨_, .join inner joins right⟩
  | invert inner =>
      rw [List.cons.injEq] at begins
      obtain ⟨_, rfl⟩ := begins
      exact ⟨_, inner⟩
  | minus => simp at begins
  | primary inner =>
      subst begins
      exact absurd rfl inner.head?_primary.2
  | plain => simp [Category.isArithmetic] at arithmetic
  | conditional => simp [Category.isArithmetic] at arithmetic
  | not => simp [Category.isArithmetic] at arithmetic
  | comparison => simp [Category.isArithmetic] at arithmetic
  | leaf => simp [Category.isArithmetic] at arithmetic
  | group => simp [Category.isArithmetic] at arithmetic

private theorem negation_of_comparison (h : Derives true (.chain .comparison) words tree) :
    ∃ other, Derives true .negation words other := by
  induction words generalizing tree with
  | nil => exact absurd rfl h.ne_nil
  | cons word rest ih =>
      by_cases begins : word = .not
      · subst begins
        obtain ⟨_, inner⟩ := h.of_not rfl
        obtain ⟨other, negation⟩ := ih inner
        exact ⟨_, .not negation⟩
      · exact ⟨tree, .comparison h (by simpa using begins)⟩

theorem exists_eager (h : Derives false category words tree) :
    ∃ other, Derives true category words other := by
  induction h with
  | plain _ ih =>
      obtain ⟨other, inner⟩ := ih
      exact ⟨other, .plain inner⟩
  | conditional _ _ _ ih_condition ih_yes ih_no =>
      obtain ⟨_, condition⟩ := ih_condition
      obtain ⟨_, yes⟩ := ih_yes
      obtain ⟨_, no⟩ := ih_no
      exact ⟨_, .conditional condition yes no⟩
  | operand _ ih =>
      obtain ⟨other, inner⟩ := ih
      exact ⟨other, .operand inner⟩
  | join _ joins _ ih_left ih_right =>
      obtain ⟨_, left⟩ := ih_left
      obtain ⟨_, right⟩ := ih_right
      exact ⟨_, .join left joins right⟩
  | not _ ih =>
      obtain ⟨_, inner⟩ := ih
      exact ⟨_, .not inner⟩
  | comparison _ _ ih =>
      obtain ⟨_, inner⟩ := ih
      exact inner.negation_of_comparison
  | minus _ ih =>
      obtain ⟨_, inner⟩ := ih
      exact ⟨_, .minus inner⟩
  | invert _ ih =>
      obtain ⟨_, inner⟩ := ih
      exact ⟨_, .invert inner⟩
  | primary _ ih =>
      obtain ⟨other, inner⟩ := ih
      exact ⟨other, .primary inner⟩
  | leaf leaf => exact ⟨_, .leaf leaf⟩
  | group _ ih =>
      obtain ⟨other, inner⟩ := ih
      exact ⟨other, .group inner⟩

end Derives

end Tollgate.Expr
