import Tollgate.Expr.Tree

/-!
# Reading expressions

The grammar has, from loose to tight, the conditional form, `OR`, `AND`, `NOT`,
comparisons, sums, products and unary operators.  Chains of operators group to
the left and the conditional form to the right.  A `NOT` takes the whole
comparison after it, but only one unary operand inside arithmetic.

Every reader returns what follows its phrase together with a proof that the
rest is shorter, so reading ends on every list of tokens.
-/

namespace Tollgate.Expr

abbrev Shorter (tokens : List Token) := { rest : List Token // rest.length < tokens.length }

abbrev NotLonger (tokens : List Token) := { rest : List Token // rest.length ≤ tokens.length }

abbrev Phrase (tokens : List Token) := Except ParseError (Tree × Shorter tokens)

abbrev ChainEnd (tokens : List Token) := Except ParseError (Tree × NotLonger tokens)

def unexpected (expected : Expected) : List Token → ParseError
  | [] => .unexpectedEnd expected
  | token :: _ =>
      match token.kind with
      | .eof => .unexpectedEnd expected
      | kind => .unexpectedToken kind.text token.position expected

/-- The levels of left-grouped binary operators, from loose to tight. -/
inductive Level where
  | disjunction
  | conjunction
  | comparison
  | sum
  | product
  deriving DecidableEq, Repr

def Level.join? : Level → TokenKind → Option (Tree → Tree → Tree)
  | .disjunction, .or => some .or
  | .conjunction, .and => some .and
  | .comparison, .operator .gt => some (.binary .gt)
  | .comparison, .operator .lt => some (.binary .lt)
  | .comparison, .operator .ge => some (.binary .ge)
  | .comparison, .operator .le => some (.binary .le)
  | .comparison, .operator .eq => some (.binary .eq)
  | .comparison, .operator .ne => some (.binary .ne)
  | .sum, .operator .add => some (.binary .add)
  | .sum, .operator .sub => some (.binary .sub)
  | .product, .operator .mul => some (.binary .mul)
  | .product, .operator .div => some (.binary .div)
  | _, _ => none

def Level.rank : Level → Nat
  | .disjunction => 12
  | .conjunction => 10
  | .comparison => 7
  | .sum => 5
  | .product => 3

theorem Level.rank_le (level : Level) : level.rank ≤ 12 := by
  cases level <;> decide

mutual

def readConditional (tokens : List Token) : Phrase tokens :=
  match readChain .disjunction tokens with
  | .error error => .error error
  | .ok (condition, ⟨[], shorter⟩) => .ok (condition, ⟨[], shorter⟩)
  | .ok (condition, ⟨token :: rest, shorter⟩) =>
      if token.kind = .question then
        match readConditional rest with
        | .error error => .error error
        | .ok (_, ⟨[], _⟩) => .error (unexpected .colon [])
        | .ok (yes, ⟨mark :: after, shorter₁⟩) =>
            if mark.kind = .colon then
              match readConditional after with
              | .error error => .error error
              | .ok (no, ⟨rest₂, shorter₂⟩) =>
                  .ok (.conditional condition yes no, ⟨rest₂, by
                    simp only [List.length_cons] at shorter shorter₁ shorter₂; omega⟩)
            else .error (unexpected .colon (mark :: after))
      else .ok (condition, ⟨token :: rest, shorter⟩)
  termination_by 16 * tokens.length + 14
  decreasing_by all_goals grind [Level.rank, Level.rank_le]

def readChain (level : Level) (tokens : List Token) : Phrase tokens :=
  match readOperand level tokens with
  | .error error => .error error
  | .ok (left, ⟨rest, shorter⟩) =>
      match extendChain level left rest with
      | .error error => .error error
      | .ok (tree, ⟨rest₁, notLonger⟩) => .ok (tree, ⟨rest₁, by omega⟩)
  termination_by 16 * tokens.length + (level.rank + 1)
  decreasing_by all_goals grind [Level.rank, Level.rank_le]

def extendChain (level : Level) (left : Tree) (tokens : List Token) : ChainEnd tokens :=
  match tokens with
  | [] => .ok (left, ⟨[], Nat.le_refl _⟩)
  | token :: rest =>
      match level.join? token.kind with
      | none => .ok (left, ⟨token :: rest, Nat.le_refl _⟩)
      | some join =>
          match readOperand level rest with
          | .error error => .error error
          | .ok (right, ⟨rest₁, shorter⟩) =>
              match extendChain level (join left right) rest₁ with
              | .error error => .error error
              | .ok (tree, ⟨rest₂, notLonger⟩) =>
                  .ok (tree, ⟨rest₂, by simp only [List.length_cons]; omega⟩)
  termination_by 16 * tokens.length
  decreasing_by all_goals grind [Level.rank, Level.rank_le]

def readOperand (level : Level) (tokens : List Token) : Phrase tokens :=
  match level with
  | .disjunction => readChain .conjunction tokens
  | .conjunction => readNegation tokens
  | .comparison => readChain .sum tokens
  | .sum => readChain .product tokens
  | .product => readUnary tokens
  termination_by 16 * tokens.length + level.rank
  decreasing_by all_goals grind [Level.rank, Level.rank_le]

/-- A `NOT` here takes the whole comparison that follows. -/
def readNegation (tokens : List Token) : Phrase tokens :=
  match tokens with
  | [] => readChain .comparison []
  | token :: rest =>
      if token.kind = .not then
        match readNegation rest with
        | .error error => .error error
        | .ok (operand, ⟨rest₁, shorter⟩) =>
            .ok (.not operand, ⟨rest₁, by simp only [List.length_cons]; omega⟩)
      else readChain .comparison (token :: rest)
  termination_by 16 * tokens.length + 9
  decreasing_by all_goals grind [Level.rank, Level.rank_le]

def readUnary (tokens : List Token) : Phrase tokens :=
  match tokens with
  | [] => readPrimary []
  | token :: rest =>
      if token.kind = .operator .sub then
        match readUnary rest with
        | .error error => .error error
        | .ok (operand, ⟨rest₁, shorter⟩) =>
            .ok (.negate operand, ⟨rest₁, by simp only [List.length_cons]; omega⟩)
      else if token.kind = .not then
        match readUnary rest with
        | .error error => .error error
        | .ok (operand, ⟨rest₁, shorter⟩) =>
            .ok (.not operand, ⟨rest₁, by simp only [List.length_cons]; omega⟩)
      else readPrimary (token :: rest)
  termination_by 16 * tokens.length + 2
  decreasing_by all_goals grind [Level.rank, Level.rank_le]

def readPrimary (tokens : List Token) : Phrase tokens :=
  match tokens with
  | [] => .error (unexpected .operand [])
  | token :: rest =>
      match token.kind with
      | .number x => .ok (.numeral x, ⟨rest, Nat.lt_succ_self _⟩)
      | .string s => .ok (.literal (.string s), ⟨rest, Nat.lt_succ_self _⟩)
      | .bool b => .ok (.literal (.bool b), ⟨rest, Nat.lt_succ_self _⟩)
      | .null => .ok (.literal .null, ⟨rest, Nat.lt_succ_self _⟩)
      | .variable target => .ok (.variable target, ⟨rest, Nat.lt_succ_self _⟩)
      | .opening =>
          match readConditional rest with
          | .error error => .error error
          | .ok (_, ⟨[], _⟩) => .error (unexpected .closing [])
          | .ok (tree, ⟨mark :: after, shorter⟩) =>
              if mark.kind = .closing then
                .ok (tree, ⟨after, by simp only [List.length_cons] at *; omega⟩)
              else .error (unexpected .closing (mark :: after))
      | _ => .error (unexpected .operand (token :: rest))
  termination_by 16 * tokens.length + 1
  decreasing_by all_goals grind [Level.rank, Level.rank_le]

end

def readAll (tokens : List Token) : Except ParseError Tree :=
  match readConditional tokens with
  | .error error => .error error
  | .ok (tree, ⟨rest, _⟩) =>
      match rest with
      | [] => .ok tree
      | token :: more =>
          if token.kind = .eof then .ok tree else .error (unexpected .finish (token :: more))

def parse (text : String) : Except ParseError Tree :=
  match tokenize text with
  | .error error => .error error
  | .ok tokens => readAll tokens

end Tollgate.Expr
