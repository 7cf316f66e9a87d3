import Tollgate.Proofs.Expr.Grammar

/-!
# Readers without their proofs

The readers return proofs that their rests are shorter.  Without these proofs
they satisfy plain equations, one for each category of the grammar.  The
equations hold with the errors of the readers and, in a shorter form, for the
trees alone.
-/

namespace Tollgate.Expr

def plain {leaves : List Token → Prop}
    (outcome : Except ParseError (Tree × { rest : List Token // leaves rest })) :
    Except ParseError (Tree × List Token) :=
  outcome.map fun (tree, rest) => (tree, rest.1)

def Category.read (category : Category) (tokens : List Token) :
    Except ParseError (Tree × List Token) :=
  match category with
  | .conditional => plain (readConditional tokens)
  | .chain level => plain (readChain level tokens)
  | .negation => plain (readNegation tokens)
  | .unary => plain (readUnary tokens)
  | .primary => plain (readPrimary tokens)

def Level.extend (level : Level) (left : Tree) (tokens : List Token) :
    Except ParseError (Tree × List Token) :=
  plain (extendChain level left tokens)

def after? (kind : TokenKind) : List Token → Option (List Token)
  | [] => none
  | token :: rest => if token.kind = kind then some rest else none

def require (kind : TokenKind) (expected : Expected) (tokens : List Token) :
    Except ParseError (List Token) :=
  match after? kind tokens with
  | some rest => .ok rest
  | none => .error (unexpected expected tokens)

def TokenKind.leaf? : TokenKind → Option Tree
  | .number x => some (.numeral x)
  | .string s => some (.literal (.string s))
  | .bool b => some (.literal (.bool b))
  | .null => some (.literal .null)
  | .variable target => some (.variable target)
  | _ => none

namespace Category

theorem read_operand (level : Level) (tokens : List Token) :
    plain (readOperand level tokens) = level.operand.read tokens := by
  unfold readOperand
  cases level <;> rfl

theorem read_chain (level : Level) (tokens : List Token) :
    (chain level).read tokens =
      (level.operand.read tokens).bind fun (left, rest) => level.extend left rest := by
  rw [← read_operand, read, readChain]
  rcases readOperand level tokens with error | ⟨left, rest, shorter⟩
  · rfl
  · dsimp only [plain, Except.map, Except.bind, Level.extend]
    rcases extendChain level left rest with error | ⟨tree, rest, notLonger⟩ <;> rfl

theorem extend_nil (level : Level) (left : Tree) : level.extend left [] = .ok (left, []) := by
  rw [Level.extend, extendChain]
  rfl

theorem extend_cons (level : Level) (left : Tree) (token : Token) (rest : List Token) :
    level.extend left (token :: rest) =
      match level.join? token.kind with
      | none => .ok (left, token :: rest)
      | some combine =>
          (level.operand.read rest).bind fun (right, rest) =>
            level.extend (combine left right) rest := by
  rw [Level.extend, extendChain]
  cases level.join? token.kind with
  | none => rfl
  | some combine =>
      dsimp only
      rw [← read_operand]
      rcases readOperand level rest with error | ⟨right, rest₁, shorter⟩
      · rfl
      · dsimp only [plain, Except.map, Except.bind, Level.extend]
        rcases extendChain level (combine left right) rest₁
          with error | ⟨tree, rest₂, notLonger⟩ <;>
          rfl

theorem read_conditional (tokens : List Token) :
    conditional.read tokens =
      ((chain .disjunction).read tokens).bind fun (condition, rest) =>
        match after? .question rest with
        | none => .ok (condition, rest)
        | some rest =>
            (conditional.read rest).bind fun (yes, rest) =>
              (require .colon .colon rest).bind fun rest =>
                (conditional.read rest).map fun (no, rest) =>
                  (.conditional condition yes no, rest) := by
  simp only [read]
  rw [readConditional]
  rcases readChain .disjunction tokens with error | ⟨condition, _ | ⟨token, rest⟩, shorter⟩
  · rfl
  · rfl
  · dsimp only [plain, Except.map, Except.bind, after?]
    by_cases question : token.kind = .question
    · rw [if_pos question, if_pos question]
      dsimp only
      rcases readConditional rest with error | ⟨yes, _ | ⟨mark, after⟩, shorter⟩
      · rfl
      · rfl
      · dsimp only [require, after?]
        by_cases colon : mark.kind = .colon
        · rw [if_pos colon, if_pos colon]
          dsimp only
          rcases readConditional after with error | ⟨no, rest, shorter⟩ <;> rfl
        · rw [if_neg colon, if_neg colon]
    · rw [if_neg question, if_neg question]

theorem read_negation (tokens : List Token) :
    negation.read tokens =
      match after? .not tokens with
      | some rest => (negation.read rest).map fun (operand, rest) => (.not operand, rest)
      | none => (chain .comparison).read tokens := by
  simp only [read]
  cases tokens with
  | nil =>
      rw [readNegation]
      rfl
  | cons token rest =>
      rw [readNegation, after?]
      by_cases negates : token.kind = .not
      · rw [if_pos negates, if_pos negates]
        dsimp only
        rcases readNegation rest with error | ⟨operand, rest, shorter⟩ <;> rfl
      · rw [if_neg negates, if_neg negates]

theorem read_unary (tokens : List Token) :
    unary.read tokens =
      match after? (.operator .sub) tokens, after? .not tokens with
      | some rest, _ => (unary.read rest).map fun (operand, rest) => (.negate operand, rest)
      | none, some rest => (unary.read rest).map fun (operand, rest) => (.not operand, rest)
      | none, none => primary.read tokens := by
  simp only [read]
  cases tokens with
  | nil =>
      rw [readUnary]
      rfl
  | cons token rest =>
      rw [readUnary, after?, after?]
      by_cases minus : token.kind = .operator .sub
      · rw [if_pos minus, if_pos minus]
        dsimp only
        rcases readUnary rest with error | ⟨operand, rest, shorter⟩ <;> rfl
      · rw [if_neg minus, if_neg minus]
        by_cases negates : token.kind = .not
        · rw [if_pos negates, if_pos negates]
          dsimp only
          rcases readUnary rest with error | ⟨operand, rest, shorter⟩ <;> rfl
        · rw [if_neg negates, if_neg negates]

theorem read_primary_nil : primary.read [] = .error (unexpected .operand []) := by
  rw [read, readPrimary]
  rfl

theorem read_primary (token : Token) (rest : List Token) :
    primary.read (token :: rest) =
      if token.kind = .opening then
        (conditional.read rest).bind fun (tree, rest) =>
          (require .closing .closing rest).map fun rest => (tree, rest)
      else
        match token.kind.leaf? with
        | some tree => .ok (tree, rest)
        | none => .error (unexpected .operand (token :: rest)) := by
  simp only [read]
  rw [readPrimary]
  rcases token with ⟨kind, position⟩
  cases kind with
  | opening =>
      rw [if_pos rfl]
      rcases readConditional rest with error | ⟨tree, _ | ⟨mark, after⟩, shorter⟩
      · rfl
      · rfl
      · dsimp only [plain, Except.map, Except.bind, require, after?]
        by_cases closes : mark.kind = .closing
        · rw [if_pos closes, if_pos closes]
        · rw [if_neg closes, if_neg closes]
  | _ => rfl

end Category

section ToOption

variable {ε α β : Type}

theorem toOption_bind (outcome : Except ε α) (next : α → Except ε β) :
    (outcome.bind next).toOption = outcome.toOption.bind fun a => (next a).toOption := by
  cases outcome <;> rfl

theorem toOption_map (outcome : Except ε α) (f : α → β) :
    (outcome.map f).toOption = outcome.toOption.map f := by
  cases outcome <;> rfl

end ToOption

def reached {leaves : List Token → Prop}
    (outcome : Except ParseError (Tree × { rest : List Token // leaves rest })) :
    Option (Tree × List Token) :=
  match outcome with
  | .ok (tree, rest) => some (tree, rest.1)
  | .error _ => none

theorem toOption_plain {leaves : List Token → Prop}
    (outcome : Except ParseError (Tree × { rest : List Token // leaves rest })) :
    (plain outcome).toOption = reached outcome := by
  cases outcome <;> rfl

def Category.read? (category : Category) (tokens : List Token) : Option (Tree × List Token) :=
  match category with
  | .conditional => reached (readConditional tokens)
  | .chain level => reached (readChain level tokens)
  | .negation => reached (readNegation tokens)
  | .unary => reached (readUnary tokens)
  | .primary => reached (readPrimary tokens)

def Level.extend? (level : Level) (left : Tree) (tokens : List Token) :
    Option (Tree × List Token) :=
  reached (extendChain level left tokens)

theorem toOption_require (kind : TokenKind) (expected : Expected) (tokens : List Token) :
    (require kind expected tokens).toOption = after? kind tokens := by
  unfold require
  cases after? kind tokens <;> rfl

namespace Category

theorem toOption_read (category : Category) (tokens : List Token) :
    (category.read tokens).toOption = category.read? tokens := by
  cases category <;> exact toOption_plain _

theorem toOption_extend (level : Level) (left : Tree) (tokens : List Token) :
    (level.extend left tokens).toOption = level.extend? left tokens :=
  toOption_plain _

theorem read?_chain (level : Level) (tokens : List Token) :
    (chain level).read? tokens =
      (level.operand.read? tokens).bind fun (left, rest) => level.extend? left rest := by
  rw [← toOption_read, read_chain, toOption_bind, toOption_read]
  exact congrArg _ (funext fun _ => toOption_extend level _ _)

theorem extend?_nil (level : Level) (left : Tree) : level.extend? left [] = some (left, []) := by
  rw [← toOption_extend, extend_nil]
  rfl

theorem extend?_cons (level : Level) (left : Tree) (token : Token) (rest : List Token) :
    level.extend? left (token :: rest) =
      match level.join? token.kind with
      | none => some (left, token :: rest)
      | some combine =>
          (level.operand.read? rest).bind fun (right, rest) =>
            level.extend? (combine left right) rest := by
  rw [← toOption_extend, extend_cons]
  cases level.join? token.kind with
  | none => rfl
  | some combine =>
      dsimp only
      rw [toOption_bind, toOption_read]
      exact congrArg _ (funext fun _ => toOption_extend level _ _)

theorem read?_conditional (tokens : List Token) :
    conditional.read? tokens =
      ((chain .disjunction).read? tokens).bind fun (condition, rest) =>
        match after? .question rest with
        | none => some (condition, rest)
        | some rest =>
            (conditional.read? rest).bind fun (yes, rest) =>
              (after? .colon rest).bind fun rest =>
                (conditional.read? rest).map fun (no, rest) =>
                  (.conditional condition yes no, rest) := by
  rw [← toOption_read, read_conditional, toOption_bind, toOption_read]
  refine congrArg _ (funext fun (condition, rest) => ?_)
  dsimp only
  cases after? .question rest with
  | none => rfl
  | some rest => simp only [toOption_bind, toOption_map, toOption_read, toOption_require]

theorem read?_negation (tokens : List Token) :
    negation.read? tokens =
      match after? .not tokens with
      | some rest => (negation.read? rest).map fun (operand, rest) => (.not operand, rest)
      | none => (chain .comparison).read? tokens := by
  rw [← toOption_read, read_negation]
  cases after? .not tokens <;> simp only [toOption_map, toOption_read]

theorem read?_unary (tokens : List Token) :
    unary.read? tokens =
      match after? (.operator .sub) tokens, after? .not tokens with
      | some rest, _ => (unary.read? rest).map fun (operand, rest) => (.negate operand, rest)
      | none, some rest => (unary.read? rest).map fun (operand, rest) => (.not operand, rest)
      | none, none => primary.read? tokens := by
  rw [← toOption_read, read_unary]
  cases after? (.operator .sub) tokens <;> cases after? .not tokens <;>
    simp only [toOption_map, toOption_read]

theorem read?_primary_nil : primary.read? [] = none := by
  rw [← toOption_read, read_primary_nil]
  rfl

theorem read?_primary (token : Token) (rest : List Token) :
    primary.read? (token :: rest) =
      if token.kind = .opening then
        (conditional.read? rest).bind fun (tree, rest) =>
          (after? .closing rest).map fun rest => (tree, rest)
      else token.kind.leaf?.map fun tree => (tree, rest) := by
  rw [← toOption_read, read_primary, apply_ite Except.toOption]
  congr 1
  · simp only [toOption_bind, toOption_map, toOption_read, toOption_require]
  · cases token.kind.leaf? <;> rfl

end Category

end Tollgate.Expr
