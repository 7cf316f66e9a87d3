import Tollgate.Proofs.Expr.Layout
import Tollgate.Proofs.Expr.Reading

/-!
# Reading by positions

A walk reads tokens by their indices.  It looks at the token at its position,
at times without a check that there is one, and goes on by one when it has used
that token.  On tokens of which exactly the last one marks the end, a walk
comes to the same tree or error as the readers, and it neither leaves the
tokens nor runs out of fuel.
-/

namespace Tollgate.Expr

/-! ## Walks -/

/-- Where a walk stands, and where it has stood before. -/
structure Cursor where
  position : Nat := 0
  past : List Nat := []

def Cursor.step (cursor : Cursor) : Cursor :=
  ⟨cursor.position + 1, cursor.past ++ [cursor.position]⟩

inductive Walk (α : Type) where
  | arrived (value : α) (cursor : Cursor)
  | refused (error : ParseError) (cursor : Cursor)
  /-- There is no token at an index that was used. -/
  | astray (index : Nat)
  /-- The fuel was used up. -/
  | unfinished

def Walk.andThen {α β : Type} (walk : Walk α) (next : α → Cursor → Walk β) : Walk β :=
  match walk with
  | .arrived value cursor => next value cursor
  | .refused error cursor => .refused error cursor
  | .astray index => .astray index
  | .unfinished => .unfinished

section Moves

variable (tokens : List Token)

def look (index : Nat) (cursor : Cursor) : Walk Token :=
  match tokens[index]? with
  | some token => .arrived token cursor
  | none => .astray index

def peek (cursor : Cursor) : Walk Token :=
  look tokens (min cursor.position (tokens.length - 1)) cursor

def eat (kind : TokenKind) (cursor : Cursor) : Walk Bool :=
  (peek tokens cursor).andThen fun token cursor =>
    if token.kind = kind then .arrived true cursor.step else .arrived false cursor

def advance (cursor : Cursor) : Walk Token :=
  (peek tokens cursor).andThen fun token cursor =>
    .arrived token (if cursor.position < tokens.length - 1 then cursor.step else cursor)

def expect (kind : TokenKind) (expected : Expected) (cursor : Cursor) : Walk Unit :=
  (eat tokens kind cursor).andThen fun eaten cursor =>
    if eaten then .arrived () cursor
    else
      (look tokens cursor.position cursor).andThen fun token cursor =>
        .refused (unexpected expected [token]) cursor

def expectEnd (tree : Tree) (cursor : Cursor) : Walk Tree :=
  (look tokens cursor.position cursor).andThen fun token cursor =>
    if token.kind = .eof then .arrived tree cursor
    else .refused (unexpected .finish [token]) cursor

end Moves

inductive Task where
  | phrase (category : Category)
  | extend (level : Level) (left : Tree)

@[simp] def walk (tokens : List Token) : Nat → Task → Cursor → Walk Tree
  | 0, _, _ => .unfinished
  | fuel + 1, .phrase .conditional, cursor =>
      (walk tokens fuel (.phrase (.chain .disjunction)) cursor).andThen fun condition cursor =>
        (eat tokens .question cursor).andThen fun asks cursor =>
          if asks then
            (walk tokens fuel (.phrase .conditional) cursor).andThen fun yes cursor =>
              (expect tokens .colon .colon cursor).andThen fun _ cursor =>
                (walk tokens fuel (.phrase .conditional) cursor).andThen fun no cursor =>
                  .arrived (.conditional condition yes no) cursor
          else .arrived condition cursor
  | fuel + 1, .phrase (.chain level), cursor =>
      (walk tokens fuel (.phrase level.operand) cursor).andThen fun left cursor =>
        walk tokens fuel (.extend level left) cursor
  | fuel + 1, .extend level left, cursor =>
      (peek tokens cursor).andThen fun token cursor =>
        match level.join? token.kind with
        | none => .arrived left cursor
        | some join =>
            (walk tokens fuel (.phrase level.operand) cursor.step).andThen fun right cursor =>
              walk tokens fuel (.extend level (join left right)) cursor
  | fuel + 1, .phrase .negation, cursor =>
      (eat tokens .not cursor).andThen fun negates cursor =>
        if negates then
          (walk tokens fuel (.phrase .negation) cursor).andThen fun operand cursor =>
            .arrived (.not operand) cursor
        else walk tokens fuel (.phrase (.chain .comparison)) cursor
  | fuel + 1, .phrase .unary, cursor =>
      (eat tokens (.operator .sub) cursor).andThen fun minus cursor =>
        if minus then
          (walk tokens fuel (.phrase .unary) cursor).andThen fun operand cursor =>
            .arrived (.negate operand) cursor
        else
          (eat tokens .not cursor).andThen fun negates cursor =>
            if negates then
              (walk tokens fuel (.phrase .unary) cursor).andThen fun operand cursor =>
                .arrived (.not operand) cursor
            else walk tokens fuel (.phrase .primary) cursor
  | fuel + 1, .phrase .primary, cursor =>
      (advance tokens cursor).andThen fun token cursor =>
        if token.kind = .opening then
          (walk tokens fuel (.phrase .conditional) cursor).andThen fun tree cursor =>
            (expect tokens .closing .closing cursor).andThen fun _ cursor => .arrived tree cursor
        else
          match token.kind.leaf? with
          | some tree => .arrived tree cursor
          | none => .refused (unexpected .operand [token]) cursor

def walkAll (tokens : List Token) (fuel : Nat) : Walk Tree :=
  (walk tokens fuel (.phrase .conditional) {}).andThen (expectEnd tokens)

/-! ## Staying inside -/

/-- Exactly the last token marks the end. -/
structure IsEnded (tokens : List Token) : Prop where
  nonempty : tokens ≠ []
  eof_iff : ∀ index token, tokens[index]? = some token →
    (token.kind = .eof ↔ index + 1 = tokens.length)

theorem IsLaidOut.isEnded {text : String} {tokens : List Token} (h : IsLaidOut text tokens) :
    IsEnded tokens := by
  obtain ⟨body, rfl, inner⟩ := h.ended
  refine ⟨by simp, fun index token found => ?_⟩
  rw [List.length_append, List.length_singleton, Nat.add_right_cancel_iff]
  rcases Nat.lt_or_ge index body.length with inside | beyond
  · rw [List.getElem?_append_left inside] at found
    exact iff_of_false (inner token (List.mem_of_getElem? found)) inside.ne
  · rw [List.getElem?_append_right beyond, List.getElem?_singleton] at found
    split at found
    · next first =>
        cases found
        exact iff_of_true rfl (by omega)
    · cases found

structure Cursor.Reaches (tokens : List Token) (cursor later : Cursor) : Prop where
  inside : later.position < tokens.length
  le : cursor.position ≤ later.position
  past : later.past =
    cursor.past ++ List.range' cursor.position (later.position - cursor.position)

namespace Cursor

variable {tokens : List Token} {cursor later last : Cursor}

theorem reaches_self (inside : cursor.position < tokens.length) : cursor.Reaches tokens cursor :=
  ⟨inside, Nat.le_refl _, by rw [Nat.sub_self, List.range'_zero, List.append_nil]⟩

theorem reaches_step (inside : cursor.position + 1 < tokens.length) :
    cursor.Reaches tokens cursor.step := by
  refine ⟨inside, Nat.le_succ _, ?_⟩
  rw [step, Nat.add_sub_cancel_left, List.range'_one]

private theorem Reaches.trans (h : cursor.Reaches tokens later) (h' : later.Reaches tokens last) :
    cursor.Reaches tokens last := by
  refine ⟨h'.inside, h.le.trans h'.le, ?_⟩
  have parts := List.range'_append_1 (s := cursor.position)
    (m := later.position - cursor.position) (n := last.position - later.position)
  rw [Nat.add_sub_cancel' h.le] at parts
  have whole : later.position - cursor.position + (last.position - later.position) =
      last.position - cursor.position := by
    have := h.le
    have := h'.le
    omega
  rw [h'.past, h.past, List.append_assoc, parts, whole]

end Cursor

/-- A walk that comes to what a reader comes to, inside of the tokens. -/
inductive Agrees {α : Type} (tokens : List Token) (cursor : Cursor) :
    Walk α → Except ParseError (α × List Token) → Prop
  | arrived {value : α} {later : Cursor} : cursor.Reaches tokens later →
      Agrees tokens cursor (.arrived value later) (.ok (value, tokens.drop later.position))
  | refused {error : ParseError} {later : Cursor} : cursor.Reaches tokens later →
      Agrees tokens cursor (.refused error later) (.error error)

namespace Agrees

variable {α β : Type} {tokens : List Token} {cursor later : Cursor} {walk : Walk α}
  {outcome : Except ParseError (α × List Token)}

theorem of_reaches (on : cursor.Reaches tokens later) (h : Agrees tokens later walk outcome) :
    Agrees tokens cursor walk outcome := by
  cases h with
  | arrived on' => exact .arrived (on.trans on')
  | refused on' => exact .refused (on.trans on')

theorem andThen (h : Agrees tokens cursor walk outcome) {next : α → Cursor → Walk β}
    {more : α × List Token → Except ParseError (β × List Token)}
    (on : ∀ value later, cursor.Reaches tokens later →
      outcome = .ok (value, tokens.drop later.position) →
      Agrees tokens later (next value later) (more (value, tokens.drop later.position))) :
    Agrees tokens cursor (walk.andThen next) (outcome.bind more) := by
  cases h with
  | arrived reaches => exact (on _ _ reaches rfl).of_reaches reaches
  | refused reaches => exact .refused reaches

theorem map (h : Agrees tokens cursor walk outcome) (f : α → β) :
    Agrees tokens cursor (walk.andThen fun value cursor => .arrived (f value) cursor)
      (outcome.map fun (value, rest) => (f value, rest)) := by
  cases h with
  | arrived reaches => exact .arrived reaches
  | refused reaches => exact .refused reaches

end Agrees

/-! ## Moves on ended tokens -/

section Ended

variable {tokens : List Token} {cursor : Cursor}

theorem look_eq {index : Nat} (inside : index < tokens.length) :
    look tokens index cursor = .arrived tokens[index] cursor := by
  rw [look, List.getElem?_eq_getElem inside]

theorem peek_eq (inside : cursor.position < tokens.length) :
    peek tokens cursor = .arrived tokens[cursor.position] cursor := by
  have clamped : min cursor.position (tokens.length - 1) = cursor.position := by omega
  rw [peek, clamped, look_eq inside]

variable (ended : IsEnded tokens) (inside : cursor.position < tokens.length)

include ended inside

theorem IsEnded.step_inside (inner : tokens[cursor.position].kind ≠ .eof) :
    cursor.position + 1 < tokens.length := by
  have last := (ended.eof_iff _ _ (List.getElem?_eq_getElem inside)).mpr.mt inner
  omega

theorem eat_cases (kind : TokenKind) (inner : kind ≠ .eof) :
    (eat tokens kind cursor = .arrived true cursor.step ∧ cursor.Reaches tokens cursor.step ∧
        after? kind (tokens.drop cursor.position) = some (tokens.drop cursor.step.position)) ∨
      (eat tokens kind cursor = .arrived false cursor ∧
        after? kind (tokens.drop cursor.position) = none) := by
  rw [eat, peek_eq inside, List.drop_eq_getElem_cons inside]
  dsimp only [Walk.andThen, after?]
  by_cases same : tokens[cursor.position].kind = kind
  · rw [if_pos same, if_pos same]
    exact .inl ⟨rfl, Cursor.reaches_step (ended.step_inside inside (same ▸ inner)), rfl⟩
  · rw [if_neg same, if_neg same]
    exact .inr ⟨rfl, rfl⟩

theorem agrees_expect {α : Type} (kind : TokenKind) (inner : kind ≠ .eof) (expected : Expected)
    {next : Unit → Cursor → Walk α} {more : List Token → Except ParseError (α × List Token)}
    (on : cursor.Reaches tokens cursor.step →
      Agrees tokens cursor.step (next () cursor.step) (more (tokens.drop cursor.step.position))) :
    Agrees tokens cursor ((expect tokens kind expected cursor).andThen next)
      ((require kind expected (tokens.drop cursor.position)).bind more) := by
  rcases eat_cases ended inside kind inner with ⟨eaten, reaches, follows⟩ | ⟨kept, missing⟩
  · rw [expect, require, eaten, follows]
    exact (on reaches).of_reaches reaches
  · rw [expect, require, kept, missing, List.drop_eq_getElem_cons inside]
    dsimp only [Walk.andThen, Except.bind]
    rw [if_neg Bool.false_ne_true, look_eq inside]
    exact .refused (Cursor.reaches_self inside)

theorem advance_cases :
    (tokens[cursor.position].kind ≠ .eof ∧ cursor.Reaches tokens cursor.step ∧
        advance tokens cursor = .arrived tokens[cursor.position] cursor.step) ∨
      (tokens[cursor.position].kind = .eof ∧
        advance tokens cursor = .arrived tokens[cursor.position] cursor) := by
  have last := ended.eof_iff _ _ (List.getElem?_eq_getElem inside)
  rw [advance, peek_eq inside]
  dsimp only [Walk.andThen]
  by_cases ends : tokens[cursor.position].kind = .eof
  · rw [if_neg (by have := last.mp ends; omega)]
    exact .inr ⟨ends, rfl⟩
  · have more := ended.step_inside inside ends
    rw [if_pos (by omega)]
    exact .inl ⟨ends, Cursor.reaches_step more, rfl⟩

end Ended

/-! ## Walks on ended tokens -/

namespace Task

def rank : Task → Nat
  | .phrase category => category.rank + 1
  | .extend _ _ => 1

def read : Task → List Token → Except ParseError (Tree × List Token)
  | .phrase category, tokens => category.read tokens
  | .extend level left, tokens => level.extend left tokens

end Task

private theorem Category.length_of_read {category : Category} {tokens rest : List Token}
    {tree : Tree} (h : category.read tokens = .ok (tree, rest)) : rest.length < tokens.length := by
  have read : category.read? tokens = some (tree, rest) := by
    rw [← toOption_read, h]
    rfl
  exact length_of_read? read

def Follows (tokens : List Token) (fuel : Nat) (task : Task) (cursor : Cursor) : Prop :=
  cursor.position < tokens.length →
    16 * (tokens.length - cursor.position) + task.rank ≤ fuel →
    Agrees tokens cursor (walk tokens fuel task cursor)
      (task.read (tokens.drop cursor.position))

section Step

variable {tokens : List Token} {fuel : Nat} (ended : IsEnded tokens)
  (below : ∀ task cursor, Follows tokens fuel task cursor)

theorem position_lt_of_read (category : Category) {cursor later : Cursor} {tree : Tree}
    (inside : later.position < tokens.length)
    (read : category.read (tokens.drop cursor.position) =
      .ok (tree, tokens.drop later.position)) : cursor.position < later.position := by
  have shorter := Category.length_of_read read
  rw [List.length_drop, List.length_drop] at shorter
  omega

include below

theorem follows_chain (level : Level) (cursor : Cursor) :
    Follows tokens (fuel + 1) (.phrase (.chain level)) cursor := by
  intro inside enough
  have tighter := Category.rank_operand_lt level
  simp only [Task.rank] at enough
  rw [walk, Task.read, Category.read_chain]
  refine (below (.phrase level.operand) cursor inside (by simp only [Task.rank]; omega)).andThen
    fun left later reaches read => ?_
  have on := position_lt_of_read level.operand reaches.inside read
  exact below (.extend level left) later reaches.inside (by simp only [Task.rank]; omega)

include ended

theorem follows_extend (level : Level) (left : Tree) (cursor : Cursor) :
    Follows tokens (fuel + 1) (.extend level left) cursor := by
  intro inside enough
  simp only [Task.rank] at enough
  rw [walk, peek_eq inside, Task.read, List.drop_eq_getElem_cons inside, Category.extend_cons]
  dsimp only [Walk.andThen]
  cases joins : level.join? tokens[cursor.position].kind with
  | none =>
      dsimp only
      rw [← List.drop_eq_getElem_cons inside]
      exact .arrived (Cursor.reaches_self inside)
  | some join =>
      have more : cursor.position + 1 < tokens.length := by
        refine ended.step_inside inside fun ends => ?_
        rw [ends] at joins
        cases level <;> cases joins
      have small := level.operand.rank_le
      refine ((below (.phrase level.operand) cursor.step more ?_).andThen
        fun right later reaches read => ?_).of_reaches (Cursor.reaches_step more)
      · simp only [Task.rank, Cursor.step]
        omega
      · have on := position_lt_of_read level.operand reaches.inside read
        have further := reaches.le
        simp only [Cursor.step] at on further
        exact below (.extend level (join left right)) later reaches.inside
          (by simp only [Task.rank]; omega)

theorem follows_negation (cursor : Cursor) :
    Follows tokens (fuel + 1) (.phrase .negation) cursor := by
  intro inside enough
  simp only [Task.rank, Category.rank] at enough
  rw [walk, Task.read, Category.read_negation]
  rcases eat_cases ended inside .not (by decide) with ⟨eaten, on, follows⟩ | ⟨kept, missing⟩
  · rw [eaten, follows]
    dsimp only [Walk.andThen]
    rw [if_pos rfl]
    refine ((below (.phrase .negation) cursor.step on.inside ?_).map Tree.not).of_reaches on
    simp only [Task.rank, Category.rank, Cursor.step]
    omega
  · rw [kept, missing]
    dsimp only [Walk.andThen]
    rw [if_neg Bool.false_ne_true]
    refine below (.phrase (.chain .comparison)) cursor inside ?_
    simp only [Task.rank, Category.rank, Level.rank]
    omega

theorem follows_unary (cursor : Cursor) :
    Follows tokens (fuel + 1) (.phrase .unary) cursor := by
  intro inside enough
  simp only [Task.rank, Category.rank] at enough
  have operand (make : Tree → Tree) (on : cursor.Reaches tokens cursor.step) :
      Agrees tokens cursor
        ((walk tokens fuel (.phrase .unary) cursor.step).andThen fun operand cursor =>
          .arrived (make operand) cursor)
        ((Category.unary.read (tokens.drop cursor.step.position)).map fun result =>
          (make result.1, result.2)) := by
    refine ((below (.phrase .unary) cursor.step on.inside ?_).map make).of_reaches on
    simp only [Task.rank, Category.rank, Cursor.step]
    omega
  rw [walk, Task.read, Category.read_unary]
  rcases eat_cases ended inside (.operator .sub) (by decide) with
    ⟨eaten, on, follows⟩ | ⟨kept, missing⟩
  · rw [eaten, follows]
    dsimp only [Walk.andThen]
    rw [if_pos rfl]
    exact operand .negate on
  · rw [kept, missing]
    dsimp only [Walk.andThen]
    rw [if_neg Bool.false_ne_true]
    rcases eat_cases ended inside .not (by decide) with ⟨eaten, on, follows⟩ | ⟨kept, missing⟩
    · rw [eaten, follows]
      dsimp only [Walk.andThen]
      rw [if_pos rfl]
      exact operand .not on
    · rw [kept, missing]
      dsimp only [Walk.andThen]
      rw [if_neg Bool.false_ne_true]
      refine below (.phrase .primary) cursor inside ?_
      simp only [Task.rank, Category.rank]
      omega

theorem follows_conditional (cursor : Cursor) :
    Follows tokens (fuel + 1) (.phrase .conditional) cursor := by
  intro inside enough
  simp only [Task.rank, Category.rank] at enough
  rw [walk, Task.read, Category.read_conditional]
  refine (below (.phrase (.chain .disjunction)) cursor inside ?_).andThen
    fun condition later reaches read => ?_
  · simp only [Task.rank, Category.rank, Level.rank]
    omega
  have on := position_lt_of_read (.chain .disjunction) reaches.inside read
  dsimp only
  rcases eat_cases ended reaches.inside .question (by decide) with
    ⟨eaten, step, follows⟩ | ⟨kept, missing⟩
  · rw [eaten, follows]
    dsimp only [Walk.andThen]
    rw [if_pos rfl]
    refine .of_reaches step ?_
    have enough_fuel (cursor' : Cursor) (beyond : later.position < cursor'.position) :
        16 * (tokens.length - cursor'.position) + Task.rank (.phrase .conditional) ≤ fuel := by
      simp only [Task.rank, Category.rank]
      omega
    refine (below (.phrase .conditional) later.step step.inside
      (enough_fuel _ (Nat.lt_succ_self _))).andThen fun yes second reaches₂ read₂ => ?_
    have on₂ := position_lt_of_read .conditional reaches₂.inside read₂
    refine agrees_expect ended reaches₂.inside .colon (by decide) .colon fun step₂ => ?_
    refine (below (.phrase .conditional) second.step step₂.inside (enough_fuel _ ?_)).map _
    exact (Nat.lt_succ_self _).trans (on₂.trans (Nat.lt_succ_self _))
  · rw [kept, missing]
    dsimp only [Walk.andThen]
    rw [if_neg Bool.false_ne_true]
    exact .arrived (Cursor.reaches_self reaches.inside)

private theorem follows_primary (cursor : Cursor) :
    Follows tokens (fuel + 1) (.phrase .primary) cursor := by
  intro inside enough
  simp only [Task.rank, Category.rank] at enough
  rw [walk, Task.read, List.drop_eq_getElem_cons inside, Category.read_primary]
  rcases advance_cases ended inside with ⟨inner, on, used⟩ | ⟨ends, kept⟩
  · rw [used]
    dsimp only [Walk.andThen]
    by_cases opens : tokens[cursor.position].kind = .opening
    · rw [if_pos opens, if_pos opens]
      refine .of_reaches on ?_
      refine (below (.phrase .conditional) cursor.step on.inside ?_).andThen
        fun tree later reaches _ => ?_
      · simp only [Task.rank, Category.rank, Cursor.step]
        omega
      · have closed (outcome : Except ParseError (List Token)) :
            outcome.map (fun rest => (tree, rest)) = outcome.bind fun rest => .ok (tree, rest) := by
          cases outcome <;> rfl
        dsimp only
        rw [closed]
        exact agrees_expect ended reaches.inside .closing (by decide) .closing fun step =>
          .arrived (Cursor.reaches_self step.inside)
    · rw [if_neg opens, if_neg opens]
      cases tokens[cursor.position].kind.leaf? with
      | some tree => exact .arrived on
      | none => exact .refused on
  · rw [kept]
    dsimp only [Walk.andThen]
    rw [ends, if_neg (by decide), if_neg (by decide)]
    exact .refused (Cursor.reaches_self inside)

end Step

private theorem follows {tokens : List Token} (ended : IsEnded tokens) (fuel : Nat) (task : Task)
    (cursor : Cursor) : Follows tokens fuel task cursor := by
  induction fuel generalizing task cursor with
  | zero =>
      intro inside enough
      have positive : 0 < task.rank := by cases task <;> exact Nat.succ_pos _
      omega
  | succ fuel below =>
      match task with
      | .phrase .conditional => exact follows_conditional ended below cursor
      | .phrase (.chain level) => exact follows_chain below level cursor
      | .phrase .negation => exact follows_negation ended below cursor
      | .phrase .unary => exact follows_unary ended below cursor
      | .phrase .primary => exact follows_primary ended below cursor
      | .extend level left => exact follows_extend ended below level left cursor

/-! ## Whole tokens -/

private theorem readAll_eq (tokens : List Token) :
    readAll tokens = (Category.conditional.read tokens).bind fun (tree, rest) =>
      match rest with
      | [] => .ok tree
      | token :: more =>
          if token.kind = .eof then .ok tree else .error (unexpected .finish (token :: more)) := by
  rw [readAll, Category.read]
  rcases readConditional tokens with error | ⟨tree, _ | ⟨token, rest⟩, shorter⟩ <;> rfl

/-- The walk ends at a token, after it has stood at each token before that one in turn.  It has
come to what the readers come to; if that is a tree, the token is the last one. -/
def StaysInside (tokens : List Token) (fuel : Nat) : Prop :=
  ∃ cursor : Cursor, cursor.position < tokens.length ∧ cursor.past = List.range cursor.position ∧
    match readAll tokens with
    | .ok tree =>
        walkAll tokens fuel = .arrived tree cursor ∧ cursor.position + 1 = tokens.length
    | .error error => walkAll tokens fuel = .refused error cursor

private theorem Cursor.Reaches.past_eq {tokens : List Token} {cursor : Cursor}
    (h : Cursor.Reaches tokens {} cursor) : cursor.past = List.range cursor.position := by
  rw [h.past, List.nil_append, Nat.sub_zero, List.range_eq_range']

theorem staysInside {tokens : List Token} (ended : IsEnded tokens) {fuel : Nat}
    (enough : 16 * tokens.length + 14 ≤ fuel) : StaysInside tokens fuel := by
  have agrees : Agrees tokens {} (walk tokens fuel (.phrase .conditional) {})
      (Category.conditional.read tokens) :=
    follows ended fuel (.phrase .conditional) {} (List.length_pos_iff.mpr ended.nonempty) enough
  unfold StaysInside
  rw [readAll_eq, walkAll]
  generalize walk tokens fuel (.phrase .conditional) {} = walked at agrees
  generalize Category.conditional.read tokens = outcome at agrees
  cases agrees with
  | refused reaches => exact ⟨_, reaches.inside, reaches.past_eq, rfl⟩
  | @arrived tree later reaches =>
      have inside := reaches.inside
      have last := ended.eof_iff _ _ (List.getElem?_eq_getElem inside)
      refine ⟨later, inside, reaches.past_eq, ?_⟩
      dsimp only [Walk.andThen, Except.bind]
      rw [expectEnd, look_eq inside, List.drop_eq_getElem_cons inside]
      dsimp only [Walk.andThen]
      by_cases ends : tokens[later.position].kind = .eof
      · rw [if_pos ends, if_pos ends]
        exact ⟨rfl, last.mp ends⟩
      · rw [if_neg ends, if_neg ends]
        rfl

/-- Tokens of a text are laid out on it, and the parser stays inside of all tokens that are
ended as they are. -/
theorem parser_staysInside :
    (∀ text tokens, tokenize text = .ok tokens →
      IsLaidOut text tokens ∧ IsEnded tokens ∧ parse text = readAll tokens) ∧
      ∀ tokens, IsEnded tokens → ∀ fuel, 16 * tokens.length + 14 ≤ fuel →
        StaysInside tokens fuel := by
  refine ⟨fun text tokens tokenized => ?_, fun tokens ended fuel enough =>
    staysInside ended enough⟩
  have laid := isLaidOut_of_tokenize tokenized
  refine ⟨laid, laid.isEnded, ?_⟩
  rw [parse, tokenized]

def unclosed : String := "NOT (true"

theorem parser_staysInside_unclosed :
    let tokens := [⟨.not, 0⟩, ⟨.opening, 4⟩, ⟨.bool true, 5⟩, ⟨.eof, 9⟩]
    tokenize unclosed = .ok tokens ∧ IsLaidOut unclosed tokens ∧ StaysInside tokens 78 ∧
      walkAll tokens 78 = .refused (.unexpectedEnd .closing) ⟨3, [0, 1, 2]⟩ := by
  intro tokens
  have tokenized : tokenize unclosed = .ok tokens := by decide +kernel
  obtain ⟨laid, ended, -⟩ := parser_staysInside.1 unclosed tokens tokenized
  have enough : 16 * tokens.length + 14 ≤ 78 := by decide
  exact ⟨tokenized, laid, parser_staysInside.2 tokens ended 78 enough, by rfl⟩

end Tollgate.Expr
