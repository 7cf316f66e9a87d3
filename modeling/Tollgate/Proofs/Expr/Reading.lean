import Tollgate.Proofs.Expr.Phrase

/-!
# Reading by the grammar

By the plain equations of the readers every tree that is read has an eager
derivation from the words that reading used up.
-/

namespace Tollgate.Expr

theorem after?_eq_some {kind : TokenKind} {tokens rest : List Token}
    (h : after? kind tokens = some rest) :
    tokens.map Token.kind = kind :: rest.map Token.kind := by
  cases tokens with
  | nil => simp [after?] at h
  | cons token tokens =>
      simp only [after?, Option.ite_none_right_eq_some, Option.some.injEq] at h
      obtain ⟨rfl, rfl⟩ := h
      simp

theorem length_of_after? {kind : TokenKind} {tokens rest : List Token}
    (h : after? kind tokens = some rest) : rest.length < tokens.length := by
  have same := congrArg List.length (after?_eq_some h)
  simp only [List.length_map, List.length_cons] at same
  omega

theorem leaf_of_leaf? {kind : TokenKind} {tree : Tree} (h : kind.leaf? = some tree) :
    Leaf kind tree := by
  unfold TokenKind.leaf? at h
  split at h <;> cases h <;> constructor

private theorem leaves_of_reached {leaves : List Token → Prop}
    {outcome : Except ParseError (Tree × { rest : List Token // leaves rest })} {tree : Tree}
    {rest : List Token} (h : reached outcome = some (tree, rest)) : leaves rest := by
  rcases outcome with error | ⟨other, left, proper⟩
  · cases h
  · cases h
    exact proper

theorem Category.length_of_read? {category : Category} {tokens rest : List Token} {tree : Tree}
    (h : category.read? tokens = some (tree, rest)) : rest.length < tokens.length := by
  cases category <;> exact leaves_of_reached h

def Category.IsSound (category : Category) (tokens : List Token) : Prop :=
  ∀ tree rest, category.read? tokens = some (tree, rest) →
    ∃ words, tokens.map Token.kind = words ++ rest.map Token.kind ∧
      Derives true category words tree

theorem Level.derives_of_extend? {level : Level} {tokens : List Token}
    (operands : ∀ shorter : List Token, shorter.length < tokens.length →
      level.operand.IsSound shorter)
    {words : List TokenKind} {left tree : Tree} {rest : List Token}
    (derived : Derives true (.chain level) words left)
    (h : level.extend? left tokens = some (tree, rest)) :
    ∃ more, tokens.map Token.kind = more ++ rest.map Token.kind ∧
      Derives true (.chain level) (words ++ more) tree := by
  induction size : tokens.length using Nat.strongRecOn generalizing tokens words left with
  | ind _ ih =>
      cases tokens with
      | nil =>
          rw [Category.extend?_nil] at h
          cases h
          exact ⟨[], rfl, by simpa using derived⟩
      | cons token tokens =>
          rw [Category.extend?_cons] at h
          cases joins : level.join? token.kind with
          | none =>
              rw [joins] at h
              cases h
              exact ⟨[], rfl, by simpa using derived⟩
          | some combine =>
              rw [joins] at h
              obtain ⟨⟨right, rest₁⟩, read, extended⟩ := Option.bind_eq_some_iff.mp h
              obtain ⟨used, cut, operand⟩ := operands tokens (by simp) right rest₁ read
              have shorter := Category.length_of_read? read
              rw [List.length_cons] at size operands
              obtain ⟨more, cut_more, whole⟩ := ih rest₁.length (by omega)
                (fun other less => operands other (by omega))
                (.join derived (Level.join?_eq_some_iff.mp joins) operand) extended rfl
              refine ⟨token.kind :: (used ++ more), ?_, by simpa using whole⟩
              simp [cut, cut_more]

namespace Category

variable {tokens : List Token}

theorem isSound_conditional (condition : (chain .disjunction).IsSound tokens)
    (branches : ∀ shorter : List Token, shorter.length < tokens.length →
      conditional.IsSound shorter) : conditional.IsSound tokens := by
  intro tree rest h
  rw [read?_conditional] at h
  obtain ⟨⟨c, rest₁⟩, read, h⟩ := Option.bind_eq_some_iff.mp h
  obtain ⟨first, cut, derived⟩ := condition c rest₁ read
  have shorter := length_of_read? read
  dsimp only at h
  cases asks : after? .question rest₁ with
  | none =>
      rw [asks] at h
      cases h
      exact ⟨first, cut, .plain derived⟩
  | some rest₂ =>
      rw [asks] at h
      obtain ⟨⟨yes, rest₃⟩, read_yes, h⟩ := Option.bind_eq_some_iff.mp h
      obtain ⟨rest₄, colon, h⟩ := Option.bind_eq_some_iff.mp h
      obtain ⟨⟨no, rest₅⟩, read_no, same⟩ := Option.map_eq_some_iff.mp h
      cases same
      dsimp only at colon
      have shorter₂ := length_of_after? asks
      have shorter₃ := length_of_read? read_yes
      have shorter₄ := length_of_after? colon
      obtain ⟨second, cut_yes, derived_yes⟩ := branches rest₂ (by omega) yes rest₃ read_yes
      obtain ⟨third, cut_no, derived_no⟩ := branches rest₄ (by omega) no rest₅ read_no
      refine ⟨_, ?_, .conditional derived derived_yes derived_no⟩
      simp [cut, after?_eq_some asks, cut_yes, after?_eq_some colon, cut_no]

theorem isSound_chain {level : Level} (operand : level.operand.IsSound tokens)
    (operands : ∀ shorter : List Token, shorter.length < tokens.length →
      level.operand.IsSound shorter) : (chain level).IsSound tokens := by
  intro tree rest h
  rw [read?_chain] at h
  obtain ⟨⟨left, rest₁⟩, read, extended⟩ := Option.bind_eq_some_iff.mp h
  obtain ⟨first, cut, derived⟩ := operand left rest₁ read
  have shorter := length_of_read? read
  obtain ⟨more, cut_more, whole⟩ := level.derives_of_extend?
    (fun other less => operands other (by omega)) (.operand derived) extended
  exact ⟨first ++ more, by simp [cut, cut_more], whole⟩

theorem isSound_negation (comparison : (chain .comparison).IsSound tokens)
    (negations : ∀ shorter : List Token, shorter.length < tokens.length →
      negation.IsSound shorter) : negation.IsSound tokens := by
  intro tree rest h
  rw [read?_negation] at h
  cases negates : after? .not tokens with
  | some rest₁ =>
      rw [negates] at h
      obtain ⟨⟨operand, rest₂⟩, read, same⟩ := Option.map_eq_some_iff.mp h
      cases same
      obtain ⟨words, cut, derived⟩ :=
        negations rest₁ (length_of_after? negates) operand rest read
      exact ⟨_, by simp [after?_eq_some negates, cut], .not derived⟩
  | none =>
      rw [negates] at h
      obtain ⟨words, cut, derived⟩ := comparison tree rest h
      refine ⟨words, cut, .comparison derived fun _ begins => ?_⟩
      obtain ⟨more, rfl⟩ := List.head?_eq_some_iff.mp begins
      cases tokens with
      | nil => simp at cut
      | cons token tokens =>
          rw [List.map_cons, List.cons_append, List.cons.injEq] at cut
          simp [after?, cut.1] at negates

theorem isSound_unary (primary : primary.IsSound tokens)
    (unaries : ∀ shorter : List Token, shorter.length < tokens.length →
      unary.IsSound shorter) : unary.IsSound tokens := by
  intro tree rest h
  rw [read?_unary] at h
  cases minus : after? (.operator .sub) tokens with
  | some rest₁ =>
      rw [minus] at h
      obtain ⟨⟨operand, rest₂⟩, read, same⟩ := Option.map_eq_some_iff.mp h
      cases same
      obtain ⟨words, cut, derived⟩ := unaries rest₁ (length_of_after? minus) operand rest read
      exact ⟨_, by simp [after?_eq_some minus, cut], .minus derived⟩
  | none =>
      cases negates : after? .not tokens with
      | some rest₁ =>
          rw [minus, negates] at h
          obtain ⟨⟨operand, rest₂⟩, read, same⟩ := Option.map_eq_some_iff.mp h
          cases same
          obtain ⟨words, cut, derived⟩ :=
            unaries rest₁ (length_of_after? negates) operand rest read
          exact ⟨_, by simp [after?_eq_some negates, cut], .invert derived⟩
      | none =>
          rw [minus, negates] at h
          obtain ⟨words, cut, derived⟩ := primary tree rest h
          exact ⟨words, cut, .primary derived⟩

theorem isSound_primary (groups : ∀ shorter : List Token, shorter.length < tokens.length →
    conditional.IsSound shorter) : primary.IsSound tokens := by
  intro tree rest h
  cases tokens with
  | nil =>
      rw [read?_primary_nil] at h
      cases h
  | cons token tokens =>
      rw [read?_primary] at h
      by_cases opens : token.kind = .opening
      · rw [if_pos opens] at h
        obtain ⟨⟨inner, rest₁⟩, read, h⟩ := Option.bind_eq_some_iff.mp h
        obtain ⟨rest₂, closes, same⟩ := Option.map_eq_some_iff.mp h
        cases same
        obtain ⟨words, cut, derived⟩ := groups tokens (by simp) tree rest₁ read
        refine ⟨_, ?_, .group derived⟩
        simp [opens, cut, after?_eq_some closes]
      · rw [if_neg opens] at h
        obtain ⟨other, leaf, same⟩ := Option.map_eq_some_iff.mp h
        cases same
        exact ⟨[token.kind], rfl, .leaf (leaf_of_leaf? leaf)⟩

def rank : Category → Nat
  | .primary => 0
  | .unary => 1
  | .negation => 8
  | .chain level => level.rank
  | .conditional => 13

theorem rank_le (category : Category) : category.rank ≤ 13 := by
  rcases category with _ | level | _ | _ | _
  · decide
  · exact Nat.le_trans level.rank_le (by decide)
  · decide
  · decide
  · decide

theorem rank_operand_lt (level : Level) :
    level.operand.rank < (chain level).rank := by
  cases level <;> decide

theorem isSound (category : Category) (tokens : List Token) : category.IsSound tokens := by
  match category with
  | .conditional =>
      exact isSound_conditional (isSound _ tokens) fun shorter less => isSound _ shorter
  | .chain level => exact isSound_chain (isSound _ tokens) fun shorter less => isSound _ shorter
  | .negation => exact isSound_negation (isSound _ tokens) fun shorter less => isSound _ shorter
  | .unary => exact isSound_unary (isSound _ tokens) fun shorter less => isSound _ shorter
  | .primary => exact isSound_primary fun shorter less => isSound _ shorter
  termination_by 16 * tokens.length + category.rank
  decreasing_by all_goals grind [rank, Level.rank, rank_le, rank_operand_lt]

end Category

end Tollgate.Expr
