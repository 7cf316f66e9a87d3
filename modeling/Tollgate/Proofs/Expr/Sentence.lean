import Mathlib.Data.List.Basic
import Tollgate.Proofs.Expr.Reading
import Tollgate.Proofs.Expr.Token

/-!
# Sentences of the grammar

Words bind what stands on their left more or less tightly, and a phrase ends
before a word that binds it too loosely to extend it.  Under this condition
reading a derived phrase comes to its tree, so a text is parsed exactly if its
words are a sentence of the grammar.
-/

namespace Tollgate.Expr

/-- How loosely a word binds what stands on its left; words that end every phrase come last. -/
def TokenKind.binding : TokenKind → Nat
  | .operator .mul | .operator .div => 1
  | .operator .add | .operator .sub => 2
  | .operator _ => 3
  | .and => 4
  | .or => 5
  | .question => 6
  | _ => 7

def Level.binding : Level → Nat
  | .product => 1
  | .sum => 2
  | .comparison => 3
  | .conjunction => 4
  | .disjunction => 5

def Category.binding : Category → Nat
  | .primary | .unary => 0
  | .negation => 3
  | .chain level => level.binding
  | .conditional => 6

theorem Level.binding_operand_lt (level : Level) : level.operand.binding < level.binding := by
  cases level <;> decide

theorem Level.Joins.binding {level : Level} {word : TokenKind} {combine : Tree → Tree → Tree}
    (h : level.Joins word combine) : word.binding = level.binding := by
  cases h with
  | or => rfl
  | and => rfl
  | @comparison op member => cases op <;> first | rfl | simp at member
  | @sum op member => cases op <;> first | rfl | simp at member
  | @product op member => cases op <;> first | rfl | simp at member

/-- The tokens do not go on with a word that could extend a phrase of the category. -/
def Category.EndsBefore (category : Category) (rest : List Token) : Prop :=
  ∀ token ∈ rest.head?, category.binding < token.kind.binding

namespace Category

theorem EndsBefore.mono {category other : Category} {rest : List Token}
    (h : category.EndsBefore rest) (le : other.binding ≤ category.binding) :
    other.EndsBefore rest :=
  fun token member => Nat.lt_of_le_of_lt le (h token member)

theorem endsBefore_cons {category : Category} {token : Token} {rest : List Token} :
    category.EndsBefore (token :: rest) ↔ category.binding < token.kind.binding := by
  simp [EndsBefore]

private theorem EndsBefore.extend? {level : Level} {rest : List Token}
    (h : (chain level).EndsBefore rest)
    (left : Tree) : level.extend? left rest = some (left, rest) := by
  cases rest with
  | nil => exact extend?_nil level left
  | cons token rest =>
      rw [extend?_cons]
      cases joins : level.join? token.kind with
      | none => rfl
      | some combine =>
          have same := (Level.join?_eq_some_iff.mp joins).binding
          have less : level.binding < token.kind.binding := endsBefore_cons.mp h
          omega

theorem EndsBefore.after?_question {rest : List Token} (h : conditional.EndsBefore rest) :
    after? .question rest = none := by
  cases rest with
  | nil => rfl
  | cons token rest =>
      have less : 6 < token.kind.binding := endsBefore_cons.mp h
      have differs : token.kind ≠ .question := by
        intro same
        rw [same] at less
        exact absurd less (by decide)
      simp [after?, differs]

def resume (category : Category) (tree : Tree) (rest : List Token) : Option (Tree × List Token) :=
  match category with
  | .chain level => level.extend? tree rest
  | _ => some (tree, rest)

def inner : Category → Category
  | .chain level => level.operand
  | other => other

theorem inner_binding_le (category : Category) : category.inner.binding ≤ category.binding := by
  cases category with
  | chain level => exact Nat.le_of_lt level.binding_operand_lt
  | _ => exact Nat.le_refl _

private theorem EndsBefore.resume {category : Category} {rest : List Token}
    (h : category.EndsBefore rest)
    (tree : Tree) : category.resume tree rest = some (tree, rest) := by
  cases category with
  | chain level => exact h.extend? tree
  | _ => rfl

end Category

theorem Leaf.leaf? {kind : TokenKind} {tree : Tree} (h : Leaf kind tree) :
    kind ≠ .opening ∧ kind.leaf? = some tree := by
  cases h <;> simp [TokenKind.leaf?]

theorem after?_append {word : TokenKind} {words : List TokenKind} {front : List Token}
    (h : front.map Token.kind = word :: words) (rest : List Token) :
    ∃ others, others.map Token.kind = words ∧
      after? word (front ++ rest) = some (others ++ rest) := by
  obtain ⟨token, others, rfl, rfl, more⟩ := List.map_eq_cons_iff.mp h
  exact ⟨others, more, by simp [after?]⟩

theorem after?_append_none {word : TokenKind} {words : List TokenKind} {front : List Token}
    (h : front.map Token.kind = words) (some_words : words ≠ [])
    (differs : words.head? ≠ some word) (rest : List Token) :
    after? word (front ++ rest) = none := by
  subst h
  cases front with
  | nil => exact absurd rfl some_words
  | cons token others => simpa [after?] using differs

namespace Category

/-- Tokens with the words are read as the tree, and reading goes on with what follows them.  A
chain inside a phrase has more of the phrase behind it, so what follows is any tokens that its
operands end before. -/
def ReadsAs (category : Category) (words : List TokenKind) (tree : Tree) : Prop :=
  ∀ front rest : List Token, front.map Token.kind = words → category.inner.EndsBefore rest →
    category.read? (front ++ rest) = category.resume tree rest

namespace ReadsAs

variable {words : List TokenKind} {tree : Tree}

theorem whole {category : Category} (h : category.ReadsAs words tree) {front rest : List Token}
    (begins : front.map Token.kind = words) (ends : category.EndsBefore rest) :
    category.read? (front ++ rest) = some (tree, rest) := by
  rw [h front rest begins (ends.mono category.inner_binding_le), ends.resume]

theorem conditional {yes no : List TokenKind} {y n : Tree}
    (condition : (chain .disjunction).ReadsAs words tree)
    (accepted : Category.conditional.ReadsAs yes y)
    (rejected : Category.conditional.ReadsAs no n) :
    Category.conditional.ReadsAs (words ++ .question :: (yes ++ .colon :: no))
      (.conditional tree y n) := by
  intro front rest begins ends
  obtain ⟨first, others, rfl, first_words, begins⟩ := List.map_eq_append_iff.mp begins
  obtain ⟨asks, others, rfl, question, begins⟩ := List.map_eq_cons_iff.mp begins
  obtain ⟨second, others, rfl, second_words, begins⟩ := List.map_eq_append_iff.mp begins
  obtain ⟨mark, third, rfl, colon, third_words⟩ := List.map_eq_cons_iff.mp begins
  have before_question (more : List Token) : (chain .disjunction).EndsBefore (asks :: more) := by
    rw [endsBefore_cons, question]
    decide
  have before_colon (more : List Token) : Category.conditional.EndsBefore (mark :: more) := by
    rw [endsBefore_cons, colon]
    decide
  rw [read?_conditional]
  simp only [List.append_assoc, List.cons_append]
  rw [condition.whole first_words (before_question _)]
  simp [after?, question, accepted.whole second_words (before_colon _), colon,
    rejected.whole third_words ends, resume]

theorem join {level : Level} {right : List TokenKind} {word : TokenKind}
    {combine : Tree → Tree → Tree} {r : Tree} (left : (chain level).ReadsAs words tree)
    (joins : level.Joins word combine) (operand : level.operand.ReadsAs right r) :
    (chain level).ReadsAs (words ++ word :: right) (combine tree r) := by
  intro front rest begins ends
  obtain ⟨first, others, rfl, first_words, begins⟩ := List.map_eq_append_iff.mp begins
  obtain ⟨token, second, rfl, rfl, second_words⟩ := List.map_eq_cons_iff.mp begins
  have before : level.operand.EndsBefore (token :: (second ++ rest)) := by
    rw [endsBefore_cons, joins.binding]
    exact level.binding_operand_lt
  rw [List.append_assoc, List.cons_append, left _ _ first_words before, resume, extend?_cons,
    Level.join?_eq_some_iff.mpr joins]
  dsimp only
  rw [operand.whole second_words ends]
  rfl

private theorem leaf {word : TokenKind} (h : Leaf word tree) : primary.ReadsAs [word] tree := by
  intro front rest begins _
  obtain ⟨token, others, rfl, rfl, more⟩ := List.map_eq_cons_iff.mp begins
  obtain rfl := List.map_eq_nil_iff.mp more
  obtain ⟨not_opening, known⟩ := h.leaf?
  rw [List.cons_append, read?_primary, if_neg not_opening, known]
  rfl

private theorem group (h : Category.conditional.ReadsAs words tree) :
    primary.ReadsAs (.opening :: (words ++ [.closing])) tree := by
  intro front rest begins _
  obtain ⟨token, others, rfl, opens, begins⟩ := List.map_eq_cons_iff.mp begins
  obtain ⟨middle, last, rfl, middle_words, begins⟩ := List.map_eq_append_iff.mp begins
  obtain ⟨mark, others, rfl, closes, begins⟩ := List.map_eq_cons_iff.mp begins
  obtain rfl := List.map_eq_nil_iff.mp begins
  have before : Category.conditional.EndsBefore (mark :: rest) := by
    rw [endsBefore_cons, closes]
    decide
  rw [List.cons_append, read?_primary, if_pos opens, List.append_assoc, List.singleton_append,
    h.whole middle_words before]
  simp [resume, after?, closes]

end ReadsAs

end Category

namespace Derives

open Category

variable {category : Category} {words : List TokenKind} {tree : Tree}

theorem readsAs (h : Derives true category words tree) : category.ReadsAs words tree := by
  induction h with
  | plain _ ih =>
      intro front rest begins ends
      have before : (chain .disjunction).EndsBefore rest := ends.mono (by decide)
      rw [read?_conditional, ih.whole begins before]
      dsimp only [Option.bind_some]
      rw [ends.after?_question]
      rfl
  | conditional _ _ _ condition yes no => exact condition.conditional yes no
  | operand _ ih =>
      intro front rest begins ends
      rw [read?_chain, ih.whole begins ends]
      rfl
  | join _ joins _ left right => exact left.join joins right
  | not _ ih =>
      intro front rest begins ends
      obtain ⟨others, more, next⟩ := after?_append begins rest
      rw [read?_negation, next]
      dsimp only
      rw [ih others rest more ends]
      rfl
  | comparison inner greedy ih =>
      intro front rest begins ends
      have before : (chain .comparison).EndsBefore rest := ends.mono (Nat.le_refl _)
      rw [read?_negation, after?_append_none begins inner.ne_nil (greedy rfl) rest]
      dsimp only
      rw [ih.whole begins before]
      rfl
  | minus _ ih =>
      intro front rest begins ends
      obtain ⟨others, more, next⟩ := after?_append begins rest
      rw [read?_unary, next]
      dsimp only
      rw [ih others rest more ends]
      rfl
  | invert _ ih =>
      intro front rest begins ends
      obtain ⟨others, more, next⟩ := after?_append begins rest
      have differs : after? (.operator .sub) (front ++ rest) = none :=
        after?_append_none begins (by simp) (by simp) rest
      rw [read?_unary, differs, next]
      dsimp only
      rw [ih others rest more ends]
      rfl
  | primary inner ih =>
      intro front rest begins ends
      obtain ⟨not_minus, not_not⟩ := inner.head?_primary
      rw [read?_unary, after?_append_none begins inner.ne_nil not_minus rest,
        after?_append_none begins inner.ne_nil not_not rest]
      exact ih front rest begins ends
  | leaf leaf => exact ReadsAs.leaf leaf
  | group _ ih => exact ih.group

end Derives

theorem Derives.unique {category : Category} {words : List TokenKind} {tree other : Tree}
    (h : Derives true category words tree) (h' : Derives true category words other) :
    tree = other := by
  let front : List Token := words.map fun word => ⟨word, 0⟩
  have begins : front.map Token.kind = words := by simp [front, Function.comp_def]
  have ends : category.EndsBefore [] := by simp [Category.EndsBefore]
  have read := h.readsAs.whole begins ends
  have read' := h'.readsAs.whole begins ends
  rw [read, Option.some.injEq, Prod.mk.injEq] at read'
  exact read'.1

theorem readAll_eq_ok_iff {tokens : List Token} {tree : Tree} :
    readAll tokens = .ok tree ↔
      ∃ rest, Category.conditional.read? tokens = some (tree, rest) ∧
        ∀ token ∈ rest.head?, token.kind = .eof := by
  unfold readAll Category.read?
  rcases readConditional tokens with error | ⟨read, _ | ⟨token, rest⟩, shorter⟩
  · simp [reached]
  · simp [reached]
  · by_cases ends : token.kind = .eof <;> simp [reached, ends]

private theorem ne_eof_of_keyword? {word : String} {kind : TokenKind}
    (h : keyword? word = some kind) : kind ≠ .eof := by
  unfold keyword? at h
  split at h <;> cases h <;> simp

theorem ne_eof_of_readToken {position : Nat} {c : Char} {rest : List Char} {kind : TokenKind}
    {size : Nat} (h : readToken position c rest = .ok (kind, size)) : kind ≠ .eof := by
  have ne_of_isSign {kind : TokenKind} (isSign : kind.isSign = true) : kind ≠ .eof := by
    rintro rfl
    cases isSign
  cases reads_of_readToken h with
  | sign _ isSign => exact ne_of_isSign isSign
  | pair _ _ _ isSign => exact ne_of_isSign isSign
  | quotation | reference | number => exact nofun
  | word _ known => exact ne_eof_of_keyword? known

theorem kinds_of_tokenizeFrom {position : Nat} {chars : List Char} {tokens : List Token}
    (h : tokenizeFrom position chars = .ok tokens) :
    ∃ words, tokens.map Token.kind = words ++ [.eof] ∧ .eof ∉ words := by
  fun_induction tokenizeFrom position chars generalizing tokens with
  | case1 =>
      cases h
      exact ⟨[], rfl, by simp⟩
  | case2 position c rest space ih => exact ih h
  | case3 => cases h
  | case4 => cases h
  | case5 position c rest _ kind size read later tokenized ih =>
      cases h
      obtain ⟨words, kinds, inside⟩ := ih tokenized
      refine ⟨kind :: words, by simp [kinds], ?_⟩
      simp [inside, (ne_eof_of_readToken read).symm]

theorem readAll_iff_derives {tokens : List Token} {words : List TokenKind}
    (kinds : tokens.map Token.kind = words ++ [.eof]) (inside : .eof ∉ words) {tree : Tree} :
    readAll tokens = .ok tree ↔ Derives true .conditional words tree := by
  rw [readAll_eq_ok_iff]
  constructor
  · rintro ⟨rest, read, ends⟩
    obtain ⟨used, cut, derived⟩ := Category.isSound _ _ tree rest read
    rw [kinds] at cut
    cases rest with
    | nil =>
        rw [List.map_nil, List.append_nil] at cut
        subst cut
        exact absurd derived.eof_not_mem (by simp)
    | cons token rest =>
        have last : token.kind = .eof := ends token rfl
        rw [List.map_cons, last, List.append_cons_inj_of_notMem inside (by simp)] at cut
        rwa [cut.1]
  · intro derived
    obtain ⟨front, others, rfl, begins, finishes⟩ := List.map_eq_append_iff.mp kinds
    obtain ⟨last, others, rfl, ends, finishes⟩ := List.map_eq_cons_iff.mp finishes
    obtain rfl := List.map_eq_nil_iff.mp finishes
    have before : Category.conditional.EndsBefore [last] := by
      rw [Category.endsBefore_cons, ends]
      decide
    exact ⟨[last], derived.readsAs.whole begins before, by simpa using ends⟩

/-- A text that can be cut into words is parsed exactly if its words without the end of the
text are a sentence of the grammar, and its tree is the one of the eager derivation. -/
theorem parse_iff_derives {text : String} {tokens : List Token}
    (tokenized : tokenize text = .ok tokens) :
    ∃ words, tokens.map Token.kind = words ++ [.eof] ∧
      ((∃ tree, parse text = .ok tree) ↔ ∃ tree, Derives false .conditional words tree) ∧
      ∀ tree, parse text = .ok tree ↔ Derives true .conditional words tree := by
  obtain ⟨words, kinds, inside⟩ := kinds_of_tokenizeFrom tokenized
  have parsed (tree : Tree) : parse text = .ok tree ↔ Derives true .conditional words tree := by
    unfold parse
    rw [tokenized]
    exact readAll_iff_derives kinds inside
  refine ⟨words, kinds, ?_, parsed⟩
  constructor
  · rintro ⟨tree, read⟩
    exact ⟨tree, ((parsed tree).mp read).of_eager⟩
  · rintro ⟨_, derived⟩
    obtain ⟨tree, eager⟩ := derived.exists_eager
    exact ⟨tree, (parsed tree).mpr eager⟩

def negated : String := "NOT true == 'a' < null - NOT false ? null : true"

def negatedTokens : List Token :=
  [⟨.not, 0⟩, ⟨.bool true, 4⟩, ⟨.operator .eq, 9⟩, ⟨.string "a", 12⟩, ⟨.operator .lt, 16⟩,
    ⟨.null, 18⟩, ⟨.operator .sub, 23⟩, ⟨.not, 25⟩, ⟨.bool false, 29⟩, ⟨.question, 35⟩,
    ⟨.null, 37⟩, ⟨.colon, 42⟩, ⟨.bool true, 44⟩, ⟨.eof, 48⟩]

theorem parse_iff_derives_negated :
    tokenize negated = .ok negatedTokens ∧
      ∃ words, negatedTokens.map Token.kind = words ++ [.eof] ∧
        ((∃ tree, parse negated = .ok tree) ↔ ∃ tree, Derives false .conditional words tree) ∧
        ∀ tree, parse negated = .ok tree ↔ Derives true .conditional words tree := by
  have tokenized : tokenize negated = .ok negatedTokens := by decide +kernel
  exact ⟨tokenized, parse_iff_derives tokenized⟩

example : readAll negatedTokens = .ok (.conditional
    (.not (.binary .lt (.binary .eq (.literal (.bool true)) (.literal (.string "a")))
      (.binary .sub (.literal .null) (.not (.literal (.bool false))))))
    (.literal .null) (.literal (.bool true))) := by
  cbv

end Tollgate.Expr
