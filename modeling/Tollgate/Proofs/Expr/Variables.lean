import Tollgate.Proofs.Expr.Scan
import Tollgate.Proofs.Expr.Sentence

/-!
# Variables of expressions

The tree of an expression has the variables of its words, in their order, and
its value depends on nothing but what the scope says about them.
-/

namespace Tollgate.Expr

private theorem Level.Joins.references {level : Level} {word : TokenKind}
    {combine : Tree → Tree → Tree} (h : level.Joins word combine) :
    word.reference? = none ∧
      ∀ left right, (combine left right).references = left.references ++ right.references := by
  cases h <;> exact ⟨rfl, fun _ _ => rfl⟩

private theorem Leaf.references {word : TokenKind} {tree : Tree} (h : Leaf word tree) :
    tree.references = word.reference?.toList := by
  cases h <;> rfl

private theorem Derives.references {eager : Bool} {category : Category} {words : List TokenKind}
    {tree : Tree} (h : Derives eager category words tree) :
    tree.references = words.filterMap TokenKind.reference? := by
  induction h with
  | plain _ ih => exact ih
  | conditional _ _ _ ih ih_yes ih_no =>
      simp [Tree.references, ih, ih_yes, ih_no, List.filterMap_cons, TokenKind.reference?]
  | operand _ ih => exact ih
  | join _ joins _ ih_left ih_right =>
      obtain ⟨no_variable, joined⟩ := joins.references
      simp [joined, ih_left, ih_right, no_variable]
  | not _ ih => simp [Tree.references, ih, List.filterMap_cons, TokenKind.reference?]
  | comparison _ _ ih => exact ih
  | minus _ ih => simp [Tree.references, ih, List.filterMap_cons, TokenKind.reference?]
  | invert _ ih => simp [Tree.references, ih, List.filterMap_cons, TokenKind.reference?]
  | primary _ ih => exact ih
  | @leaf word _ leaf =>
      rw [leaf.references]
      cases read : word.reference? <;> simp [read]
  | group _ ih => simp [ih, List.filterMap_cons, TokenKind.reference?]

theorem references_of_readAll {position : Nat} {chars : List Char} {tokens : List Token}
    {tree : Tree} (tokenized : tokenizeFrom position chars = .ok tokens)
    (h : readAll tokens = .ok tree) : tree.references = mentions tokens := by
  obtain ⟨words, kinds, inside⟩ := kinds_of_tokenizeFrom tokenized
  have all : mentions tokens = (tokens.map Token.kind).filterMap TokenKind.reference? := by
    rw [List.filterMap_map]
    rfl
  rw [((readAll_iff_derives kinds inside).mp h).references, all, kinds]
  simp [List.filterMap_cons, TokenKind.reference?]

private theorem references_of_parse {text : String} {tree : Tree} (h : parse text = .ok tree)
    {target : Reference} (member : target ∈ tree.references) :
    ∃ raw ∈ Reference.scan text, Reference.parse? raw = some target := by
  unfold parse at h
  split at h
  · cases h
  · next tokenized =>
      rw [references_of_readAll tokenized h] at member
      exact exists_scan_of_variable tokenized member

theorem Tree.eval_congr {scope other : Scope} {tree : Tree}
    (h : ∀ target ∈ tree.references, scope target = other target) :
    tree.eval scope = tree.eval other := by
  induction tree with
  | literal value => rfl
  | «variable» target => simp [eval, h target (by simp [references])]
  | not operand ih => simp [eval, ih h]
  | negate operand ih => simp [eval, ih h]
  | and left right ih_left ih_right =>
      simp only [references, List.mem_append] at h
      simp [eval, ih_left fun t ht => h t (.inl ht), ih_right fun t ht => h t (.inr ht)]
  | or left right ih_left ih_right =>
      simp only [references, List.mem_append] at h
      simp [eval, ih_left fun t ht => h t (.inl ht), ih_right fun t ht => h t (.inr ht)]
  | binary op left right ih_left ih_right =>
      simp only [references, List.mem_append] at h
      simp [eval, ih_left fun t ht => h t (.inl ht), ih_right fun t ht => h t (.inr ht)]
  | conditional condition yes no ih ih_yes ih_no =>
      simp only [references, List.mem_append] at h
      simp [eval, ih fun t ht => h t (.inl (.inl ht)), ih_yes fun t ht => h t (.inl (.inr ht)),
        ih_no fun t ht => h t (.inr ht)]

theorem holds_congr {scope other : Scope} {text : String}
    (h : ∀ raw ∈ Reference.scan (Text.trim text), ∀ target, Reference.parse? raw = some target →
      scope target = other target) : holds scope text = holds other text := by
  unfold holds evaluate
  split
  · rfl
  · cases parsed : parse (Text.trim text) with
    | error error => rfl
    | ok tree =>
        dsimp only
        rw [Tree.eval_congr fun target member => ?_]
        obtain ⟨raw, listed, reads⟩ := references_of_parse parsed member
        exact h raw listed target reads

end Tollgate.Expr
