import Tollgate.Proofs.Expr.Trimming

/-!
# Tokens on their texts

Every token stands at a word of the text, and between the words there is only
white space.  Words are not empty, so the positions of tokens ascend, up to the
token that marks the end of the text.
-/

namespace Tollgate.Expr

/-- The characters from an offset on, laid out as white space and the words of tokens. -/
inductive LaidOut : Nat → List Char → List Token → Prop
  | finish {offset : Nat} {gap : List Char} (blank : ∀ c ∈ gap, Text.isSpace c = true) :
      LaidOut offset gap [⟨.eof, offset + gap.length⟩]
  | word {offset : Nat} {gap word rest : List Char} {c : Char} {kind : TokenKind}
      {tokens : List Token} (blank : ∀ c ∈ gap, Text.isSpace c = true)
      (visible : Text.isSpace c = false)
      (read : readToken (offset + gap.length) c (word ++ rest) = .ok (kind, word.length))
      (later : LaidOut (offset + gap.length + 1 + word.length) rest tokens) :
      LaidOut offset (gap ++ c :: (word ++ rest)) (⟨kind, offset + gap.length⟩ :: tokens)

namespace LaidOut

variable {offset : Nat} {chars : List Char} {tokens : List Token}

private theorem space {c : Char} (space : Text.isSpace c = true)
    (h : LaidOut (offset + 1) chars tokens) : LaidOut offset (c :: chars) tokens := by
  have wider (gap : List Char) : offset + 1 + gap.length = offset + (c :: gap).length := by
    rw [List.length_cons, Nat.add_assoc, Nat.add_comm 1]
  cases h with
  | finish blank =>
      rw [wider]
      exact .finish (List.forall_mem_cons.mpr ⟨space, blank⟩)
  | word blank visible read later =>
      rw [wider] at read later ⊢
      exact .word (List.forall_mem_cons.mpr ⟨space, blank⟩) visible read later

theorem tokenizeFrom_eq (h : LaidOut offset chars tokens) :
    tokenizeFrom offset chars = .ok tokens := by
  induction h with
  | @finish offset gap blank =>
      have skipped := tokenizeFrom_spaces blank offset []
      rwa [List.append_nil, tokenizeFrom_nil] at skipped
  | word blank visible read later ih =>
      rw [tokenizeFrom_spaces blank, tokenizeFrom_visible _ _ visible, read]
      dsimp only [Except.bind]
      rw [List.drop_left, ih]
      rfl

theorem of_tokenizeFrom (h : tokenizeFrom offset chars = .ok tokens) :
    LaidOut offset chars tokens := by
  fun_induction tokenizeFrom offset chars generalizing tokens with
  | case1 offset =>
      cases h
      exact .finish (List.forall_mem_nil _)
  | case2 offset c rest space ih => exact (ih h).space space
  | case3 => cases h
  | case4 => cases h
  | case5 offset c rest visible kind size read later tokenized ih =>
      cases h
      have cut : (rest.take size).length = size :=
        List.length_take_of_le (size_le_of_readToken read)
      have laid : LaidOut offset ([] ++ c :: (rest.take size ++ rest.drop size))
          (⟨kind, offset + ([] : List Char).length⟩ :: later) := by
        refine .word (List.forall_mem_nil _) (Bool.not_eq_true _ ▸ visible) ?_ ?_
        · rw [List.take_append_drop, cut]
          exact read
        · rw [cut]
          exact ih tokenized
      rwa [List.take_append_drop] at laid

private theorem offset_le (h : LaidOut offset chars tokens) :
    ∀ token ∈ tokens, offset ≤ token.position := by
  induction h with
  | finish => exact List.forall_mem_singleton.mpr (Nat.le_add_right _ _)
  | word _ _ _ _ ih =>
      refine List.forall_mem_cons.mpr ⟨Nat.le_add_right _ _, fun token member => ?_⟩
      have := ih token member
      omega

private theorem ascending (h : LaidOut offset chars tokens) :
    tokens.Pairwise fun token later => token.position < later.position := by
  induction h with
  | finish => exact List.pairwise_singleton _ _
  | word _ _ _ later ih =>
      refine List.pairwise_cons.mpr ⟨fun token member => ?_, ih⟩
      have := later.offset_le token member
      dsimp only
      omega

private theorem exists_ended (h : LaidOut offset chars tokens) :
    ∃ body, tokens = body ++ [⟨.eof, offset + chars.length⟩] ∧
      ∀ token ∈ body, token.kind ≠ .eof := by
  induction h with
  | finish => exact ⟨[], rfl, List.forall_mem_nil _⟩
  | @word offset gap word rest c kind tokens _ _ read _ ih =>
      obtain ⟨body, same, inner⟩ := ih
      refine ⟨⟨kind, offset + gap.length⟩ :: body, ?_, ?_⟩
      · have reach : offset + gap.length + 1 + word.length + rest.length =
            offset + (gap ++ c :: (word ++ rest)).length := by
          simp only [List.length_append, List.length_cons]
          omega
        rw [same, reach, List.cons_append]
      · exact List.forall_mem_cons.mpr ⟨ne_eof_of_readToken read, inner⟩

end LaidOut

/-- Tokens on a text: only the last one marks an end, at the length of the text. -/
structure IsLaidOut (text : String) (tokens : List Token) : Prop where
  laid : LaidOut 0 text.toList tokens
  ended : ∃ body, tokens = body ++ [⟨.eof, text.length⟩] ∧ ∀ token ∈ body, token.kind ≠ .eof
  ascending : tokens.Pairwise fun token later => token.position < later.position

theorem tokenize_eq_ok_iff {text : String} {tokens : List Token} :
    tokenize text = .ok tokens ↔ LaidOut 0 text.toList tokens :=
  ⟨LaidOut.of_tokenizeFrom, LaidOut.tokenizeFrom_eq⟩

theorem isLaidOut_of_tokenize {text : String} {tokens : List Token}
    (h : tokenize text = .ok tokens) : IsLaidOut text tokens := by
  have laid := tokenize_eq_ok_iff.mp h
  have ended := laid.exists_ended
  rw [Nat.zero_add, String.length_toList] at ended
  exact ⟨laid, ended, laid.ascending⟩

end Tollgate.Expr
