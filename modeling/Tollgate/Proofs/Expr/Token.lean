import Mathlib.Logic.Basic
import Tollgate.Expr.Token

/-!
# Reading single tokens

A token is a sign, of one character or of two, or it is read by the reader that
its first character calls for.
-/

namespace Tollgate.Expr

def signs : List Char := ['(', ')', '+', '-', '*', '/', '?', ':', '>', '<', '!', '=', '&', '|']

def TokenKind.isSign : TokenKind → Bool
  | .opening | .closing | .question | .colon | .not | .and | .or | .operator _ => true
  | _ => false

/-- Everything that can come of reading a token: its kind, and how much of the rest it takes. -/
inductive Reads (c : Char) (rest : List Char) : TokenKind → Nat → Prop
  | sign {kind : TokenKind} (first : c ∈ signs) (isSign : kind.isSign = true) :
      Reads c rest kind 0
  | pair {kind : TokenKind} {next : Char} (first : c ∈ signs) (second : next ∈ signs)
      (follows : followedBy next rest = true) (isSign : kind.isSign = true) :
      Reads c rest kind 1
  | quotation {text : List Char} {size : Nat} (quote : c = '"' ∨ c = '\'')
      (body : stringBody c rest = some (text, size)) :
      Reads c rest (.string (String.ofList text)) size
  | reference {target : Reference} (dollar : c = '$')
      (known : Reference.ofChars? ('$' :: rest.take (Reference.extent rest)) = some target) :
      Reads c rest (.variable target) (Reference.extent rest)
  | number {value : Float} (starts : startsNumber c rest = true)
      (known : Decimal.float? (String.ofList (c :: rest.take (numberExtent (c == '.') rest))) =
        some value) :
      Reads c rest (.number value) (numberExtent (c == '.') rest)
  | word {kind : TokenKind} (starts : (c.isAlpha || c = '_') = true)
      (known : keyword? (String.ofList (c :: rest.takeWhile Text.isIdentifierChar)) =
        some kind) :
      Reads c rest kind (rest.takeWhile Text.isIdentifierChar).length

theorem reads_of_readToken {position : Nat} {c : Char} {rest : List Char} {kind : TokenKind}
    {size : Nat} (h : readToken position c rest = .ok (kind, size)) : Reads c rest kind size := by
  unfold readToken at h
  dsimp only at h
  iterate 8
    rcases ite_eq_iff.mp h with ⟨first, h⟩ | ⟨_, h⟩
    · cases h
      exact .sign (by simp [first, signs]) rfl
  iterate 3
    rcases ite_eq_iff.mp h with ⟨first, h⟩ | ⟨_, h⟩
    · injection h with h
      rcases ite_eq_iff.mp h with ⟨follows, h⟩ | ⟨_, h⟩
      · cases h
        exact .pair (by simp [first, signs]) (by decide) follows rfl
      · cases h
        exact .sign (by simp [first, signs]) rfl
  iterate 3
    rcases ite_eq_iff.mp h with ⟨both, h⟩ | ⟨_, h⟩
    · cases h
      simp only [Bool.and_eq_true, decide_eq_true_eq] at both
      exact .pair (by simp [both.1, signs]) (by decide) both.2 rfl
  rcases ite_eq_iff.mp h with ⟨quote, h⟩ | ⟨_, h⟩
  · split at h
    · next body =>
        cases h
        exact .quotation (by simpa using quote) body
    · cases h
  rcases ite_eq_iff.mp h with ⟨dollar, h⟩ | ⟨_, h⟩
  · split at h
    · next known =>
        cases h
        exact .reference dollar known
    · cases h
  rcases ite_eq_iff.mp h with ⟨starts, h⟩ | ⟨_, h⟩
  · split at h
    · next known =>
        cases h
        exact .number starts known
    · cases h
  rcases ite_eq_iff.mp h with ⟨starts, h⟩ | ⟨_, h⟩
  · split at h
    · next known =>
        cases h
        exact .word starts known
    · cases h
  · cases h

section Tokenize

variable {c : Char} (position : Nat) (rest : List Char)

theorem tokenizeFrom_nil : tokenizeFrom position [] = .ok [⟨.eof, position⟩] := by
  rw [tokenizeFrom.eq_def]

theorem tokenizeFrom_space (space : Text.isSpace c = true) :
    tokenizeFrom position (c :: rest) = tokenizeFrom (position + 1) rest := by
  rw [tokenizeFrom.eq_def]
  exact if_pos space

theorem tokenizeFrom_visible (visible : Text.isSpace c = false) :
    tokenizeFrom position (c :: rest) = (readToken position c rest).bind fun (kind, size) =>
      (tokenizeFrom (position + 1 + size) (rest.drop size)).map (⟨kind, position⟩ :: ·) := by
  rw [tokenizeFrom.eq_def]
  dsimp only
  rw [visible, if_neg Bool.false_ne_true]
  cases readToken position c rest with
  | error error => rfl
  | ok read =>
      dsimp only [Except.bind]
      cases tokenizeFrom (position + 1 + read.2) (rest.drop read.2) <;> rfl

end Tokenize

end Tollgate.Expr
