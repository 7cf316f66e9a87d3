import Mathlib.Data.List.TakeWhile
import Tollgate.Expr.Evaluator
import Tollgate.Proofs.Expr.Token

/-!
# Scanning and tokenizing

The scan for references goes over an expression without reading it.  Wherever
the expression can be cut into tokens, the scan finds exactly the variables
among them.
-/

namespace Tollgate

open Tollgate.Expr

namespace Reference

def IsPlain (c : Char) : Prop := c ≠ '"' ∧ c ≠ '\'' ∧ c ≠ '$'

theorem isPlain_of_isIdentifierChar {c : Char} (h : Text.isIdentifierChar c = true) :
    IsPlain c := by
  refine ⟨?_, ?_, ?_⟩ <;> rintro rfl <;> exact absurd h (by decide)

theorem isPlain_of_isDigit {c : Char} (h : c.isDigit = true) : IsPlain c := by
  refine ⟨?_, ?_, ?_⟩ <;> rintro rfl <;> exact absurd h (by decide)

theorem isPlain_of_isSpace {c : Char} (h : Text.isSpace c = true) : IsPlain c := by
  refine ⟨?_, ?_, ?_⟩ <;> rintro rfl <;> exact absurd h (by decide)

theorem tokens_of_plain {c : Char} (h : IsPlain c) (rest : List Char) :
    tokens (c :: rest) = tokens rest := by
  obtain ⟨double, single, dollar⟩ := h
  rw [tokens]
  simp [double, single, dollar]

theorem tokens_drop {rest : List Char} {size : Nat} (h : ∀ c ∈ rest.take size, IsPlain c) :
    tokens (rest.drop size) = tokens rest := by
  induction rest generalizing size with
  | nil => simp
  | cons c rest ih =>
      cases size with
      | zero => rfl
      | succ size =>
          rw [List.take_succ_cons] at h
          rw [List.drop_succ_cons, ih fun d hd => h d (List.mem_cons_of_mem c hd)]
          exact (tokens_of_plain (h c List.mem_cons_self) rest).symm

end Reference

namespace Expr

open Reference

theorem afterQuote_of_stringBody {quote : Char} {rest text : List Char} {size : Nat}
    (h : stringBody quote rest = some (text, size)) : afterQuote quote rest = rest.drop size := by
  fun_induction stringBody quote rest generalizing text size with
  | case1 => cases h
  | case2 rest =>
      injection h with same
      cases same
      unfold afterQuote
      simp
  | case3 => cases h
  | case4 e rest _ not_quote =>
      rename_i ih
      obtain ⟨⟨inner, length⟩, read, same⟩ := Option.map_eq_some_iff.mp h
      cases same
      unfold afterQuote
      simp [not_quote, ih read]
  | case5 c rest not_quote not_escape ih =>
      obtain ⟨⟨inner, length⟩, read, same⟩ := Option.map_eq_some_iff.mp h
      cases same
      unfold afterQuote
      simp [not_quote, not_escape, ih read]

theorem isPlain_of_numberExtent {pointSeen : Bool} {rest : List Char} :
    ∀ c ∈ rest.take (numberExtent pointSeen rest), IsPlain c := by
  fun_induction numberExtent pointSeen rest with
  | case1 pointSeen c rest _ ih =>
      intro d member
      rw [List.take_succ_cons] at member
      rcases List.mem_cons.mp member with rfl | later
      · exact ⟨by decide, by decide, by decide⟩
      · exact ih d later
  | case2 => simp
  | case3 pointSeen c rest _ digit ih =>
      intro d member
      rw [List.take_succ_cons] at member
      rcases List.mem_cons.mp member with rfl | later
      · exact isPlain_of_isDigit digit
      · exact ih d later
  | case4 => simp
  | case5 => simp

def TokenKind.reference? : TokenKind → Option Reference
  | .variable target => some target
  | _ => none

private theorem reference?_of_keyword? {word : String} {kind : TokenKind}
    (h : keyword? word = some kind) : kind.reference? = none := by
  unfold keyword? at h
  split at h <;> first | (injection h with same; exact same ▸ rfl) | cases h

private theorem isPlain_of_followedBy {next : Char} {rest : List Char}
    (h : followedBy next rest = true) (plain : IsPlain next) : ∀ c ∈ rest.take 1, IsPlain c := by
  unfold followedBy at h
  cases rest with
  | nil => simp at h
  | cons first rest =>
      intro c member
      obtain rfl : first = next := by simpa using h
      obtain rfl : c = first := by simpa using member
      exact plain

private theorem reference?_of_isSign {kind : TokenKind} (h : kind.isSign = true) :
    kind.reference? = none := by
  cases kind <;> first | rfl | cases h

private theorem isPlain_of_mem_signs {c : Char} (h : c ∈ signs) : IsPlain c := by
  refine ⟨?_, ?_, ?_⟩ <;> rintro rfl <;> exact absurd h (by decide)

private theorem isPlain_of_startsNumber {c : Char} {rest : List Char}
    (h : startsNumber c rest = true) : IsPlain c := by
  refine ⟨?_, ?_, ?_⟩ <;> rintro rfl <;> cases h

private theorem isPlain_of_startsWord {c : Char} (h : (c.isAlpha || c = '_') = true) :
    IsPlain c := by
  refine ⟨?_, ?_, ?_⟩ <;> rintro rfl <;> exact absurd h (by decide)

theorem tokens_of_readToken {position : Nat} {c : Char} {rest : List Char} {kind : TokenKind}
    {size : Nat} (h : readToken position c rest = .ok (kind, size)) :
    (kind.reference? = none ∧ Reference.tokens (c :: rest) = Reference.tokens (rest.drop size)) ∨
      ∃ target, kind.reference? = some target ∧ c = '$' ∧ size = extent rest ∧
        ofChars? ('$' :: rest.take size) = some target ∧
        Reference.tokens (c :: rest) =
          ('$' :: rest.take size) :: Reference.tokens (rest.drop size) := by
  have passed (plain : IsPlain c) (plain_rest : ∀ d ∈ rest.take size, IsPlain d) :
      Reference.tokens (c :: rest) = Reference.tokens (rest.drop size) := by
    rw [tokens_of_plain plain, tokens_drop plain_rest]
  cases reads_of_readToken h with
  | sign first isSign =>
      exact .inl ⟨reference?_of_isSign isSign, passed (isPlain_of_mem_signs first) (by simp)⟩
  | pair first second follows isSign =>
      refine .inl ⟨reference?_of_isSign isSign, passed (isPlain_of_mem_signs first) ?_⟩
      exact isPlain_of_followedBy follows (isPlain_of_mem_signs second)
  | quotation quote body =>
      refine .inl ⟨rfl, ?_⟩
      rw [Reference.tokens, if_pos quote, afterQuote_of_stringBody body]
  | @reference target dollar known =>
      have some_chars : extent rest ≠ 0 := by
        intro none_left
        rw [none_left] at known
        cases known
      refine .inr ⟨target, rfl, dollar, rfl, known, ?_⟩
      rw [dollar, Reference.tokens]
      simp [some_chars]
  | number starts known =>
      exact .inl ⟨rfl, passed (isPlain_of_startsNumber starts) isPlain_of_numberExtent⟩
  | word starts known =>
      refine .inl ⟨reference?_of_keyword? known, passed (isPlain_of_startsWord starts) ?_⟩
      intro d member
      rw [← List.prefix_iff_eq_take.mp (List.takeWhile_prefix _)] at member
      exact isPlain_of_isIdentifierChar (List.mem_takeWhile_imp member)

def mentions (tokens : List Token) : List Reference :=
  tokens.filterMap fun token => token.kind.reference?

theorem map_tokens_of_tokenizeFrom {position : Nat} {chars : List Char} {tokens : List Token}
    (h : tokenizeFrom position chars = .ok tokens) :
    (Reference.tokens chars).map ofChars? = (mentions tokens).map some := by
  fun_induction tokenizeFrom position chars generalizing tokens with
  | case1 =>
      cases h
      rw [Reference.tokens]
      rfl
  | case2 position c rest space ih =>
      rw [tokens_of_plain (isPlain_of_isSpace space)]
      exact ih h
  | case3 => cases h
  | case4 => cases h
  | case5 position c rest _ kind size read later tokenized ih =>
      cases h
      unfold mentions at ih ⊢
      rcases tokens_of_readToken read with ⟨reads, scanned⟩ | ⟨target, reads, _, _, parsed, scanned⟩
      · rw [scanned, ih tokenized]
        simp [reads]
      · rw [scanned, List.map_cons, ih tokenized, parsed]
        simp [reads]

theorem exists_scan_of_variable {text : String} {tokens : List Token}
    (h : tokenize text = .ok tokens) {target : Reference} (member : target ∈ mentions tokens) :
    ∃ raw ∈ Reference.scan text, Reference.parse? raw = some target := by
  have found : some target ∈ (Reference.tokens text.toList).map ofChars? := by
    rw [map_tokens_of_tokenizeFrom h]
    exact List.mem_map_of_mem member
  obtain ⟨chars, listed, reads⟩ := List.mem_map.mp found
  refine ⟨String.ofList chars, ?_, ?_⟩
  · exact List.mem_map_of_mem (List.mem_eraseDups.mpr listed)
  · rw [Reference.parse?, String.toList_ofList]
    exact reads

end Expr

end Tollgate
