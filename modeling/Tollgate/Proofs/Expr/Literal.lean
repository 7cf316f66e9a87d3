import Tollgate.Proofs.Expr.Sentence
import Tollgate.Proofs.Expr.Trimming
import Tollgate.Proofs.Number.Numeral

/-!
# Literals of expressions

The literals of a tree are those of its words, in their order.  A number is
written as a numeral that is as long as can be, and stands for the double
nearest to it; one that is too large for a double stands for `null`, like the
keywords for it.
-/

namespace Tollgate

open Number
open Decimal (Numeral)

namespace Decimal.Numeral

structure EndsBefore (n : Numeral) (rest : List Char) : Prop where
  digit : ∀ c ∈ rest.head?, c.isDigit = false
  point : n.fraction = none → ∀ c more, rest = '.' :: c :: more → c.isDigit = false

structure StandsAt (n : Numeral) (chars : List Char) (position : ℕ) : Prop where
  plain : n.IsPlain
  spelled : ∃ rest, chars.drop position = n.spelling ++ rest ∧ n.EndsBefore rest

end Decimal.Numeral

namespace Expr

structure Continues (pointSeen : Bool) (n : Numeral) (rest : List Char) : Prop where
  exponent : n.exponent = none
  isDigit : ∀ c ∈ n.whole ++ n.places, c.isDigit = true
  fraction : pointSeen = true → n.fraction = none
  some_places : ∀ places, n.fraction = some places → places ≠ []
  digit : ∀ c ∈ rest.head?, c.isDigit = false
  point : pointSeen = false → n.fraction = none →
    ∀ c more, rest = '.' :: c :: more → c.isDigit = false

private theorem Continues.nothing {pointSeen : Bool} {rest : List Char}
    (digit : ∀ c ∈ rest.head?, c.isDigit = false)
    (point : pointSeen = false → ∀ c more, rest = '.' :: c :: more → c.isDigit = false) :
    Continues pointSeen ⟨[], none, none⟩ rest :=
  ⟨rfl, by simp [Numeral.places], fun _ => rfl, by simp, digit, fun unseen _ => point unseen⟩

private theorem exists_continues (pointSeen : Bool) (chars : List Char) :
    ∃ (n : Numeral) (rest : List Char), chars = n.spelling ++ rest ∧
      numberExtent pointSeen chars = n.spelling.length ∧ Continues pointSeen n rest := by
  fun_induction numberExtent pointSeen chars with
  | case1 pointSeen c rest starts ih =>
      obtain ⟨unseen, digit⟩ : pointSeen = false ∧ c.isDigit = true := by simpa using starts
      obtain ⟨⟨whole, fraction, exponent⟩, after, split, extent, continues⟩ := ih
      obtain rfl : fraction = none := continues.fraction rfl
      refine ⟨⟨[], some whole, none⟩, after, congrArg ('.' :: ·) split,
        congrArg (· + 1) extent, rfl, ?_, ?_, ?_, continues.digit, by simp⟩
      · simpa [Numeral.places] using continues.isDigit
      · simp [unseen]
      · rintro _ ⟨⟩ rfl
        have same : c :: rest = after := split
        rw [continues.digit c (same ▸ rfl)] at digit
        cases digit
  | case2 pointSeen c rest stops =>
      refine ⟨⟨[], none, none⟩, _, rfl, rfl, .nothing ?_ ?_⟩
      · rintro _ ⟨⟩
        rfl
      · rintro unseen _ _ ⟨⟩
        simpa [unseen] using stops
  | case3 pointSeen c rest not_point digit ih =>
      obtain ⟨⟨whole, fraction, exponent⟩, after, split, extent, continues⟩ := ih
      have spelled : Numeral.spelling ⟨c :: whole, fraction, exponent⟩ =
          c :: Numeral.spelling ⟨whole, fraction, exponent⟩ := by
        cases fraction <;> rfl
      refine ⟨⟨c :: whole, fraction, exponent⟩, after, ?_, ?_, { continues with isDigit := ?_ }⟩
      · rw [spelled, split]
        rfl
      · rw [spelled, extent, List.length_cons]
      · exact List.forall_mem_cons.mpr ⟨digit, continues.isDigit⟩
  | case4 pointSeen c rest not_point not_digit =>
      refine ⟨⟨[], none, none⟩, _, rfl, rfl, .nothing ?_ ?_⟩
      · rintro _ ⟨⟩
        exact Bool.eq_false_of_not_eq_true not_digit
      · rintro _ d more same
        exact absurd same (by rintro ⟨⟩; exact not_point _ _ rfl rfl)
  | case5 => exact ⟨⟨[], none, none⟩, [], rfl, rfl, .nothing (by simp) (by simp)⟩

theorem exists_numeral {c : Char} {rest : List Char} (starts : startsNumber c rest = true) :
    ∃ n : Numeral, n.IsPlain ∧ c :: rest.take (numberExtent (c == '.') rest) = n.spelling ∧
      n.EndsBefore (rest.drop (numberExtent (c == '.') rest)) := by
  obtain ⟨⟨whole, fraction, exponent⟩, after, split, extent, continues⟩ :=
    exists_continues (c == '.') rest
  obtain rfl : exponent = none := continues.exponent
  rw [extent, split, List.take_left, List.drop_left]
  by_cases point : c = '.'
  · subst point
    obtain rfl : fraction = none := continues.fraction rfl
    refine ⟨⟨[], some whole, none⟩, ⟨rfl, ?_, by simp, ?_⟩, rfl, continues.digit, by simp⟩
    · simpa [Numeral.places] using continues.isDigit
    · rintro _ ⟨⟩ rfl
      have same : rest = after := split
      cases after with
      | nil => simp [startsNumber, same] at starts
      | cons d after =>
          have digit : d.isDigit = true := by simpa [startsNumber, same] using starts
          rw [continues.digit d rfl] at digit
          cases digit
  · have digit : c.isDigit = true := by simpa [startsNumber, point] using starts
    refine ⟨⟨c :: whole, fraction, none⟩, ⟨rfl, ?_, by simp, continues.some_places⟩, ?_,
      continues.digit, continues.point (by simpa using point)⟩
    · exact List.forall_mem_cons.mpr ⟨digit, continues.isDigit⟩
    · cases fraction <;> rfl

def TokenKind.literal? : TokenKind → Option Json
  | .number x => some (((Json.Number.ofComputed? x).map Json.number).getD .null)
  | .string s => some (.string s)
  | .bool b => some (.bool b)
  | .null => some .null
  | _ => none

private theorem keyword?_ne_number (word : String) (x : Float) :
    keyword? word ≠ some (.number x) := by
  unfold keyword?
  split <;> simp

private theorem toLower_of_keyword? {word : String} (h : keyword? word = some .null) :
    word.toLower = "null" ∨ word.toLower = "none" := by
  unfold keyword? at h
  split at h <;> simp_all

private theorem spelled_of_readToken {position : ℕ} {c : Char} {rest : List Char} {kind : TokenKind}
    {size : ℕ} (h : readToken position c rest = .ok (kind, size)) :
    (∀ x, kind = .number x → startsNumber c rest = true ∧ size = numberExtent (c == '.') rest ∧
      Decimal.float? (String.ofList (c :: rest.take size)) = some x) ∧
    (kind = .null → keyword? (String.ofList (c :: rest.take size)) = some .null) := by
  have of_isSign {kind : TokenKind} {P : Float → Prop} {Q : Prop} (isSign : kind.isSign = true) :
      (∀ x, kind = .number x → P x) ∧ (kind = .null → Q) := by
    constructor
    · rintro x rfl
      cases isSign
    · rintro rfl
      cases isSign
  cases reads_of_readToken h with
  | sign _ isSign => exact of_isSign isSign
  | pair _ _ _ isSign => exact of_isSign isSign
  | quotation | reference => exact ⟨nofun, nofun⟩
  | number starts known =>
      refine ⟨?_, nofun⟩
      rintro _ ⟨⟩
      exact ⟨starts, rfl, known⟩
  | word _ known =>
      rw [← List.prefix_iff_eq_take.mp (List.takeWhile_prefix _)]
      refine ⟨?_, fun same => same ▸ known⟩
      rintro x rfl
      exact absurd known (keyword?_ne_number _ x)

def NullAt (chars : List Char) (position : ℕ) : Prop :=
  ∃ word rest : List Char, chars.drop position = word ++ rest ∧
    (String.toLower (.ofList word) = "null" ∨ String.toLower (.ofList word) = "none")

structure Spelled (chars : List Char) (token : Token) : Prop where
  number : ∀ x, token.kind = .number x →
    ∃ n : Numeral, x = n.value ∧ n.StandsAt chars token.position
  null : token.kind = .null → NullAt chars token.position

theorem spelled_of_tokenizeFrom {position : ℕ} {chars all : List Char} {tokens : List Token}
    (h : tokenizeFrom position chars = .ok tokens) (start : all.drop position = chars) :
    ∀ token ∈ tokens, Spelled all token := by
  fun_induction tokenizeFrom position chars generalizing tokens with
  | case1 position =>
      cases h
      simp only [List.mem_singleton, forall_eq]
      exact ⟨by simp, by simp⟩
  | case2 position c rest space ih =>
      refine ih h ?_
      rw [← List.drop_drop, start, List.drop_one, List.tail_cons]
  | case3 => cases h
  | case4 => cases h
  | case5 position c rest _ kind size read later tokenized ih =>
      cases h
      obtain ⟨number, null⟩ := spelled_of_readToken read
      refine List.forall_mem_cons.mpr ⟨⟨?_, ?_⟩, ih tokenized ?_⟩
      · intro x same
        obtain ⟨starts, rfl, float⟩ := number x same
        obtain ⟨n, plain, spelled, ends⟩ := exists_numeral starts
        rw [spelled, Numeral.float?_spelling plain, Option.some.injEq] at float
        refine ⟨n, float.symm, plain, _, ?_, ends⟩
        rw [start, ← spelled, List.cons_append, List.take_append_drop]
      · intro same
        refine ⟨c :: rest.take size, rest.drop size, ?_, toLower_of_keyword? (null same)⟩
        rw [start, List.cons_append, List.take_append_drop]
      · rw [← List.drop_drop, ← List.drop_drop, start, List.drop_one, List.tail_cons]

def Tree.literals : Tree → List Json
  | .literal value => [value]
  | .variable _ => []
  | .not operand => operand.literals
  | .negate operand => operand.literals
  | .and left right => left.literals ++ right.literals
  | .or left right => left.literals ++ right.literals
  | .binary _ left right => left.literals ++ right.literals
  | .conditional condition yes no => condition.literals ++ yes.literals ++ no.literals

private theorem Level.Joins.literals {level : Level} {word : TokenKind}
    {combine : Tree → Tree → Tree} (h : level.Joins word combine) :
    word.literal? = none ∧
      ∀ left right, (combine left right).literals = left.literals ++ right.literals := by
  cases h <;> exact ⟨rfl, fun _ _ => rfl⟩

private theorem Leaf.literals {word : TokenKind} {tree : Tree} (h : Leaf word tree) :
    tree.literals = word.literal?.toList := by
  cases h <;> rfl

theorem Derives.literals {eager : Bool} {category : Category} {words : List TokenKind}
    {tree : Tree} (h : Derives eager category words tree) :
    tree.literals = words.filterMap TokenKind.literal? := by
  induction h with
  | plain _ ih => exact ih
  | conditional _ _ _ ih ih_yes ih_no =>
      simp [Tree.literals, ih, ih_yes, ih_no, List.filterMap_cons, TokenKind.literal?]
  | operand _ ih => exact ih
  | join _ joins _ ih_left ih_right =>
      obtain ⟨no_literal, joined⟩ := joins.literals
      simp [joined, ih_left, ih_right, no_literal]
  | not _ ih => simp [Tree.literals, ih, List.filterMap_cons, TokenKind.literal?]
  | comparison _ _ ih => exact ih
  | minus _ ih => simp [Tree.literals, ih, List.filterMap_cons, TokenKind.literal?]
  | invert _ ih => simp [Tree.literals, ih, List.filterMap_cons, TokenKind.literal?]
  | primary _ ih => exact ih
  | @leaf word _ leaf =>
      rw [leaf.literals]
      cases read : word.literal? <;> simp [read]
  | group _ ih => simp [ih, List.filterMap_cons, TokenKind.literal?]

/-- The literal is the double nearest to the numeral, or `null` if that is infinite. -/
structure Stands (n : Numeral) (literal : Json) : Prop where
  number : n.amount < overflow → ∃ (x : Float) (value : Json.Number),
    IsNearest n.amount x ∧ literal = .number value ∧ value.toRat = Number.value x
  null : overflow ≤ n.amount → literal = .null

private theorem stands_of_isPlain {n : Numeral} (plain : n.IsPlain) :
    ∃ literal, TokenKind.literal? (.number n.value) = some literal ∧ Stands n literal := by
  have rounds := n.rounds_value plain
  refine ⟨_, rfl, fun small => ?_, fun large => ?_⟩
  · have nearest := rounds.nearest small
    obtain ⟨value, computed, same⟩ := Json.Number.ofComputed?_of_isFinite nearest.isFinite
    exact ⟨n.value, value, nearest, by rw [computed]; rfl, same⟩
  · rw [Json.Number.ofComputed?_of_isInfinite (rounds.infinite large)]
    rfl

/-- How the literals of a tree follow from the tokens of its text. -/
structure ReadsLiterals (text : String) (tokens : List Token) (tree : Tree) : Prop where
  tokenized : tokenize text = .ok tokens
  listed : tree.literals = tokens.filterMap fun token => token.kind.literal?
  number : ∀ token ∈ tokens, ∀ x, token.kind = .number x → ∃ (n : Numeral) (literal : Json),
    x = n.value ∧ n.StandsAt text.toList token.position ∧
      token.kind.literal? = some literal ∧ Stands n literal
  null : .null ∈ tree.literals ↔ ∃ token ∈ tokens,
    token.kind = .null ∧ NullAt text.toList token.position ∨
      ∃ n : Numeral, token.kind = .number n.value ∧ n.StandsAt text.toList token.position ∧
        overflow ≤ n.amount

private theorem literals_of_readAll {position : ℕ} {chars : List Char} {tokens : List Token}
    {tree : Tree} (tokenized : tokenizeFrom position chars = .ok tokens)
    (h : readAll tokens = .ok tree) :
    tree.literals = tokens.filterMap fun token => token.kind.literal? := by
  obtain ⟨words, kinds, inside⟩ := kinds_of_tokenizeFrom tokenized
  have all : tokens.filterMap (fun token => token.kind.literal?) =
      (tokens.map Token.kind).filterMap TokenKind.literal? := by
    rw [List.filterMap_map]
    rfl
  rw [((readAll_iff_derives kinds inside).mp h).literals, all, kinds]
  simp [List.filterMap_cons, TokenKind.literal?]

/-- A text that is parsed has its literals where it has numerals, quotations and keywords.  A
numeral is rounded once and stays a number unless it is too large for a double. -/
theorem readsLiterals_of_parse {text : String} {tree : Tree} (parsed : parse text = .ok tree) :
    ∃ tokens, ReadsLiterals text tokens tree := by
  unfold parse at parsed
  split at parsed
  · cases parsed
  next tokens tokenized =>
  have spelled : ∀ token ∈ tokens, Spelled text.toList token :=
    spelled_of_tokenizeFrom tokenized rfl
  have listed := literals_of_readAll tokenized parsed
  have number : ∀ token ∈ tokens, ∀ x, token.kind = .number x →
      ∃ (n : Numeral) (literal : Json), x = n.value ∧ n.StandsAt text.toList token.position ∧
        token.kind.literal? = some literal ∧ Stands n literal := by
    intro token member x same
    obtain ⟨n, rfl, stands⟩ := (spelled token member).number x same
    obtain ⟨literal, read, value⟩ := stands_of_isPlain stands.plain
    exact ⟨n, literal, rfl, stands, same ▸ read, value⟩
  refine ⟨tokens, tokenized, listed, number, ?_⟩
  rw [listed, List.mem_filterMap]
  constructor
  · rintro ⟨token, member, read⟩
    refine ⟨token, member, ?_⟩
    cases same : token.kind with
    | number x =>
        obtain ⟨n, literal, rfl, stands, read', value⟩ := number token member x same
        refine .inr ⟨n, rfl, stands, ?_⟩
        by_contra small
        obtain ⟨_, value, -, rfl, -⟩ := value.number (not_le.mp small)
        rw [read'] at read
        cases read
    | null => exact .inl ⟨rfl, (spelled token member).null same⟩
    | _ => rw [same] at read; cases read
  · rintro ⟨token, member, ⟨same, -⟩ | ⟨n, same, stands, large⟩⟩
    · exact ⟨token, member, same ▸ rfl⟩
    · obtain ⟨literal, read, value⟩ := stands_of_isPlain stands.plain
      rw [value.null large] at read
      exact ⟨token, member, same ▸ read⟩

theorem readsLiterals_of_parse_conditional :
    ∃ tree, parse "1.50 < $input.x ? NONE : .5" = .ok tree ∧
      ∃ tokens, ReadsLiterals "1.50 < $input.x ? NONE : .5" tokens tree := by
  have accepted : (parse "1.50 < $input.x ? NONE : .5").isOk = true := by decide +kernel
  cases parsed : parse "1.50 < $input.x ? NONE : .5" with
  | error error =>
      rw [parsed] at accepted
      cases accepted
  | ok tree => exact ⟨tree, rfl, readsLiterals_of_parse parsed⟩

def powerOfTen (zeros : ℕ) : Numeral := ⟨'1' :: List.replicate zeros '0', none, none⟩

theorem isPlain_powerOfTen (zeros : ℕ) : (powerOfTen zeros).IsPlain where
  exponent := rfl
  isDigit := by simp +contextual [powerOfTen, Numeral.places]
  some_whole := by simp [powerOfTen]
  some_places := by simp [powerOfTen]

private theorem amount_powerOfTen (zeros : ℕ) : (powerOfTen zeros).amount = 10 ^ zeros := by
  have digits : Nat.ofDigitChars 10 ('1' :: List.replicate zeros '0') 0 = 10 ^ zeros := by
    rw [Nat.ofDigitChars_cons, Nat.ofDigitChars_replicate_zero]
    exact Nat.mul_one _
  have places : (powerOfTen zeros).places = [] := rfl
  rw [Numeral.amount, places, List.append_nil, List.length_nil, pow_zero, div_one]
  exact_mod_cast digits

private theorem numberExtent_zeros (pointSeen : Bool) (zeros : ℕ) :
    numberExtent pointSeen (List.replicate zeros '0') = zeros := by
  induction zeros with
  | zero => rfl
  | succ zeros ih =>
      rw [List.replicate_succ, numberExtent, ih]
      · rfl
      · rintro c rest ⟨⟩

private theorem tokenize_powerOfTen (zeros : ℕ) :
    tokenize (String.ofList (powerOfTen zeros).spelling) =
      .ok [⟨.number (powerOfTen zeros).value, 0⟩, ⟨.eof, zeros + 1⟩] := by
  have read : readToken 0 '1' (List.replicate zeros '0') =
      .ok (.number (powerOfTen zeros).value, zeros) := by
    have float := Numeral.float?_spelling (isPlain_powerOfTen zeros)
    rw [show (powerOfTen zeros).spelling = '1' :: List.replicate zeros '0' from rfl] at float
    have starts : startsNumber '1' (List.replicate zeros '0') = true := rfl
    simp [readToken, starts, numberExtent_zeros, float, -String.ofList_cons]
  have spelled : (String.ofList (powerOfTen zeros).spelling).toList =
      '1' :: List.replicate zeros '0' := String.toList_ofList
  have visible : Text.isSpace '1' = false := by decide
  rw [tokenize, spelled, tokenizeFrom_visible _ _ visible, read]
  simp [Except.bind, Except.map, tokenizeFrom_nil, Nat.add_comm]

theorem parse_enormous :
    tokenize (String.ofList (powerOfTen 400).spelling) =
        .ok [⟨.number (powerOfTen 400).value, 0⟩, ⟨.eof, 401⟩] ∧
      overflow ≤ (powerOfTen 400).amount ∧
      parse (String.ofList (powerOfTen 400).spelling) = .ok (.literal .null) := by
  have tokenized := tokenize_powerOfTen 400
  have large : overflow ≤ (powerOfTen 400).amount := by
    have power : (2 : ℕ) ^ 1024 ≤ 10 ^ 400 := by decide +kernel
    rw [amount_powerOfTen]
    exact overflow_le_two_pow.trans (by exact_mod_cast power)
  have infinite := ((powerOfTen 400).rounds_value (isPlain_powerOfTen 400)).infinite large
  have null : Tree.numeral (powerOfTen 400).value = .literal .null := by
    rw [Tree.numeral, Json.Number.ofComputed?_of_isInfinite infinite]
    rfl
  have derived : Derives true .conditional [.number (powerOfTen 400).value] (.literal .null) :=
    null ▸ .plain (.operand (.operand (.comparison (.operand (.operand (.operand (.primary (.leaf
      (.number _)))))) (by simp))))
  refine ⟨tokenized, large, ?_⟩
  rw [parse, tokenized]
  exact (readAll_iff_derives rfl (by simp)).mpr derived

end Expr

end Tollgate
