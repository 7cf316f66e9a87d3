import Mathlib.Data.List.TakeWhile
import Tollgate.Proofs.Expr.Occurrence
import Tollgate.Proofs.Expr.Sentence
import Tollgate.Proofs.Expr.Template
import Tollgate.Proofs.Text.Digits

/-!
# Trimmed expressions

White space around an expression belongs to none of its tokens: what a token
takes off the front does not depend on white space at the end of the text.  So
a text has the words of its trimmed form, and is parsed exactly if that is,
into the same tree; what it evaluates to is the value of that tree.
-/

namespace Tollgate.Expr

section Spaces

variable {spaces : List Char}

private theorem stringBody_of_isSpace {quote : Char} (visible : Text.isSpace quote = false)
    (blank : ∀ c ∈ spaces, Text.isSpace c = true) : stringBody quote spaces = none := by
  induction spaces with
  | nil => rfl
  | cons c spaces ih =>
      have space := blank c List.mem_cons_self
      have differs : c ≠ quote := by
        rintro rfl
        rw [space] at visible
        cases visible
      have no_escape : c ≠ '\\' := by
        rintro rfl
        exact absurd space (by decide)
      have later := ih fun d hd => blank d (List.mem_cons_of_mem c hd)
      unfold stringBody
      simp [differs, no_escape, later]

theorem stringBody_append {quote : Char} (visible : Text.isSpace quote = false)
    (blank : ∀ c ∈ spaces, Text.isSpace c = true) (rest : List Char) :
    stringBody quote (rest ++ spaces) = stringBody quote rest := by
  fun_induction stringBody quote rest with
  | case1 => exact stringBody_of_isSpace visible blank
  | case2 rest =>
      rw [List.cons_append]
      unfold stringBody
      simp
  | case3 not_quote =>
      rw [List.cons_append, List.nil_append]
      unfold stringBody
      cases spaces with
      | nil => simp [not_quote]
      | cons c spaces =>
          have later := stringBody_of_isSpace visible fun d hd =>
            blank d (List.mem_cons_of_mem c hd)
          simp [not_quote, later]
  | case4 e rest _ not_quote ih =>
      rw [List.cons_append, List.cons_append, stringBody.eq_def]
      simp only [not_quote, if_false, if_true, ih]
      rfl
  | case5 c rest not_quote not_escape ih =>
      rw [List.cons_append, stringBody.eq_def]
      simp only [not_quote, not_escape, if_false, ih]

theorem head?_any_append {p : Char → Bool} (visible : ∀ c, Text.isSpace c = true → p c = false)
    (blank : ∀ c ∈ spaces, Text.isSpace c = true) (rest : List Char) :
    (rest ++ spaces).head?.any p = rest.head?.any p := by
  cases rest with
  | cons c rest => rfl
  | nil =>
      cases spaces with
      | nil => rfl
      | cons c spaces => simp [visible c (blank c List.mem_cons_self)]

theorem followedBy_append {next : Char} (visible : Text.isSpace next = false)
    (blank : ∀ c ∈ spaces, Text.isSpace c = true) (rest : List Char) :
    followedBy next (rest ++ spaces) = followedBy next rest := by
  have head (chars : List Char) : followedBy next chars = chars.head?.any (· == next) := by
    cases chars <;> simp [followedBy]
  rw [head, head]
  refine head?_any_append (fun c space => ?_) blank rest
  rw [beq_eq_false_iff_ne]
  rintro rfl
  rw [space] at visible
  cases visible

theorem startsNumber_append (c : Char) (blank : ∀ c ∈ spaces, Text.isSpace c = true)
    (rest : List Char) : startsNumber c (rest ++ spaces) = startsNumber c rest := by
  unfold startsNumber
  rw [head?_any_append (fun _ => Text.isDigit_of_isSpace) blank]

theorem numberExtent_append (blank : ∀ c ∈ spaces, Text.isSpace c = true) (pointSeen : Bool)
    (rest : List Char) : numberExtent pointSeen (rest ++ spaces) = numberExtent pointSeen rest := by
  fun_induction numberExtent pointSeen rest with
  | case1 pointSeen c rest counts ih =>
      rw [List.cons_append] at ih
      rw [List.cons_append, List.cons_append, numberExtent, if_pos counts, ih]
  | case2 pointSeen c rest stops =>
      rw [List.cons_append, List.cons_append, numberExtent, if_neg stops]
  | case3 pointSeen c rest no_point digit ih =>
      have not_point : c ≠ '.' := by
        rintro rfl
        cases digit
      rw [List.cons_append, numberExtent, if_pos digit, ih]
      exact fun _ _ same => absurd same not_point
  | case4 pointSeen c rest no_point no_digit =>
      by_cases point : c = '.'
      · subst point
        obtain rfl : rest = [] := by
          cases rest with
          | nil => rfl
          | cons d rest => exact (no_point d rest rfl rfl).elim
        cases spaces with
        | nil => simp [numberExtent]
        | cons d spaces =>
            have space := blank d List.mem_cons_self
            simp [numberExtent, Text.isDigit_of_isSpace space]
      · rw [List.cons_append, numberExtent, if_neg no_digit]
        exact fun _ _ same => absurd same point
  | case5 =>
      cases spaces with
      | nil => rfl
      | cons d spaces =>
          have space := blank d List.mem_cons_self
          have not_point : d ≠ '.' := by
            rintro rfl
            exact absurd space (by decide)
          rw [List.nil_append, numberExtent, Text.isDigit_of_isSpace space,
            if_neg Bool.false_ne_true]
          exact fun _ _ same => absurd same not_point

theorem extent_append_spaces (blank : ∀ c ∈ spaces, Text.isSpace c = true) (rest : List Char) :
    Reference.extent (rest ++ spaces) = Reference.extent rest := by
  fun_induction Reference.extent rest with
  | case1 c rest counts ih =>
      rw [List.cons_append] at ih
      rw [List.cons_append, List.cons_append, Reference.extent, if_pos counts, ih]
  | case2 c rest stops =>
      rw [List.cons_append, List.cons_append, Reference.extent, if_neg stops]
  | case3 c rest no_point identifier ih =>
      have not_point : c ≠ '.' := by
        rintro rfl
        exact absurd identifier (by decide)
      rw [List.cons_append, Reference.extent_cons not_point, if_pos identifier, ih]
  | case4 c rest no_point other =>
      by_cases point : c = '.'
      · subst point
        obtain rfl : rest = [] := by
          cases rest with
          | nil => rfl
          | cons d rest => exact (no_point d rest rfl rfl).elim
        cases spaces with
        | nil => simp [Reference.extent, other]
        | cons d spaces =>
            have space := blank d List.mem_cons_self
            simp [Reference.extent, Reference.isIdentifierChar_of_isSpace space]
      · rw [List.cons_append, Reference.extent_cons point, if_neg other]
  | case5 => exact Reference.extent_of_isSpace blank

theorem takeWhile_append_spaces (blank : ∀ c ∈ spaces, Text.isSpace c = true) (rest : List Char) :
    (rest ++ spaces).takeWhile Text.isIdentifierChar = rest.takeWhile Text.isIdentifierChar := by
  refine (Text.takeWhile_append_of_head (fun c first => ?_) rest).1
  exact Reference.isIdentifierChar_of_isSpace (blank c (List.mem_of_mem_head? first))

end Spaces

private theorem length_of_stringBody {quote : Char} {rest text : List Char} {size : Nat}
    (h : stringBody quote rest = some (text, size)) : size ≤ rest.length := by
  fun_induction stringBody quote rest generalizing text size with
  | case1 => cases h
  | case2 rest =>
      cases h
      simp
  | case3 => cases h
  | case4 e rest _ not_quote =>
      rename_i ih
      obtain ⟨⟨inner, length⟩, read, same⟩ := Option.map_eq_some_iff.mp h
      cases same
      simpa using ih read
  | case5 c rest not_quote not_escape ih =>
      obtain ⟨⟨inner, length⟩, read, same⟩ := Option.map_eq_some_iff.mp h
      cases same
      simpa using ih read

theorem extent_le_length (rest : List Char) : Reference.extent rest ≤ rest.length := by
  fun_induction Reference.extent rest <;> simp_all

theorem numberExtent_le_length (pointSeen : Bool) (rest : List Char) :
    numberExtent pointSeen rest ≤ rest.length := by
  fun_induction numberExtent pointSeen rest <;> simp_all

theorem size_le_of_readToken {position : Nat} {c : Char} {rest : List Char} {kind : TokenKind}
    {size : Nat} (h : readToken position c rest = .ok (kind, size)) : size ≤ rest.length := by
  cases reads_of_readToken h with
  | sign => exact Nat.zero_le _
  | pair _ _ follows =>
      cases rest with
      | nil => simp [followedBy] at follows
      | cons d rest => simp
  | quotation _ body => exact length_of_stringBody body
  | reference => exact extent_le_length rest
  | number => exact numberExtent_le_length _ rest
  | word => exact (List.takeWhile_sublist _).length_le

theorem readToken_reference {position : Nat} {body rest : List Char} {target : Reference}
    (known : Reference.ofChars? ('$' :: body) = some target) (stops : Reference.extent rest = 0) :
    readToken position '$' (body ++ rest) = .ok (.variable target, body.length) := by
  have size := Reference.extent_of_ofChars? known stops
  simp [readToken, size, known]

theorem toOption_readToken_append {spaces : List Char} (position other : Nat) {c : Char}
    (visible : Text.isSpace c = false) (blank : ∀ c ∈ spaces, Text.isSpace c = true)
    (rest : List Char) :
    (readToken position c (rest ++ spaces)).toOption = (readToken other c rest).toOption := by
  unfold readToken
  dsimp only
  rw [followedBy_append (by decide : Text.isSpace '=' = false) blank,
    followedBy_append (by decide : Text.isSpace '&' = false) blank,
    followedBy_append (by decide : Text.isSpace '|' = false) blank, stringBody_append visible blank,
    extent_append_spaces blank, startsNumber_append c blank, numberExtent_append blank,
    takeWhile_append_spaces blank, List.take_append_of_le_length (extent_le_length rest),
    List.take_append_of_le_length (numberExtent_le_length _ rest)]
  simp only [apply_ite Except.toOption]
  cases stringBody c rest <;>
    cases Reference.ofChars? ('$' :: rest.take (Reference.extent rest)) <;>
    cases Decimal.float? (String.ofList (c :: rest.take (numberExtent (c == '.') rest))) <;>
    cases keyword? (String.ofList (c :: rest.takeWhile Text.isIdentifierChar)) <;> rfl

def words? (outcome : Except ParseError (List Token)) : Option (List TokenKind) :=
  outcome.toOption.map fun tokens => tokens.map Token.kind

theorem tokenizeFrom_spaces {spaces : List Char} (blank : ∀ c ∈ spaces, Text.isSpace c = true)
    (position : Nat) (rest : List Char) :
    tokenizeFrom position (spaces ++ rest) = tokenizeFrom (position + spaces.length) rest := by
  induction spaces generalizing position with
  | nil => rfl
  | cons c spaces ih =>
      have later := ih (fun d hd => blank d (List.mem_cons_of_mem c hd)) (position + 1)
      have reached : position + 1 + spaces.length = position + (c :: spaces).length := by
        rw [List.length_cons]
        omega
      rw [List.cons_append, tokenizeFrom_space _ _ (blank c List.mem_cons_self), later, reached]

theorem words?_cons {c : Char} (visible : Text.isSpace c = false) (position : Nat)
    (rest : List Char) :
    words? (tokenizeFrom position (c :: rest)) =
      (readToken position c rest).toOption.bind fun (kind, size) =>
        (words? (tokenizeFrom (position + 1 + size) (rest.drop size))).map (kind :: ·) := by
  rw [tokenizeFrom_visible _ _ visible]
  cases readToken position c rest with
  | error error => rfl
  | ok read =>
      dsimp only [Except.bind, Except.toOption, Option.bind]
      cases tokenizeFrom (position + 1 + read.2) (rest.drop read.2) <;> rfl

theorem words?_append {spaces : List Char} (blank : ∀ c ∈ spaces, Text.isSpace c = true)
    (position other : Nat) (chars : List Char) :
    words? (tokenizeFrom position (chars ++ spaces)) = words? (tokenizeFrom other chars) := by
  have shorter {rest : List Char} {other size : Nat} {c : Char} {kind : TokenKind}
      (read : readToken other c rest = .ok (kind, size)) :
      (rest ++ spaces).drop size = rest.drop size ++ spaces :=
    List.drop_append_of_le_length (size_le_of_readToken read)
  fun_induction tokenizeFrom other chars generalizing position with
  | case1 other =>
      rw [List.nil_append, ← List.append_nil spaces, tokenizeFrom_spaces blank,
        tokenizeFrom_nil]
      rfl
  | case2 other c rest space ih =>
      rw [List.cons_append, tokenizeFrom_space _ _ space]
      exact ih (position + 1)
  | case3 other c rest visible error read =>
      rw [Bool.not_eq_true] at visible
      rw [List.cons_append, words?_cons visible,
        toOption_readToken_append position other visible blank, read]
      rfl
  | case4 other c rest visible kind size read error later ih =>
      rw [Bool.not_eq_true] at visible
      rw [List.cons_append, words?_cons visible,
        toOption_readToken_append position other visible blank, read]
      dsimp only [Except.toOption, Option.bind]
      rw [shorter read, ih, later]
      rfl
  | case5 other c rest visible kind size read tokens later ih =>
      rw [Bool.not_eq_true] at visible
      rw [List.cons_append, words?_cons visible,
        toOption_readToken_append position other visible blank, read]
      dsimp only [Except.toOption, Option.bind]
      rw [shorter read, ih, later]
      rfl

private theorem words?_trim (text : String) :
    words? (tokenize (Text.trim text)) = words? (tokenize text) := by
  obtain ⟨before, after, cut, blank_before, blank_after⟩ := Text.exists_trimChars text.toList
  unfold tokenize Text.trim
  rw [String.toList_ofList]
  nth_rewrite 2 [cut]
  rw [tokenizeFrom_spaces blank_before, words?_append blank_after _ 0]

theorem parse_eq_ok_iff {text : String} {tree : Tree} :
    parse text = .ok tree ↔ ∃ words, words? (tokenize text) = some (words ++ [.eof]) ∧
      .eof ∉ words ∧ Derives true .conditional words tree := by
  unfold parse
  cases tokenized : tokenize text with
  | error error => simp [words?, Except.toOption]
  | ok tokens =>
      obtain ⟨words, kinds, inside⟩ := kinds_of_tokenizeFrom tokenized
      dsimp only
      rw [readAll_iff_derives kinds inside]
      constructor
      · intro derived
        exact ⟨words, by simp [words?, Except.toOption, kinds], inside, derived⟩
      · rintro ⟨others, same, _, derived⟩
        have equal : words ++ [.eof] = others ++ [.eof] := by
          simpa [words?, Except.toOption, kinds] using same
        rwa [List.append_cancel_right equal]

theorem parse_trim_eq_ok_iff (text : String) (tree : Tree) :
    parse (Text.trim text) = .ok tree ↔ parse text = .ok tree := by
  rw [parse_eq_ok_iff, parse_eq_ok_iff, words?_trim]

private theorem isBlank_of_parse {text : String} {tree : Tree} (h : parse text = .ok tree) :
    Text.isBlank text = false := by
  obtain ⟨words, cut, -, derived⟩ := parse_eq_ok_iff.mp h
  rw [← Bool.not_eq_true]
  intro blank
  have spaces := words?_append (List.all_eq_true.mp blank) 0 0 []
  rw [List.nil_append, tokenizeFrom_nil] at spaces
  have none_left : words ++ [.eof] = [.eof] := Option.some.inj (cut.symm.trans spaces)
  exact derived.ne_nil (List.append_left_eq_self.mp none_left)

theorem evaluate_of_parse {text : String} {tree : Tree} (h : parse text = .ok tree)
    (scope : Scope) : evaluate scope text = tree.eval scope := by
  unfold evaluate
  rw [isBlank_of_parse h, (parse_trim_eq_ok_iff text tree).mpr h]
  rfl

end Tollgate.Expr
