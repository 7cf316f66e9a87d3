import Tollgate.Proofs.Expr.Trimming
import Tollgate.Proofs.Expr.Variables

/-!
# Variables as they are written

A variable of an expression is written from its position up to the next token.
The scan, which knows nothing of tokens, lists what is written there: each text
once, in the order in which the texts come first.  So the scan tells on which
references the value of an expression can depend.
-/

namespace Tollgate

theorem List.eraseDups_map {α β : Type} [BEq α] [LawfulBEq α] [BEq β] [LawfulBEq β] {f : α → β}
    (injective : Function.Injective f) (members : List α) :
    (members.map f).eraseDups = members.eraseDups.map f := by
  induction length : members.length using Nat.strongRecOn generalizing members with
  | ind _ ih =>
      cases members with
      | nil => rfl
      | cons a rest =>
          have same : ((fun b => !b == f a) ∘ f) = fun b => !b == a := by
            funext b
            simp [injective.eq_iff]
          have shorter := List.length_filter_le (fun b => !b == a) rest
          rw [List.map_cons, List.eraseDups_cons, List.filter_map, same, List.eraseDups_cons,
            List.map_cons, ih _ _ _ rfl]
          rw [← length, List.length_cons]
          omega

namespace Expr

open Reference (extent)

def excerpt (chars : List Char) (start stop : Nat) : String :=
  String.ofList (Text.trimChars ((chars.take stop).drop start))

def variableTexts (chars : List Char) : List Token → List (Reference × String)
  | [] => []
  | token :: rest =>
      let stop := (rest.head?.map Token.position).getD chars.length
      (token.kind.reference?.map (·, excerpt chars token.position stop)).toList ++
        variableTexts chars rest

theorem map_fst_variableTexts (chars : List Char) (tokens : List Token) :
    (variableTexts chars tokens).map Prod.fst = mentions tokens := by
  induction tokens with
  | nil => rfl
  | cons token rest ih =>
      rw [variableTexts, List.map_append, ih, mentions, mentions, List.filterMap_cons]
      cases token.kind.reference? <;> rfl

private theorem trimChars_append {chars blanks : List Char}
    (visible : ∀ c ∈ chars, Text.isSpace c = false) (blank : ∀ c ∈ blanks, Text.isSpace c = true) :
    Text.trimChars (chars ++ blanks) = chars := by
  have kept {chars : List Char} (visible : ∀ c ∈ chars, Text.isSpace c = false) :
      chars.dropWhile Text.isSpace = chars := by
    cases chars with
    | nil => rfl
    | cons c rest => exact List.dropWhile_cons_of_neg (by simp [visible c])
  have front : (chars ++ blanks).dropWhile Text.isSpace = [] ∧ chars = [] ∨
      (chars ++ blanks).dropWhile Text.isSpace = chars ++ blanks := by
    cases chars with
    | nil => exact .inl ⟨List.dropWhile_eq_nil_iff.mpr blank, rfl⟩
    | cons c rest => exact .inr (List.dropWhile_cons_of_neg (by simp [visible c]))
  unfold Text.trimChars
  rcases front with ⟨none_left, rfl⟩ | all
  · rw [none_left]
    rfl
  · rw [all, List.reverse_append, List.dropWhile_append_of_pos (by simpa using blank),
      kept (by simpa using visible), List.reverse_reverse]

private theorem excerpt_eq {before word blanks : List Char} (after : List Char)
    (visible : ∀ c ∈ word, Text.isSpace c = false) (blank : ∀ c ∈ blanks, Text.isSpace c = true) :
    excerpt (before ++ (word ++ (blanks ++ after))) before.length
      (before.length + (word.length + blanks.length)) = String.ofList word := by
  unfold excerpt
  rw [← List.append_assoc word, ← List.append_assoc before, List.take_left' (by simp),
    List.drop_left, trimChars_append visible blank]

private theorem isSpace_of_extent {rest : List Char} :
    ∀ c ∈ '$' :: rest.take (extent rest), Text.isSpace c = false := by
  intro c member
  rcases List.mem_cons.mp member with rfl | member
  · decide
  · rcases Reference.eq_point_or_isIdentifierChar_of_extent c member with rfl | identifier
    · decide
    · by_contra space
      rw [Bool.not_eq_false] at space
      simp [Reference.isIdentifierChar_of_isSpace space] at identifier

private theorem next_of_tokenizeFrom {position : Nat} {chars : List Char} {tokens : List Token}
    (h : tokenizeFrom position chars = .ok tokens) :
    ∃ blanks later, chars = blanks ++ later ∧ (∀ c ∈ blanks, Text.isSpace c = true) ∧
      tokens.head?.map Token.position = some (position + blanks.length) := by
  fun_induction tokenizeFrom position chars generalizing tokens with
  | case1 position =>
      cases h
      exact ⟨[], [], rfl, by simp, rfl⟩
  | case2 position c rest space ih =>
      obtain ⟨blanks, later, rfl, blank, next⟩ := ih h
      refine ⟨c :: blanks, later, rfl, List.forall_mem_cons.mpr ⟨space, blank⟩, ?_⟩
      rw [next, List.length_cons, Nat.add_assoc, Nat.add_comm 1]
  | case3 => cases h
  | case4 => cases h
  | case5 position c rest _ kind size read later tokenized ih =>
      cases h
      exact ⟨[], c :: rest, rfl, by simp, rfl⟩

theorem map_snd_variableTexts {position : Nat} {chars before : List Char} {tokens : List Token}
    (h : tokenizeFrom position chars = .ok tokens) (start : before.length = position) :
    (variableTexts (before ++ chars) tokens).map Prod.snd =
      (Reference.tokens chars).map String.ofList := by
  fun_induction tokenizeFrom position chars generalizing before tokens with
  | case1 position =>
      cases h
      rw [Reference.tokens]
      rfl
  | case2 position c rest space ih =>
      have passed : (before ++ [c]).length = position + 1 := by simp [start]
      have later := ih h passed
      rw [List.append_assoc] at later
      rw [Reference.tokens_of_plain (Reference.isPlain_of_isSpace space), ← later]
      rfl
  | case3 => cases h
  | case4 => cases h
  | case5 position c rest _ kind size read later tokenized ih =>
      cases h
      obtain ⟨blanks, after, cut, blank, next⟩ := next_of_tokenizeFrom tokenized
      have passed : (before ++ c :: rest.take size).length = position + 1 + size := by
        rw [List.length_append, List.length_cons,
          List.length_take_of_le (size_le_of_readToken read), start]
        omega
      have tail := ih tokenized passed
      rw [List.append_assoc, List.cons_append, List.take_append_drop] at tail
      rw [variableTexts, next, Option.getD_some, List.map_append, tail]
      rcases tokens_of_readToken read with ⟨reads, scanned⟩ | ⟨target, reads, rfl, rfl, _, scanned⟩
      · rw [reads, scanned]
        rfl
      · have stop : position + 1 + extent rest + blanks.length =
            before.length + (('$' :: rest.take (extent rest)).length + blanks.length) := by
          rw [List.length_cons, List.length_take_of_le (extent_le_length rest)]
          omega
        have split : '$' :: rest = '$' :: rest.take (extent rest) ++ (blanks ++ after) := by
          rw [← cut, List.cons_append, List.take_append_drop]
        rw [reads, scanned, stop, ← start]
        nth_rewrite 1 [split]
        rw [Option.map_some, excerpt_eq after isSpace_of_extent blank]
        rfl

theorem map_snd_variableTexts_of_tokenize {text : String} {tokens : List Token}
    (tokenized : tokenize text = .ok tokens) :
    (variableTexts text.toList tokens).map Prod.snd =
      (Reference.tokens text.toList).map String.ofList := by
  have start : ([] : List Char).length = 0 := rfl
  exact map_snd_variableTexts tokenized start

theorem scan_eq_of_tokenize {text : String} {tokens : List Token}
    (tokenized : tokenize text = .ok tokens) :
    Reference.scan text = ((variableTexts text.toList tokens).map Prod.snd).eraseDups := by
  have injective : Function.Injective String.ofList := fun _ _ same => String.ofList_inj.mp same
  rw [Reference.scan, map_snd_variableTexts_of_tokenize tokenized, List.eraseDups_map injective]

theorem parse?_of_mem_variableTexts {text : String} {tokens : List Token}
    (tokenized : tokenize text = .ok tokens) {target : Reference} {raw : String}
    (member : (target, raw) ∈ variableTexts text.toList tokens) :
    Reference.parse? raw = some target := by
  have read : (variableTexts text.toList tokens).map (fun entry => Reference.parse? entry.2) =
      (variableTexts text.toList tokens).map (fun entry => some entry.1) := by
    calc
      _ = ((variableTexts text.toList tokens).map Prod.snd).map Reference.parse? := by
        rw [List.map_map, Function.comp_def]
      _ = (Reference.tokens text.toList).map Reference.ofChars? := by
        rw [map_snd_variableTexts_of_tokenize tokenized, List.map_map]
        exact List.map_congr_left fun chars _ => by
          rw [Function.comp_apply, Reference.parse?, String.toList_ofList]
      _ = (mentions tokens).map some := map_tokens_of_tokenizeFrom tokenized
      _ = _ := by rw [← map_fst_variableTexts text.toList, List.map_map, Function.comp_def]
  exact List.map_inj_left.mp read (target, raw) member

private theorem parse?_of_mem_scan {text : String} {tokens : List Token}
    (tokenized : tokenize text = .ok tokens) {raw : String} (listed : raw ∈ Reference.scan text) :
    ∃ target ∈ mentions tokens, Reference.parse? raw = some target := by
  rw [scan_eq_of_tokenize tokenized, List.mem_eraseDups] at listed
  obtain ⟨⟨target, written⟩, member, rfl⟩ := List.mem_map.mp listed
  refine ⟨target, ?_, parse?_of_mem_variableTexts tokenized member⟩
  rw [← map_fst_variableTexts text.toList]
  exact List.mem_map_of_mem member

theorem mem_filterMap_scan {text : String} {tokens : List Token}
    (tokenized : tokenize text = .ok tokens) {target : Reference} :
    target ∈ (Reference.scan text).filterMap Reference.parse? ↔ target ∈ mentions tokens := by
  rw [List.mem_filterMap]
  constructor
  · rintro ⟨raw, listed, reads⟩
    obtain ⟨other, member, reads_other⟩ := parse?_of_mem_scan tokenized listed
    rw [reads, Option.some.injEq] at reads_other
    rwa [reads_other]
  · exact exists_scan_of_variable tokenized

theorem report_references (evaluator : Evaluator) (text : String) :
    (evaluator.report text).1.references = Reference.scan text := by
  unfold Evaluator.report
  dsimp only
  split
  · rfl
  · rcases evaluator.compile text with ⟨_ | _, _⟩ <;> rfl

private theorem report_referencedSteps (evaluator : Evaluator) (text : String) :
    (evaluator.report text).1.referencedSteps = Ascending.ofList
      (((Reference.scan text).filterMap Reference.parse?).filterMap Reference.step?) := by
  unfold Evaluator.report
  dsimp only
  split
  · rfl
  · rcases evaluator.compile text with ⟨_ | _, _⟩ <;> rfl

private theorem evaluate_congr {text : String} {tokens : List Token}
    (tokenized : tokenize text = .ok tokens) {scope other : Scope}
    (agree : ∀ target ∈ mentions tokens, scope target = other target) :
    evaluate scope text = evaluate other text := by
  unfold evaluate
  split
  · rfl
  · cases parsed : parse (Text.trim text) with
    | error error => rfl
    | ok tree =>
        rw [parse_trim_eq_ok_iff, parse, tokenized] at parsed
        rw [← references_of_readAll tokenized parsed] at agree
        exact Tree.eval_congr agree

/-- What the scan of a text and the report on it say of the variables among its tokens. -/
structure ScansExactly (text : String) (tokens : List Token) : Prop where
  listed : Reference.scan text = ((variableTexts text.toList tokens).map Prod.snd).eraseDups
  reads : ∀ entry ∈ variableTexts text.toList tokens, Reference.parse? entry.2 = some entry.1
  kept : ∀ tree, parse text = .ok tree → tree.references = mentions tokens
  reported : ∀ evaluator : Evaluator, (evaluator.report text).1.references = Reference.scan text
  steps_ascend : ∀ evaluator : Evaluator,
    (evaluator.report text).1.referencedSteps.Pairwise (· < ·)
  mem_steps : ∀ (evaluator : Evaluator) (n : Nat),
    n ∈ (evaluator.report text).1.referencedSteps ↔
      ∃ target ∈ mentions tokens, target.source = .step n
  value : ∀ (evaluator evaluator' : Evaluator) (scope scope' : Scope),
    (∀ raw ∈ Reference.scan text, ∀ target, Reference.parse? raw = some target →
      scope target = scope' target) →
    (evaluator.evaluate scope text).1 = (evaluator'.evaluate scope' text).1

theorem scansExactly_of_tokenize {text : String} {tokens : List Token}
    (tokenized : tokenize text = .ok tokens) : ScansExactly text tokens where
  listed := scan_eq_of_tokenize tokenized
  reads := fun _ member => parse?_of_mem_variableTexts tokenized member
  kept := by
    intro tree parsed
    rw [parse, tokenized] at parsed
    exact references_of_readAll tokenized parsed
  reported := fun evaluator => report_references evaluator text
  steps_ascend := by
    intro evaluator
    rw [report_referencedSteps]
    exact Ascending.pairwise_ofList _
  mem_steps := by
    intro evaluator n
    rw [report_referencedSteps, Ascending.mem_ofList, List.mem_filterMap]
    refine exists_congr fun target => and_congr (mem_filterMap_scan tokenized) ?_
    rw [Reference.step?]
    cases target.source <;> simp
  value := by
    intro evaluator evaluator' scope scope' agree
    rw [Evaluator.evaluate_fst, Evaluator.evaluate_fst]
    refine evaluate_congr tokenized fun target member => ?_
    obtain ⟨raw, listed, reads⟩ := exists_scan_of_variable tokenized member
    exact agree raw listed target reads

def quoting : String := "'$step9' == \"it\\\"s $input\" OR $step2.total > $input.x\t+ $step2.total"

def quotingTokens : List Token :=
  let total : Reference := ⟨.step 2, ["total"]⟩
  [⟨.string "$step9", 0⟩, ⟨.operator .eq, 9⟩, ⟨.string "it\"s $input", 12⟩, ⟨.or, 27⟩,
    ⟨.variable total, 30⟩, ⟨.operator .gt, 43⟩, ⟨.variable ⟨.input, ["x"]⟩, 45⟩,
    ⟨.operator .add, 54⟩, ⟨.variable total, 56⟩, ⟨.eof, 68⟩]

theorem scansExactly_of_tokenize_quoting :
    tokenize quoting = .ok quotingTokens ∧ ScansExactly quoting quotingTokens := by
  have tokenized : tokenize quoting = .ok quotingTokens := by decide +kernel
  exact ⟨tokenized, scansExactly_of_tokenize tokenized⟩

end Expr

end Tollgate
