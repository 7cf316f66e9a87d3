import Mathlib
import Tollgate.Proofs.Expr.Scan
import Tollgate.Proofs.Expr.Spelling
import Tollgate.Run.Context

/-!
# References of templates

Whatever filling in a text asks its scope for is among the references that
splitting the text lists, also where the trimmed text is one reference and
takes its value.
-/

namespace Tollgate

namespace Text

theorem exists_trimChars (chars : List Char) :
    ∃ before after, chars = before ++ (trimChars chars ++ after) ∧
      (∀ c ∈ before, isSpace c = true) ∧ ∀ c ∈ after, isSpace c = true := by
  refine ⟨chars.takeWhile isSpace, ((chars.dropWhile isSpace).reverse.takeWhile isSpace).reverse,
    ?_, fun c member => List.mem_takeWhile_imp member, fun c member => ?_⟩
  · unfold trimChars
    rw [← List.reverse_append, List.takeWhile_append_dropWhile, List.reverse_reverse,
      List.takeWhile_append_dropWhile]
  · exact List.mem_takeWhile_imp (List.mem_reverse.mp member)

private theorem trimChars_trimChars (chars : List Char) :
    trimChars (trimChars chars) = trimChars chars := by
  have left : (trimChars chars).dropWhile isSpace = trimChars chars := by
    rw [List.dropWhile_eq_self_iff]
    intro some_left
    have cut : trimChars chars <+: chars.dropWhile isSpace := List.rdropWhile_prefix _ _
    obtain ⟨after, same⟩ := cut
    have first := List.dropWhile_get_zero_not isSpace chars (by
      rw [← same, List.length_append]
      omega)
    simp only [← same, List.get_eq_getElem] at first
    rwa [List.getElem_append_left some_left] at first
  change List.rdropWhile isSpace ((trimChars chars).dropWhile isSpace) = _
  rw [left]
  exact List.rdropWhile_idempotent _ _

theorem trim_trim (text : String) : trim (trim text) = trim text := by
  unfold trim
  rw [String.toList_ofList, trimChars_trimChars]

end Text

namespace Reference

theorem range_of_isIdentifierChar {c : Char} (h : Text.isIdentifierChar c = true) :
    48 ≤ c.toNat ∧ c.toNat ≤ 122 := by
  have code : c.val.toNat = c.toNat := rfl
  simp only [Text.isIdentifierChar, Char.isAlphanum, Char.isAlpha, Char.isUpper, Char.isLower,
    Char.isDigit, Bool.or_eq_true, Bool.and_eq_true, decide_eq_true_eq, beq_iff_eq, ge_iff_le,
    UInt32.le_iff_toNat_le, code] at h
  rcases h with ((⟨low, high⟩ | ⟨low, high⟩) | ⟨low, high⟩) | rfl
  · exact ⟨Nat.le_trans (by decide) low, Nat.le_trans high (by decide)⟩
  · exact ⟨Nat.le_trans (by decide) low, Nat.le_trans high (by decide)⟩
  · exact ⟨Nat.le_trans (by decide) low, Nat.le_trans high (by decide)⟩
  · decide

theorem isIdentifierChar_of_isSpace {c : Char} (h : Text.isSpace c = true) :
    Text.isIdentifierChar c = false := by
  rw [← Bool.not_eq_true]
  intro identifier
  have range := range_of_isIdentifierChar identifier
  simp only [Text.isSpace, Bool.or_eq_true, Bool.and_eq_true, decide_eq_true_eq, beq_iff_eq] at h
  omega

theorem extent_cons {c : Char} (h : c ≠ '.') (rest : List Char) :
    extent (c :: rest) = if Text.isIdentifierChar c then extent rest + 1 else 0 := by
  rw [extent]
  rintro _ _ rfl
  exact absurd rfl h

theorem extent_of_isSpace {rest : List Char} (h : ∀ c ∈ rest, Text.isSpace c = true) :
    extent rest = 0 := by
  cases rest with
  | nil => rfl
  | cons c rest =>
      have space := h c List.mem_cons_self
      have no_dot : c ≠ '.' := by
        rintro rfl
        exact absurd space (by decide)
      rw [extent_cons no_dot, isIdentifierChar_of_isSpace space]
      rfl

private theorem mem_of_segments {c : Char} {rest part : List Char} {parts : List (List Char)}
    (cut : segments (c :: rest) = part :: parts) (some_chars : part ≠ []) : c ∈ part := by
  by_cases dot : c = '.'
  · subst dot
    rw [segments] at cut
    cases cut
    exact absurd rfl some_chars
  · cases shape : segments rest with
    | nil => exact absurd shape (segments_ne_nil rest)
    | cons next others =>
        rw [segments_cons dot shape] at cut
        cases cut
        exact List.mem_cons_self

private theorem extent_append {body rest part : List Char} {parts : List (List Char)}
    (cut : segments body = part :: parts)
    (first : ∀ c ∈ part, Text.isIdentifierChar c = true)
    (later : ∀ segment ∈ parts, isSegment segment = true) (stops : extent rest = 0) :
    extent (body ++ rest) = body.length := by
  induction body generalizing part parts with
  | nil => exact stops
  | cons c body ih =>
      cases shape : segments body with
      | nil => exact absurd shape (segments_ne_nil body)
      | cons next others =>
          by_cases dot : c = '.'
          · subst dot
            rw [segments, shape] at cut
            cases cut
            have segment := later next List.mem_cons_self
            simp only [isSegment, Bool.and_eq_true, Bool.not_eq_true', List.isEmpty_eq_false_iff,
              List.all_eq_true] at segment
            obtain ⟨some_chars, identifier⟩ := segment
            have reach := ih shape identifier fun s hs => later s (List.mem_cons_of_mem next hs)
            cases body with
            | nil =>
                cases shape
                exact absurd rfl some_chars
            | cons d body =>
                have begins := identifier d (mem_of_segments shape some_chars)
                rw [List.cons_append] at reach
                rw [List.cons_append, List.cons_append, extent, if_pos begins, reach]
                rfl
          · rw [segments_cons dot shape] at cut
            cases cut
            have reach := ih shape (fun d hd => first d (List.mem_cons_of_mem c hd)) later
            rw [List.cons_append, extent_cons dot, first c List.mem_cons_self, reach]
            rfl

theorem extent_of_ofChars? {body rest : List Char} {target : Reference}
    (h : ofChars? ('$' :: body) = some target) (stops : extent rest = 0) :
    extent (body ++ rest) = body.length := by
  obtain ⟨_, source, path, same, cut, proper, read, -⟩ := exists_segments h
  cases same
  obtain ⟨-, zeros, rfl⟩ := Source.ofChars?_eq_some_iff.mp read
  exact extent_append cut (target.source.isIdentifierChar_spelling zeros) proper stops

end Reference

namespace Template

private theorem splitFrom_append {before : List Char} (h : ∀ c ∈ before, c ≠ '$')
    (literal rest : List Char) :
    splitFrom literal (before ++ rest) = splitFrom (before.reverse ++ literal) rest := by
  induction before generalizing literal with
  | nil => rfl
  | cons c before ih =>
      rw [List.cons_append, splitFrom, if_neg (h c List.mem_cons_self),
        ih fun d hd => h d (List.mem_cons_of_mem c hd)]
      simp

theorem parse?_of_mem_split {text raw : String} {target : Reference}
    (h : .reference raw target ∈ split text) : Reference.parse? raw = some target := by
  have every (literal chars : List Char)
      (member : .reference raw target ∈ splitFrom literal chars) :
      Reference.parse? raw = some target := by
    have unflushed (literal : List Char) : .reference raw target ∉ flush literal := by
      unfold flush
      split <;> simp
    fun_induction splitFrom literal chars with
    | case1 literal => exact absurd member (unflushed literal)
    | case2 literal rest size token found read ih =>
        rcases List.mem_append.mp member with flushed | later
        · exact absurd flushed (unflushed literal)
        · rcases List.mem_cons.mp later with same | later
          · injection same with texts targets
            rw [texts, targets, Reference.parse?, String.toList_ofList]
            exact read
          · exact ih later
    | case3 literal rest size token unread ih => exact ih member
    | case4 literal c rest _ ih => exact ih member
  exact every [] text.toList h

theorem exists_mem_split {text : String} {target : Reference}
    (h : Reference.parse? (Text.trim text) = some target) :
    ∃ raw, .reference raw target ∈ split text := by
  obtain ⟨before, after, same, spaces_before, spaces_after⟩ := Text.exists_trimChars text.toList
  unfold Reference.parse? Text.trim at h
  rw [String.toList_ofList] at h
  obtain ⟨body, _, _, trimmed, -⟩ := Reference.exists_segments h
  rw [trimmed] at h same
  have plain : ∀ c ∈ before, c ≠ '$' :=
    fun c member => (Reference.isPlain_of_isSpace (spaces_before c member)).2.2
  have size := Reference.extent_of_ofChars? h (Reference.extent_of_isSpace spaces_after)
  refine ⟨String.ofList ('$' :: body), ?_⟩
  rw [split, same, splitFrom_append plain, List.cons_append, splitFrom]
  simp [size, h]

theorem fill_congr {scope other : Scope} {text : String}
    (h : ∀ raw target, .reference raw target ∈ split text → scope target = other target) :
    fill scope text = fill other text := by
  unfold fill
  cases whole : Reference.parse? (Text.trim text) with
  | some target =>
      obtain ⟨raw, member⟩ := exists_mem_split whole
      simp [h raw target member]
  | none =>
      have same :
          (split text).map (Segment.fill scope) = (split text).map (Segment.fill other) := by
        refine List.map_congr_left fun segment member => ?_
        cases segment with
        | text content => rfl
        | reference raw target => simp [Segment.fill, h raw target member]
      simp [same]

end Template

namespace Json

mutual

theorem fill_congr {scope other : Scope} (value : Json)
    (h : ∀ raw target, (raw, target) ∈ references value → scope target = other target) :
    fill scope value = fill other value := by
  cases value with
  | null => rfl
  | bool b => rfl
  | number n => rfl
  | string text =>
      rw [fill, fill]
      refine Template.fill_congr fun raw target member => h raw target ?_
      exact List.mem_filterMap.mpr ⟨_, member, rfl⟩
  | array items => exact congrArg Json.array (fillItems_congr items h)
  | object fields => exact congrArg Json.object (fillFields_congr fields h)

theorem fillItems_congr {scope other : Scope} (items : List Json)
    (h : ∀ raw target, (raw, target) ∈ itemReferences items → scope target = other target) :
    fillItems scope items = fillItems other items := by
  cases items with
  | nil => rfl
  | cons item rest =>
      simp only [itemReferences, List.mem_append] at h
      simp only [fillItems, fill_congr item fun raw target member => h raw target (.inl member),
        fillItems_congr rest fun raw target member => h raw target (.inr member)]

theorem fillFields_congr {scope other : Scope} (fields : List (String × Json))
    (h : ∀ raw target, (raw, target) ∈ fieldReferences fields → scope target = other target) :
    fillFields scope fields = fillFields other fields := by
  rcases fields with _ | ⟨⟨key, value⟩, rest⟩
  · rfl
  · simp only [fieldReferences, List.mem_append] at h
    simp only [fillFields, fill_congr value fun raw target member => h raw target (.inl member),
      fillFields_congr rest fun raw target member => h raw target (.inr member)]

end

mutual

theorem parse?_of_mem_references {raw : String} {target : Reference} (value : Json)
    (h : (raw, target) ∈ references value) : Reference.parse? raw = some target := by
  cases value with
  | null => cases h
  | bool b => cases h
  | number n => cases h
  | string text =>
      obtain ⟨segment, member, same⟩ := List.mem_filterMap.mp h
      cases segment with
      | text content => cases same
      | reference other found =>
          injection same with same
          cases same
          exact Template.parse?_of_mem_split member
  | array items => exact parse?_of_mem_itemReferences items h
  | object fields => exact parse?_of_mem_fieldReferences fields h

theorem parse?_of_mem_itemReferences {raw : String} {target : Reference} (items : List Json)
    (h : (raw, target) ∈ itemReferences items) : Reference.parse? raw = some target := by
  cases items with
  | nil => cases h
  | cons item rest =>
      rcases List.mem_append.mp h with here | later
      · exact parse?_of_mem_references item here
      · exact parse?_of_mem_itemReferences rest later

theorem parse?_of_mem_fieldReferences {raw : String} {target : Reference}
    (fields : List (String × Json)) (h : (raw, target) ∈ fieldReferences fields) :
    Reference.parse? raw = some target := by
  rcases fields with _ | ⟨⟨key, value⟩, rest⟩
  · cases h
  · rcases List.mem_append.mp h with here | later
    · exact parse?_of_mem_references value here
    · exact parse?_of_mem_fieldReferences rest later

end

end Json

end Tollgate
