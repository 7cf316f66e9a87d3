import Tollgate.Definition.Step
import Tollgate.Proofs.Expr.Template

/-!
# Where references occur

A reference occurs in a text where a dollar sign begins it, wherever that sign
stands.  In a condition the sign has to stand outside quotations; in the texts
of inputs quotes are ordinary characters.  The scans of both kinds of text find
exactly the references that occur.
-/

namespace Tollgate

open Reference (IsPlain)

namespace Reference

/-- The reference that a dollar sign before `rest` begins. -/
def begun? (rest : List Char) : Option Reference := ofChars? ('$' :: rest.take (extent rest))

def OccursIn (target : Reference) (chars : List Char) : Prop :=
  ∃ before rest, chars = before ++ '$' :: rest ∧ begun? rest = some target

/-- Where reading stands between quotations: a quotation ends with the quote that began it,
and a backslash hides the character after it. -/
inductive Quoting where
  | outside
  | inside (quote : Char)
  | escaped (quote : Char)

def Quoting.next : Quoting → Char → Quoting
  | .outside, c => if c = '"' ∨ c = '\'' then .inside c else .outside
  | .inside quote, c =>
      if c = quote then .outside else if c = '\\' then .escaped quote else .inside quote
  | .escaped quote, _ => .inside quote

def OccursFrom (quoting : Quoting) (target : Reference) (chars : List Char) : Prop :=
  ∃ before rest, chars = before ++ '$' :: rest ∧
    before.foldl Quoting.next quoting = .outside ∧ begun? rest = some target

def OccursUnquoted (target : Reference) (chars : List Char) : Prop :=
  OccursFrom .outside target chars

variable {target : Reference} {c : Char} {rest : List Char}

theorem eq_point_or_isIdentifierChar_of_extent :
    ∀ c ∈ rest.take (extent rest), c = '.' ∨ Text.isIdentifierChar c = true := by
  fun_induction extent rest with
  | case1 c rest identifier ih =>
      intro d member
      rw [List.take_succ_cons] at member
      rcases List.mem_cons.mp member with rfl | later
      · exact .inl rfl
      · exact ih d later
  | case2 => simp
  | case3 c rest _ identifier ih =>
      intro d member
      rw [List.take_succ_cons] at member
      rcases List.mem_cons.mp member with rfl | later
      · exact .inr identifier
      · exact ih d later
  | case4 => simp
  | case5 => simp

theorem isPlain_of_extent : ∀ c ∈ rest.take (extent rest), IsPlain c := by
  intro c member
  rcases eq_point_or_isIdentifierChar_of_extent c member with rfl | identifier
  · exact ⟨by decide, by decide, by decide⟩
  · exact isPlain_of_isIdentifierChar identifier

theorem extent_ne_zero (h : begun? rest = some target) : extent rest ≠ 0 := by
  intro none_left
  rw [begun?, none_left] at h
  cases h

theorem not_occursIn_nil : ¬ OccursIn target [] := by
  rintro ⟨before, rest, same, _⟩
  simp at same

theorem occursIn_cons :
    OccursIn target (c :: rest) ↔ c = '$' ∧ begun? rest = some target ∨ OccursIn target rest := by
  constructor
  · rintro ⟨before, after, same, begins⟩
    cases before with
    | nil =>
        cases same
        exact .inl ⟨rfl, begins⟩
    | cons first before =>
        cases same
        exact .inr ⟨before, after, rfl, begins⟩
  · rintro (⟨rfl, begins⟩ | ⟨before, after, rfl, begins⟩)
    · exact ⟨[], rest, rfl, begins⟩
    · exact ⟨c :: before, after, rfl, begins⟩

theorem occursIn_drop {size : Nat} (h : ∀ c ∈ rest.take size, IsPlain c) :
    OccursIn target (rest.drop size) ↔ OccursIn target rest := by
  induction rest generalizing size with
  | nil => simp
  | cons c rest ih =>
      cases size with
      | zero => rfl
      | succ size =>
          rw [List.take_succ_cons] at h
          have plain : c ≠ '$' := (h c List.mem_cons_self).2.2
          rw [List.drop_succ_cons, ih fun d hd => h d (List.mem_cons_of_mem c hd), occursIn_cons]
          simp [plain]

theorem not_occursFrom_nil {quoting : Quoting} : ¬ OccursFrom quoting target [] := by
  rintro ⟨before, rest, same, _⟩
  simp at same

theorem occursFrom_cons {quoting : Quoting} :
    OccursFrom quoting target (c :: rest) ↔
      quoting = .outside ∧ c = '$' ∧ begun? rest = some target ∨
        OccursFrom (quoting.next c) target rest := by
  constructor
  · rintro ⟨before, after, same, outside, begins⟩
    cases before with
    | nil =>
        cases same
        exact .inl ⟨outside, rfl, begins⟩
    | cons first before =>
        cases same
        exact .inr ⟨before, after, rfl, outside, begins⟩
  · rintro (⟨outside, rfl, begins⟩ | ⟨before, after, rfl, outside, begins⟩)
    · exact ⟨[], rest, rfl, outside, begins⟩
    · exact ⟨c :: before, after, rfl, outside, begins⟩

private theorem occursFrom_drop {size : Nat} (h : ∀ c ∈ rest.take size, IsPlain c) :
    OccursFrom .outside target (rest.drop size) ↔ OccursFrom .outside target rest := by
  induction rest generalizing size with
  | nil => simp
  | cons c rest ih =>
      cases size with
      | zero => rfl
      | succ size =>
          rw [List.take_succ_cons] at h
          obtain ⟨double, single, dollar⟩ := h c List.mem_cons_self
          rw [List.drop_succ_cons, ih fun d hd => h d (List.mem_cons_of_mem c hd), occursFrom_cons]
          simp [Quoting.next, double, single, dollar]

private theorem occursFrom_inside (quote : Char) :
    OccursFrom (.inside quote) target rest ↔
      OccursFrom .outside target (afterQuote quote rest) := by
  fun_induction afterQuote quote rest with
  | case1 => simp [not_occursFrom_nil]
  | case2 rest => simp [occursFrom_cons, Quoting.next]
  | case3 not_quote => simp [occursFrom_cons, Quoting.next, not_quote, not_occursFrom_nil]
  | case4 hidden rest not_quote ih =>
      rw [← ih, occursFrom_cons, occursFrom_cons]
      simp [Quoting.next, not_quote]
  | case5 c rest not_quote not_escape ih =>
      rw [← ih, occursFrom_cons]
      simp [Quoting.next, not_quote, not_escape]

private theorem mem_tokens {chars : List Char} :
    (∃ token ∈ tokens chars, ofChars? token = some target) ↔ OccursUnquoted target chars := by
  unfold OccursUnquoted
  fun_induction tokens chars with
  | case1 => simp [not_occursFrom_nil]
  | case2 c rest quote ih =>
      have not_dollar : c ≠ '$' := by
        rintro rfl
        simp at quote
      rw [ih, occursFrom_cons, ← occursFrom_inside]
      simp [Quoting.next, quote, not_dollar]
  | case3 rest size none_left _ ih =>
      have no_reference : begun? rest ≠ some target := fun begins => extent_ne_zero begins none_left
      rw [ih, occursFrom_cons]
      simp [Quoting.next, no_reference]
  | case4 rest size some_left _ ih =>
      simp only [List.mem_cons, exists_eq_or_imp]
      rw [ih, occursFrom_drop isPlain_of_extent, occursFrom_cons]
      simp [Quoting.next, begun?, size]
  | case5 c rest not_quote not_dollar ih =>
      rw [ih, occursFrom_cons]
      simp [Quoting.next, not_quote, not_dollar]

theorem mem_scan {text : String} :
    (∃ raw ∈ scan text, parse? raw = some target) ↔ target.OccursUnquoted text.toList := by
  rw [← mem_tokens]
  constructor
  · rintro ⟨raw, listed, reads⟩
    obtain ⟨token, member, rfl⟩ := List.mem_map.mp listed
    rw [parse?, String.toList_ofList] at reads
    exact ⟨token, List.mem_eraseDups.mp member, reads⟩
  · rintro ⟨token, member, reads⟩
    refine ⟨String.ofList token, List.mem_map_of_mem (List.mem_eraseDups.mpr member), ?_⟩
    rw [parse?, String.toList_ofList]
    exact reads

end Reference

theorem Template.mem_split {text : String} {target : Reference} :
    (∃ raw, .reference raw target ∈ split text) ↔ target.OccursIn text.toList := by
  have unflushed (literal : List Char) (raw : String) :
      .reference raw target ∉ flush literal := by
    unfold flush
    split <;> simp
  have every (literal chars : List Char) :
      (∃ raw, .reference raw target ∈ splitFrom literal chars) ↔ target.OccursIn chars := by
    fun_induction splitFrom literal chars with
    | case1 literal => simp [unflushed, Reference.not_occursIn_nil]
    | case2 literal rest size token found read ih =>
        rw [Reference.occursIn_cons, ← Reference.occursIn_drop Reference.isPlain_of_extent, ← ih]
        have begins : Reference.begun? rest = some found := read
        simp [unflushed, begins, exists_or, eq_comm, size]
    | case3 literal rest size token unread ih =>
        have begins : Reference.begun? rest = none := unread
        rw [ih, Reference.occursIn_drop Reference.isPlain_of_extent, Reference.occursIn_cons]
        simp [begins]
    | case4 literal c rest not_dollar ih =>
        rw [ih, Reference.occursIn_cons]
        simp [not_dollar]
  exact every [] text.toList

namespace Json

inductive HasText : Json → String → Prop
  | string (text : String) : HasText (.string text) text
  | item {items : List Json} {item : Json} {text : String} :
      item ∈ items → HasText item text → HasText (.array items) text
  | field {fields : List (String × Json)} {name : String} {value : Json} {text : String} :
      (name, value) ∈ fields → HasText value text → HasText (.object fields) text

variable {target : Reference}

private theorem hasText_string {content text : String} :
    HasText (.string content) text ↔ text = content := by
  constructor
  · rintro ⟨⟩
    rfl
  · rintro rfl
    exact .string text

private theorem hasText_array {items : List Json} {text : String} :
    HasText (.array items) text ↔ ∃ item ∈ items, HasText item text := by
  constructor
  · rintro (_ | ⟨member, inside⟩)
    exact ⟨_, member, inside⟩
  · rintro ⟨item, member, inside⟩
    exact .item member inside

private theorem hasText_object {fields : List (String × Json)} {text : String} :
    HasText (.object fields) text ↔ ∃ field ∈ fields, HasText field.2 text := by
  constructor
  · rintro (_ | _ | ⟨member, inside⟩)
    exact ⟨_, member, inside⟩
  · rintro ⟨⟨name, value⟩, member, inside⟩
    exact .field member inside

mutual

theorem mem_references (value : Json) :
    (∃ raw, (raw, target) ∈ references value) ↔
      ∃ text, value.HasText text ∧ target.OccursIn text.toList := by
  cases value with
  | null => exact iff_of_false (by rintro ⟨_, ⟨⟩⟩) (by rintro ⟨_, ⟨⟩, _⟩)
  | bool b => exact iff_of_false (by rintro ⟨_, ⟨⟩⟩) (by rintro ⟨_, ⟨⟩, _⟩)
  | number n => exact iff_of_false (by rintro ⟨_, ⟨⟩⟩) (by rintro ⟨_, ⟨⟩, _⟩)
  | string content =>
      have listed (raw : String) : (raw, target) ∈ references (.string content) ↔
          .reference raw target ∈ Template.split content := by
        rw [references, List.mem_filterMap]
        constructor
        · rintro ⟨_ | ⟨_, _⟩, member, same⟩
          · cases same
          · cases same
            exact member
        · intro member
          exact ⟨_, member, rfl⟩
      simp only [listed, Template.mem_split, hasText_string, exists_eq_left]
  | array items =>
      rw [references, mem_itemReferences items]
      simp only [hasText_array]
      exact ⟨fun ⟨item, member, text, inside, occurs⟩ => ⟨text, ⟨item, member, inside⟩, occurs⟩,
        fun ⟨text, ⟨item, member, inside⟩, occurs⟩ => ⟨item, member, text, inside, occurs⟩⟩
  | object fields =>
      rw [references, mem_fieldReferences fields]
      simp only [hasText_object]
      exact ⟨fun ⟨field, member, text, inside, occurs⟩ => ⟨text, ⟨field, member, inside⟩, occurs⟩,
        fun ⟨text, ⟨field, member, inside⟩, occurs⟩ => ⟨field, member, text, inside, occurs⟩⟩

theorem mem_itemReferences (items : List Json) :
    (∃ raw, (raw, target) ∈ itemReferences items) ↔
      ∃ item ∈ items, ∃ text, item.HasText text ∧ target.OccursIn text.toList := by
  cases items with
  | nil => simp [itemReferences]
  | cons item rest =>
      simp only [itemReferences, List.mem_append, exists_or, mem_references item,
        mem_itemReferences rest, List.mem_cons, exists_eq_or_imp]

private theorem mem_fieldReferences (fields : List (String × Json)) :
    (∃ raw, (raw, target) ∈ fieldReferences fields) ↔
      ∃ field ∈ fields, ∃ text, field.2.HasText text ∧ target.OccursIn text.toList := by
  rcases fields with _ | ⟨⟨name, value⟩, rest⟩
  · simp [fieldReferences]
  · simp only [fieldReferences, List.mem_append, exists_or, mem_references value,
      mem_fieldReferences rest, List.mem_cons, exists_eq_or_imp]

end

end Json

namespace Step

/-- The target occurs in a text of the inputs or outside the quotations of the condition. -/
def Mentions (step : Step) (target : Reference) : Prop :=
  (∃ field ∈ step.inputs, ∃ text, field.2.HasText text ∧ target.OccursIn text.toList) ∨
    ∃ condition, step.activeCondition = some condition ∧ target.OccursUnquoted condition.toList

private theorem mem_references {step : Step} {target : Reference} :
    (∃ raw ∈ step.references, Reference.parse? raw = some target) ↔ step.Mentions target := by
  unfold Mentions references
  rw [← Json.mem_fieldReferences]
  simp only [List.mem_eraseDups, List.mem_append, List.mem_map]
  constructor
  · rintro ⟨raw, ⟨⟨_, other⟩, member, rfl⟩ | scanned, reads⟩
    · rw [Json.parse?_of_mem_fieldReferences _ member, Option.some.injEq] at reads
      exact .inl ⟨_, reads ▸ member⟩
    · cases active : step.activeCondition with
      | none => simp [active] at scanned
      | some condition =>
          rw [active, Option.map_some, Option.getD_some] at scanned
          exact .inr ⟨condition, rfl, Reference.mem_scan.mp ⟨raw, scanned, reads⟩⟩
  · rintro (⟨raw, member⟩ | ⟨condition, active, occurs⟩)
    · exact ⟨raw, .inl ⟨_, member, rfl⟩, Json.parse?_of_mem_fieldReferences _ member⟩
    · obtain ⟨raw, scanned, reads⟩ := Reference.mem_scan.mpr occurs
      exact ⟨raw, .inr (by simpa [active] using scanned), reads⟩

theorem exists_mem_stepReferences {step : Step} {target : Reference} {number : Nat} :
    (∃ raw, (raw, target, number) ∈ step.stepReferences) ↔
      step.Mentions target ∧ target.source = .step number := by
  have source : target.step? = some number ↔ target.source = .step number := by
    unfold Reference.step?
    cases target.source <;> simp
  rw [← mem_references, ← source]
  simp only [stepReferences, List.mem_filterMap, Option.bind_eq_some_iff, Option.map_eq_some_iff]
  constructor
  · rintro ⟨raw, _, member, other, reads, _, names, same⟩
    cases same
    exact ⟨⟨raw, member, reads⟩, names⟩
  · rintro ⟨⟨raw, member, reads⟩, names⟩
    exact ⟨raw, raw, member, target, reads, number, names, rfl⟩

end Step

end Tollgate
