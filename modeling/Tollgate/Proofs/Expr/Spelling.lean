import Tollgate.Expr.Reference
import Tollgate.Proofs.Text.Digits

/-!
# Spellings of references

A reference has one text, and the number of a step may stand behind any count
of zeros.  The texts that are read as a reference are these spellings of it.
-/

namespace Tollgate

namespace Source

def IsProper : Source → Prop
  | .step n => n < Bound.word
  | _ => True

def spelling (zeros : Nat) : Source → String
  | .step n => "step" ++ String.ofList (List.replicate zeros '0') ++ toString n
  | source => source.text

theorem spelling_zero (source : Source) : source.spelling 0 = source.text := by
  cases source <;> rfl

theorem toList_spelling_step (zeros n : Nat) :
    ((Source.step n).spelling zeros).toList =
      's' :: 't' :: 'e' :: 'p' :: (List.replicate zeros '0' ++ Nat.toDigits 10 n) := by
  have digits : (toString n).toList = Nat.toDigits 10 n := by
    rw [Nat.toString_eq_ofList_toDigits, String.toList_ofList]
  have before : (String.ofList (List.replicate zeros '0')).toList = List.replicate zeros '0' :=
    String.toList_ofList
  rw [spelling, String.toList_append, String.toList_append, before, digits, List.append_assoc]
  rfl

theorem isIdentifierChar_spelling (source : Source) (zeros : Nat) :
    ∀ c ∈ (source.spelling zeros).toList, Text.isIdentifierChar c = true := by
  cases source with
  | input => exact List.all_eq_true.mp (by decide : "input".toList.all _ = true)
  | context => exact List.all_eq_true.mp (by decide : "context".toList.all _ = true)
  | assessment => exact List.all_eq_true.mp (by decide : "assessment".toList.all _ = true)
  | step n =>
      have digits : ∀ c ∈ List.replicate zeros '0' ++ Nat.toDigits 10 n, c.isDigit = true := by
        intro c member
        rcases List.mem_append.mp member with zero | digit
        · exact List.eq_of_mem_replicate zero ▸ rfl
        · exact Nat.isDigit_of_mem_toDigits (by decide) (by decide) digit
      rw [toList_spelling_step]
      simp only [List.forall_mem_cons]
      exact ⟨rfl, rfl, rfl, rfl, fun c member =>
        Text.isIdentifierChar_of_isDigit (digits c member)⟩

theorem stepNumber?_eq_some_iff {chars : List Char} {n : Nat} :
    stepNumber? chars = some n ↔
      n < Bound.word ∧ ∃ zeros, chars = List.replicate zeros '0' ++ Nat.toDigits 10 n := by
  rw [stepNumber?, Option.filter_eq_some_iff, Text.digits?_eq_some_iff, decide_eq_true_eq, and_comm]

theorem ofChars?_spelling {source : Source} (proper : source.IsProper) (zeros : Nat) :
    ofChars? (source.spelling zeros).toList = some source := by
  cases source with
  | input => exact (by decide : ofChars? "input".toList = some .input)
  | context => exact (by decide : ofChars? "context".toList = some .context)
  | assessment => exact (by decide : ofChars? "assessment".toList = some .assessment)
  | step n =>
      have number := stepNumber?_eq_some_iff.mpr ⟨(proper : n < Bound.word), zeros, rfl⟩
      have differs {name : String} (first : name.toList.head? ≠ some 's') :
          ((Source.step n).spelling zeros).toList ≠ name.toList := by
        rw [toList_spelling_step]
        exact fun same => first (congrArg List.head? same.symm)
      unfold ofChars?
      rw [if_neg (differs (by decide)), if_neg (differs (by decide)),
        if_neg (differs (by decide)), toList_spelling_step]
      exact congrArg (Option.map Source.step) number

theorem ofChars?_eq_some_iff {chars : List Char} {source : Source} :
    ofChars? chars = some source ↔
      source.IsProper ∧ ∃ zeros, chars = (source.spelling zeros).toList := by
  constructor
  · intro read
    unfold ofChars? at read
    split at read
    · next same =>
        cases read
        exact ⟨trivial, 0, same⟩
    split at read
    · next same =>
        cases read
        exact ⟨trivial, 0, same⟩
    split at read
    · next same =>
        cases read
        exact ⟨trivial, 0, same⟩
    split at read
    · obtain ⟨n, number, rfl⟩ := Option.map_eq_some_iff.mp read
      obtain ⟨small, zeros, rfl⟩ := stepNumber?_eq_some_iff.mp number
      exact ⟨small, zeros, (toList_spelling_step zeros n).symm⟩
    · cases read
  · rintro ⟨proper, zeros, rfl⟩
    exact ofChars?_spelling proper zeros

end Source

namespace Reference

theorem segments_ne_nil (chars : List Char) : segments chars ≠ [] := by
  fun_cases segments chars <;> simp [*]

theorem segments_cons {c : Char} (h : c ≠ '.') {rest part : List Char} {parts : List (List Char)}
    (cut : segments rest = part :: parts) : segments (c :: rest) = (c :: part) :: parts := by
  rw [segments]
  · rw [cut]
  · rintro rfl
    exact absurd rfl h

theorem segments_eq_splitOn (chars : List Char) : segments chars = chars.splitOn '.' := by
  induction chars with
  | nil => rfl
  | cons c rest ih =>
      rw [List.splitOn_cons_eq_if_modifyHead, ← ih]
      by_cases dot : c = '.'
      · subst dot
        rfl
      · rw [if_neg (by simpa using dot)]
        cases shape : segments rest with
        | nil => exact absurd shape (segments_ne_nil rest)
        | cons part parts => exact segments_cons dot shape

theorem toList_foldl_segments (path : List String) (text : String) :
    (path.foldl (fun text segment => text ++ "." ++ segment) text).toList =
      ['.'].intercalate (text.toList :: path.map String.toList) := by
  induction path generalizing text with
  | nil => exact List.intercalate_singleton.symm
  | cons segment path ih =>
      rw [List.foldl_cons, ih, List.map_cons, List.intercalate_cons_cons, String.toList_append,
        String.toList_append]
      cases path with
      | nil => simp [List.intercalate_singleton]
      | cons next path => simp [List.intercalate_cons_cons]

theorem isSegment_iff {segment : String} :
    isSegment segment.toList = true ↔
      segment ≠ "" ∧ ∀ c ∈ segment.toList, Text.isIdentifierChar c = true := by
  simp [isSegment]

theorem exists_segments {chars : List Char} {target : Reference}
    (h : ofChars? chars = some target) :
    ∃ body source path, chars = '$' :: body ∧ segments body = source :: path ∧
      (∀ part ∈ path, isSegment part = true) ∧ Source.ofChars? source = some target.source ∧
      target.path = path.map String.ofList := by
  unfold ofChars? at h
  split at h
  · next body =>
      split at h
      · next source path cut =>
          split at h
          · next proper =>
              obtain ⟨found, read, rfl⟩ := Option.map_eq_some_iff.mp h
              exact ⟨body, source, path, rfl, cut, List.all_eq_true.mp proper, read, rfl⟩
          · cases h
      · cases h
  · cases h

/-- A reference that can be written: the segments of its path can stand between dots. -/
structure IsProper (target : Reference) : Prop where
  source : target.source.IsProper
  path : ∀ segment ∈ target.path,
    segment ≠ "" ∧ ∀ c ∈ segment.toList, Text.isIdentifierChar c = true

/-- The text of a reference, with that many zeros before the number of a step. -/
def spelling (zeros : Nat) (target : Reference) : String :=
  target.path.foldl (fun text segment => text ++ "." ++ segment)
    ("$" ++ target.source.spelling zeros)

theorem spelling_zero (target : Reference) : target.spelling 0 = target.text := by
  rw [spelling, text, Source.spelling_zero]

theorem spelling_of_step? {target : Reference} (no_step : target.step? = none) (zeros : Nat) :
    target.spelling zeros = target.text := by
  have same : target.source.spelling zeros = target.source.text := by
    unfold step? at no_step
    cases shape : target.source with
    | step n =>
        rw [shape] at no_step
        cases no_step
    | _ => rfl
  rw [spelling, text, same]

def parts (zeros : Nat) (target : Reference) : List (List Char) :=
  (target.source.spelling zeros).toList :: target.path.map String.toList

theorem toList_spelling (zeros : Nat) (target : Reference) :
    (target.spelling zeros).toList = '$' :: ['.'].intercalate (target.parts zeros) := by
  rw [spelling, toList_foldl_segments, String.toList_append]
  exact List.intercalate_cons_cons_left

variable {chars : List Char} {raw : String} {target : Reference}

private theorem IsProper.segments_parts (proper : target.IsProper) (zeros : Nat) :
    segments (['.'].intercalate (target.parts zeros)) = target.parts zeros := by
  have undotted {part : List Char} (identifier : ∀ c ∈ part, Text.isIdentifierChar c = true) :
      '.' ∉ part := fun member => absurd (identifier '.' member) (by decide)
  rw [segments_eq_splitOn]
  refine List.splitOn_intercalate '.' (List.forall_mem_cons.mpr ⟨?_, ?_⟩) (List.cons_ne_nil _ _)
  · exact undotted (target.source.isIdentifierChar_spelling zeros)
  · intro part member
    obtain ⟨segment, inside, rfl⟩ := List.mem_map.mp member
    exact undotted (proper.path segment inside).2

private theorem ofChars?_spelling (proper : target.IsProper) (zeros : Nat) :
    ofChars? (target.spelling zeros).toList = some target := by
  have all : (target.path.map String.toList).all isSegment = true := by
    rw [List.all_map, List.all_eq_true]
    exact fun segment inside => isSegment_iff.mpr (proper.path segment inside)
  rw [toList_spelling, ofChars?, proper.segments_parts]
  simp [parts, all, Source.ofChars?_spelling proper.source zeros]

private theorem exists_spelling (read : ofChars? chars = some target) :
    target.IsProper ∧ ∃ zeros, chars = (target.spelling zeros).toList := by
  obtain ⟨body, source, path, rfl, cut, identifiers, known, texts⟩ := exists_segments read
  obtain ⟨proper, zeros, rfl⟩ := Source.ofChars?_eq_some_iff.mp known
  refine ⟨⟨proper, fun segment member => ?_⟩, zeros, ?_⟩
  · rw [texts] at member
    obtain ⟨part, inside, rfl⟩ := List.mem_map.mp member
    refine isSegment_iff.mp ?_
    rw [String.toList_ofList]
    exact identifiers part inside
  · have same : target.parts zeros = body.splitOn '.' := by
      rw [← segments_eq_splitOn, cut, parts, texts]
      simp
    rw [toList_spelling, same, List.intercalate_splitOn]

theorem parse?_eq_some_iff :
    parse? raw = some target ↔ target.IsProper ∧ ∃ zeros, raw = target.spelling zeros := by
  constructor
  · intro read
    obtain ⟨proper, zeros, same⟩ := exists_spelling read
    exact ⟨proper, zeros, String.toList_inj.mp same⟩
  · rintro ⟨proper, zeros, rfl⟩
    exact ofChars?_spelling proper zeros

example : parse? "$step0042.0" = some ⟨.step 42, ["0"]⟩ ∧ parse? "$step4294967296" = none := by
  decide +kernel

end Reference

end Tollgate
