import Mathlib.Data.List.Forall2
import Mathlib.Data.List.TakeWhile
import Tollgate.Risk.Message

/-!
# How messages are rendered

Cutting a message from left to right comes to an end and has one result: runs
without an opening brace, placeholders that reach to the next closing brace, and
perhaps a last brace that is never closed.  Each piece is replaced once, so the
rendering does not depend on what the replacements look like.
-/

namespace Tollgate

namespace Message

inductive Cut : List Char → Piece → List Char → Prop
  | text {run rest : List Char} :
      run ≠ [] → '{' ∉ run → (∀ c ∈ rest.head?, c = '{') → Cut (run ++ rest) (.text run) rest
  | placeholder {body rest : List Char} :
      '}' ∉ body → Cut ('{' :: (body ++ '}' :: rest)) (.placeholder body) rest
  | unclosed {tail : List Char} : '}' ∉ tail → Cut ('{' :: tail) (.unclosed tail) []

/-- One cut after another, until nothing is left. -/
inductive Cuts : List Char → List Piece → Prop
  | nil : Cuts [] []
  | cons {chars rest : List Char} {piece : Piece} {pieces : List Piece} :
      Cut chars piece rest → Cuts rest pieces → Cuts chars (piece :: pieces)

def Leaves (rest chars : List Char) : Prop := ∃ piece, Cut chars piece rest

private theorem Cut.length_lt {chars rest : List Char} {piece : Piece}
    (cut : Cut chars piece rest) : rest.length < chars.length := by
  cases cut with
  | text nonempty _ _ =>
      have some_chars := List.length_pos_iff.mpr nonempty
      rw [List.length_append]
      omega
  | placeholder => simp only [List.length_cons, List.length_append]; omega
  | unclosed => simp

theorem wellFounded_leaves : WellFounded Leaves :=
  Subrelation.wf (fun ⟨_, cut⟩ => cut.length_lt) (measure List.length).wf

private theorem exists_cut {chars : List Char} (nonempty : chars ≠ []) :
    ∃ piece rest, Cut chars piece rest := by
  cases chars with
  | nil => exact absurd rfl nonempty
  | cons c rest =>
      by_cases opens : c = '{'
      · subst opens
        by_cases closes : '}' ∈ rest
        · obtain ⟨body, after, rfl, inside⟩ := List.eq_append_cons_of_mem closes
          exact ⟨_, _, .placeholder inside⟩
        · exact ⟨_, _, .unclosed closes⟩
      · let run := (c :: rest).takeWhile (· != '{')
        have starts : run ≠ [] := by simp [run, opens]
        have plain : '{' ∉ run := fun member => by simpa using List.mem_takeWhile_imp member
        have stops : ∀ d ∈ ((c :: rest).dropWhile (· != '{')).head?, d = '{' := by
          intro d first
          have stopped := List.head?_dropWhile_not (· != '{') (c :: rest)
          rw [first] at stopped
          simpa using stopped
        have cut := Cut.text starts plain stops
        rw [List.takeWhile_append_dropWhile] at cut
        exact ⟨_, _, cut⟩

theorem exists_cuts (chars : List Char) : ∃ pieces, Cuts chars pieces := by
  induction chars using wellFounded_leaves.induction with
  | _ chars ih =>
      by_cases empty : chars = []
      · exact ⟨[], empty ▸ .nil⟩
      · obtain ⟨piece, rest, cut⟩ := exists_cut empty
        obtain ⟨pieces, cuts⟩ := ih rest ⟨piece, cut⟩
        exact ⟨piece :: pieces, .cons cut cuts⟩

private theorem closing?_of_closed {body : List Char} (inside : '}' ∉ body) (rest : List Char) :
    closing? (body ++ '}' :: rest) = some (body, rest) := by
  induction body with
  | nil => rfl
  | cons c body ih =>
      rw [List.mem_cons, not_or] at inside
      obtain ⟨first, later⟩ := inside
      rw [List.cons_append, closing?, if_neg (Ne.symm first), ih later]
      rfl

private theorem closing?_of_unclosed {tail : List Char}
    (inside : '}' ∉ tail) : closing? tail = none := by
  induction tail with
  | nil => rfl
  | cons c tail ih =>
      rw [List.mem_cons, not_or] at inside
      obtain ⟨first, later⟩ := inside
      rw [closing?, if_neg (Ne.symm first), ih later]
      rfl

theorem pieces_placeholder {body : List Char} (inside : '}' ∉ body) (rest : List Char) :
    pieces ('{' :: (body ++ '}' :: rest)) = .placeholder body :: pieces rest := by
  rw [pieces, if_pos rfl]
  split
  · next found =>
      rw [closing?_of_closed inside] at found
      cases found
      rfl
  · next missing =>
      rw [closing?_of_closed inside] at missing
      cases missing

private theorem pieces_unclosed {tail : List Char} (inside : '}' ∉ tail) :
    pieces ('{' :: tail) = [.unclosed tail] := by
  rw [pieces, if_pos rfl]
  split
  · next found =>
      rw [closing?_of_unclosed inside] at found
      cases found
  · rfl

private theorem head?_pieces {rest : List Char}
    (stops : ∀ c ∈ rest.head?, c = '{') (run : List Char) :
    (pieces rest).head? ≠ some (.text run) := by
  cases rest with
  | nil => simp [pieces]
  | cons c rest =>
      rw [pieces, if_pos (stops c rfl)]
      split <;> simp

private theorem pieces_text {run rest : List Char} (nonempty : run ≠ []) (plain : '{' ∉ run)
    (stops : ∀ c ∈ rest.head?, c = '{') : pieces (run ++ rest) = .text run :: pieces rest := by
  induction run with
  | nil => exact absurd rfl nonempty
  | cons c run ih =>
      rw [List.mem_cons, not_or] at plain
      obtain ⟨first, later⟩ := plain
      rw [List.cons_append, pieces, if_neg (Ne.symm first)]
      cases run with
      | nil =>
          rw [List.nil_append]
          split
          · next chars others begins =>
              exact absurd (begins ▸ rfl) (head?_pieces stops chars)
          · rfl
      | cons d run => rw [ih (List.cons_ne_nil d run) later]

theorem Cuts.pieces_eq {chars : List Char} {pieces : List Piece} (cuts : Cuts chars pieces) :
    Message.pieces chars = pieces := by
  induction cuts with
  | nil => rw [Message.pieces]
  | cons cut _ ih =>
      cases cut with
      | text nonempty plain stops => rw [pieces_text nonempty plain stops, ih]
      | placeholder inside => rw [pieces_placeholder inside, ih]
      | unclosed inside => rw [pieces_unclosed inside, ← ih, Message.pieces]

theorem pieces_eq_iff {chars : List Char} {pieces : List Piece} :
    Message.pieces chars = pieces ↔ Cuts chars pieces := by
  refine ⟨?_, Cuts.pieces_eq⟩
  rintro rfl
  obtain ⟨pieces, cuts⟩ := exists_cuts chars
  rwa [cuts.pieces_eq]

def Piece.raw : Piece → List Char
  | .text chars => chars
  | .placeholder body => '{' :: (body ++ ['}'])
  | .unclosed chars => '{' :: chars

theorem Cuts.lossless {chars : List Char} {pieces : List Piece} (cuts : Cuts chars pieces) :
    pieces.flatMap Piece.raw = chars := by
  induction cuts with
  | nil => rfl
  | cons cut _ ih =>
      rw [List.flatMap_cons, ih]
      cases cut <;> simp [Piece.raw]

def key (body : List Char) : String := Text.trim (String.ofList body)

/-- What becomes of a piece: known placeholders are replaced, all else is copied. -/
inductive Becomes (rule : Rule) (phase : Phase) (scope : Scope) : Piece → String → Prop
  | text (chars : List Char) : Becomes rule phase scope (.text chars) (String.ofList chars)
  | unclosed (chars : List Char) :
      Becomes rule phase scope (.unclosed chars) (String.ofList ('{' :: chars))
  | ruleId {body : List Char} :
      key body = "rule_id" → Becomes rule phase scope (.placeholder body) rule.id
  | stepNumber {body : List Char} {number : Nat} :
      key body = "step" → phase = .step number →
      Becomes rule phase scope (.placeholder body) (toString number)
  | phaseName {body : List Char} :
      key body = "step" → (∀ number, phase ≠ .step number) →
      Becomes rule phase scope (.placeholder body) phase.text
  | value {body : List Char} {target : Reference} {value : Json} :
      Reference.parse? (key body) = some target → scope target = some value → value ≠ .null →
      Becomes rule phase scope (.placeholder body) value.display
  | absent {body : List Char} {target : Reference} :
      Reference.parse? (key body) = some target →
      (scope target = none ∨ scope target = some .null) →
      Becomes rule phase scope (.placeholder body) "null"
  | unknown {body : List Char} :
      key body ≠ "rule_id" → key body ≠ "step" → Reference.parse? (key body) = none →
      Becomes rule phase scope (.placeholder body) (String.ofList ('{' :: (body ++ ['}'])))

section Becomes

variable {rule : Rule} {phase : Phase} {scope : Scope}

theorem render_placeholder (body : List Char) :
    (Piece.placeholder body).render rule phase scope =
      (replacement? rule phase scope (key body)).getD (String.ofList ('{' :: (body ++ ['}']))) := by
  rw [key, Text.trim, String.toList_ofList]
  rfl

theorem becomes_render (piece : Piece) :
    Becomes rule phase scope piece (piece.render rule phase scope) := by
  cases piece with
  | text chars => exact .text chars
  | unclosed chars => exact .unclosed chars
  | placeholder body =>
      rw [render_placeholder, replacement?]
      by_cases id : key body = "rule_id"
      · rw [if_pos id]
        exact .ruleId id
      rw [if_neg id]
      by_cases step : key body = "step"
      · rw [if_pos step]
        cases phase with
        | step number => exact .stepNumber step rfl
        | global => exact .phaseName step nofun
        | final => exact .phaseName step nofun
      rw [if_neg step]
      cases names : Reference.parse? (key body) with
      | none => exact .unknown id step names
      | some target =>
          rw [Option.map_some, Option.getD_some]
          unfold valueText
          split
          · next missing => exact .absent names (.inl missing)
          · next null => exact .absent names (.inr null)
          · next value nonnull found =>
              exact .value names found nonnull

private theorem replacement?_of_reference {body : List Char} {target : Reference}
    (names : Reference.parse? (key body) = some target) :
    replacement? rule phase scope (key body) = some (valueText (scope target)) := by
  have ne_of_unread {word : String} (unread : Reference.parse? word = none) : key body ≠ word := by
    rintro same
    rw [same, unread] at names
    cases names
  rw [replacement?, if_neg (ne_of_unread (by decide)), if_neg (ne_of_unread (by decide)), names]
  rfl

theorem Becomes.render_eq {piece : Piece} {text : String}
    (h : Becomes rule phase scope piece text) : piece.render rule phase scope = text := by
  cases h with
  | text | unclosed => rfl
  | ruleId id =>
      rw [render_placeholder, replacement?, if_pos id]
      rfl
  | stepNumber step same =>
      subst same
      rw [render_placeholder, replacement?, if_neg (by simp [step]), if_pos step]
      rfl
  | phaseName step other =>
      rw [render_placeholder, replacement?, if_neg (by simp [step]), if_pos step]
      cases phase with
      | step number => exact absurd rfl (other number)
      | global | final => rfl
  | @value body target value names found nonnull =>
      rw [render_placeholder, replacement?_of_reference names, found]
      cases value with
      | null => exact absurd rfl nonnull
      | _ => rfl
  | absent names missing =>
      rw [render_placeholder, replacement?_of_reference names]
      rcases missing with missing | null
      · rw [missing]
        rfl
      · rw [null]
        rfl
  | unknown id step unread =>
      rw [render_placeholder, replacement?, if_neg id, if_neg step, unread]
      rfl

end Becomes

/-- The references that the placeholders of a message name. -/
def Names (message : String) (target : Reference) : Prop :=
  ∃ body, .placeholder body ∈ pieces message.toList ∧ Reference.parse? (key body) = some target

/-- How a message is cut, and what its rendering is made of. -/
structure RendersExactly (rule : Rule) : Prop where
  ends : Acc Leaves rule.message.toList
  cut : ∃ pieces, Cuts rule.message.toList pieces ∧
    (∀ others, Cuts rule.message.toList others → others = pieces) ∧
    String.ofList (pieces.flatMap Piece.raw) = rule.message ∧
    ∀ phase scope, ∃ texts, List.Forall₂ (Becomes rule phase scope) pieces texts ∧
      rule.render phase scope = String.join texts
  definite : ∀ phase scope piece text other, Becomes rule phase scope piece text →
    Becomes rule phase scope piece other → text = other
  once : ∀ phase scope other, (∀ target, Names rule.message target → scope target = other target) →
    rule.render phase scope = rule.render phase other

private theorem Piece.render_congr {rule : Rule} {phase : Phase} {scope other : Scope}
    {piece : Piece}
    (agree : ∀ body target, piece = .placeholder body → Reference.parse? (key body) = some target →
      scope target = other target) :
    piece.render rule phase scope = piece.render rule phase other := by
  cases piece with
  | text | unclosed => rfl
  | placeholder body =>
      rw [render_placeholder, render_placeholder, replacement?, replacement?]
      cases names : Reference.parse? (key body) with
      | none => rfl
      | some target => rw [Option.map_some, Option.map_some, agree body target rfl names]

end Message

/-- Rendering a message that is not blank replaces each of its placeholders once and copies
the rest, and it ends on every message. -/
theorem Rule.renders_exactly (rule : Rule) (worded : Text.isBlank rule.message = false) :
    Message.RendersExactly rule := by
  have cuts := Message.pieces_eq_iff.mp (rfl : Message.pieces rule.message.toList = _)
  have rendered (phase : Phase) (scope : Scope) : rule.render phase scope = String.join
      ((Message.pieces rule.message.toList).map (Message.Piece.render rule phase scope)) := by
    rw [Rule.render, worded, if_neg Bool.false_ne_true]
  constructor
  case ends => exact Message.wellFounded_leaves.apply _
  case cut =>
    refine ⟨_, cuts, fun others found => found.pieces_eq.symm, ?_, fun phase scope => ?_⟩
    · rw [cuts.lossless, String.ofList_toList]
    · refine ⟨_, ?_, rendered phase scope⟩
      rw [List.forall₂_map_right_iff, List.forall₂_same]
      exact fun piece _ => Message.becomes_render piece
  case definite =>
    intro phase scope piece text other first second
    rw [← first.render_eq, second.render_eq]
  case once =>
    intro phase scope other agree
    rw [rendered, rendered]
    congr 1
    refine List.map_congr_left fun piece member => Message.Piece.render_congr ?_
    rintro body target rfl names
    exact agree target ⟨body, member, names⟩

def Rule.verbose : Rule :=
  { Rule.step "cap" 2 "" 0.1 .warn with
    message := "\x7b rule_id \x7d, step \x7bstep\x7d: \x7b$input.note\x7d\x7b$input.gone\x7d ü\x7b\x7d\x7b\x7bcap\x7d\x7b$step2" }

def Rule.braces : Scope := fun target =>
  if target = ⟨.input, ["note"]⟩ then some (.string "\x7bstep\x7d\x7b") else none

theorem Rule.renders_exactly_verbose :
    Text.isBlank Rule.verbose.message = false ∧ Message.RendersExactly Rule.verbose ∧
      Rule.verbose.render (.step 2) Rule.braces =
        "cap, step 2: \x7bstep\x7d\x7bnull ü\x7b\x7d\x7b\x7bcap\x7d\x7b$step2" := by
  have worded : Text.isBlank Rule.verbose.message = false := by decide +kernel
  exact ⟨worded, Rule.renders_exactly Rule.verbose worded, by decide +kernel⟩

end Tollgate
