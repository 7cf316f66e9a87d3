import Tollgate.Proofs.Definition.Accepted
import Tollgate.Proofs.Expr.Trimming
import Tollgate.Run.Level

/-!
# Conditions of accepted definitions

The store parses every condition that is not blank, and runs parse it again
once it is trimmed.  Both readings agree, so what goes wrong when a condition of
an accepted definition is evaluated comes from the values it meets.
-/

namespace Tollgate

namespace Text

theorem trim_eq_empty_iff {text : String} : trim text = "" ↔ isBlank text = true := by
  unfold trim isBlank
  rw [List.all_eq_true, ← String.toList_inj, String.toList_ofList]
  constructor
  · intro nothing
    obtain ⟨before, after, cut, blank_before, blank_after⟩ := exists_trimChars text.toList
    rw [show trimChars text.toList = [] from nothing, List.nil_append] at cut
    rw [cut]
    intro c member
    exact (List.mem_append.mp member).elim (blank_before c) (blank_after c)
  · intro blank
    have dropped : text.toList.dropWhile isSpace = [] := List.dropWhile_eq_nil_iff.mpr blank
    unfold trimChars
    rw [dropped]
    rfl

theorem isBlank_trim (text : String) : isBlank (trim text) = isBlank text := by
  rw [Bool.eq_iff_iff, ← trim_eq_empty_iff, ← trim_eq_empty_iff, trim_trim]

end Text

namespace Expr

/-- The errors that values raise, as opposed to those of texts that cannot be read. -/
inductive EvalError.OfValues : EvalError → Prop where
  | typeMismatch (op left right : String) : OfValues (.typeMismatch op left right)
  | invalidNegation (kind : String) : OfValues (.invalidNegation kind)
  | divisionByZero : OfValues .divisionByZero
  | nonFinite : OfValues .nonFinite

/-- An outcome that is a value, or an error that values raised. -/
def IsConclusive {α : Type} (outcome : Except EvalError α) : Prop :=
  ∀ error, outcome = .error error → error.OfValues

theorem isConclusive_ok {α : Type} (value : α) :
    IsConclusive (.ok value : Except EvalError α) := by
  intro error failed
  cases failed

theorem isConclusive_error {α : Type} {error : EvalError} (h : error.OfValues) :
    IsConclusive (.error error : Except EvalError α) := by
  intro other failed
  injection failed with same
  exact same ▸ h

theorem IsConclusive.map {α β : Type} {f : α → β} {outcome : Except EvalError α}
    (h : IsConclusive outcome) : IsConclusive (outcome.map f) := by
  cases outcome with
  | ok value => exact isConclusive_ok (f value)
  | error error => exact isConclusive_error (h error rfl)

theorem isConclusive_computed (x : Float) : IsConclusive (computed x) := by
  unfold computed
  split
  · exact isConclusive_error .nonFinite
  · split
    · exact isConclusive_ok _
    · exact isConclusive_error .nonFinite

private theorem isConclusive_arithmetic (op : Operator) (l r : Json)
    {f : Float → Float → Except EvalError Float} (h : ∀ a b, IsConclusive (f a b)) :
    IsConclusive (arithmetic op l r f) := by
  unfold arithmetic
  split
  · next a b _ _ =>
      split
      · exact isConclusive_computed _
      · next error failed => exact isConclusive_error (h a b error failed)
  · exact isConclusive_error (.typeMismatch _ _ _)

private theorem isConclusive_divide (a b : Float) : IsConclusive (divide a b) := by
  unfold divide
  split
  · exact isConclusive_error .divisionByZero
  · exact isConclusive_ok _

private theorem isConclusive_binary (op : Operator) (l r : Json) :
    IsConclusive (binary op l r) := by
  cases op with
  | eq | ne | gt | lt | ge | le => exact isConclusive_ok _
  | add =>
      unfold binary
      dsimp only
      split
      · exact isConclusive_ok _
      · exact isConclusive_arithmetic _ l r fun _ _ => isConclusive_ok _
  | sub | mul => exact isConclusive_arithmetic _ l r fun _ _ => isConclusive_ok _
  | div => exact isConclusive_arithmetic _ l r isConclusive_divide

private theorem isConclusive_negate (value : Json) : IsConclusive (negate value) := by
  unfold negate
  split
  · exact isConclusive_computed _
  · exact isConclusive_error (.invalidNegation _)

theorem isConclusive_eval (scope : Scope) (tree : Tree) : IsConclusive (tree.eval scope) := by
  induction tree with
  | literal | «variable» => exact isConclusive_ok _
  | not operand ih =>
      unfold Tree.eval
      split
      · exact isConclusive_ok _
      · next error failed => exact isConclusive_error (ih error failed)
  | negate operand ih =>
      unfold Tree.eval
      split
      · exact isConclusive_negate _
      · next error failed => exact isConclusive_error (ih error failed)
  | and left right ihl ihr | or left right ihl ihr =>
      unfold Tree.eval
      split
      · split
        all_goals try exact isConclusive_ok _
        split
        · exact isConclusive_ok _
        · next error failed => exact isConclusive_error (ihr error failed)
      · next error failed => exact isConclusive_error (ihl error failed)
  | binary op left right ihl ihr =>
      unfold Tree.eval
      split
      · split
        · exact isConclusive_binary _ _ _
        · next error failed => exact isConclusive_error (ihr error failed)
      · next error failed => exact isConclusive_error (ihl error failed)
  | conditional condition yes no ihc ihy ihn =>
      unfold Tree.eval
      split
      · split
        · exact ihy
        · exact ihn
      · next error failed => exact isConclusive_error (ihc error failed)

def IsReadable (text : String) : Prop :=
  Text.isBlank text = true ∨ ∃ tree, parse text = .ok tree

private theorem IsReadable.of_trim {text : String} (h : IsReadable (Text.trim text)) :
    IsReadable text := by
  unfold IsReadable at h ⊢
  simpa only [Text.isBlank_trim, parse_trim_eq_ok_iff] using h

theorem IsReadable.isConclusive_evaluate {text : String} (h : IsReadable text) (scope : Scope) :
    IsConclusive (evaluate scope text) := by
  unfold evaluate
  split
  · exact isConclusive_ok _
  · next visible =>
      obtain ⟨tree, parsed⟩ := h.resolve_left visible
      rw [(parse_trim_eq_ok_iff text tree).mpr parsed]
      exact isConclusive_eval scope tree

theorem IsReadable.isConclusive_holds {text : String} (h : IsReadable text) (scope : Scope) :
    IsConclusive (holds scope text) :=
  (h.isConclusive_evaluate scope).map

private theorem holds_trim (scope : Scope) (text : String) :
    holds scope (Text.trim text) = holds scope text := by
  unfold holds evaluate
  rw [Text.isBlank_trim, Text.trim_trim]

end Expr

open Tollgate.Expr

private theorem Step.activeCondition_eq_none_iff {step : Step} :
    step.activeCondition = none ↔
      ∀ condition, step.condition = some condition → Text.isBlank condition = true := by
  unfold activeCondition
  simp [Option.filter_eq_none_iff, Text.trim_eq_empty_iff]

theorem Step.trim_of_activeCondition {step : Step} {active : String}
    (h : step.activeCondition = some active) :
    ∃ condition, step.condition = some condition ∧ Text.trim condition = active := by
  unfold activeCondition at h
  exact Option.map_eq_some_iff.mp (Option.filter_eq_some_iff.mp h).1

theorem Structure.IsSound.isReadable {steps : List Step} (sound : IsSound steps) {step : Step}
    (member : step ∈ steps) {condition : String} (given : step.condition = some condition) :
    IsReadable condition := by
  refine IsReadable.of_trim ?_
  cases active : step.activeCondition with
  | none =>
      left
      rw [Text.isBlank_trim]
      exact Step.activeCondition_eq_none_iff.mp active condition given
  | some trimmed =>
      obtain ⟨original, known, rfl⟩ := Step.trim_of_activeCondition active
      obtain rfl : condition = original := by simpa [given] using known
      exact .inr (sound.conditions step member _ active)

theorem Step.prepare_eq_skip {step : Step} {context : Context} {evaluator : Evaluator}
    {now : Moment} {result : StepResult}
    (h : (step.prepare context evaluator now).1 = .skip result) :
    ∃ condition, step.condition = some condition ∧
      (holds context.scope condition = .ok false ∧ result = .skipped step none now ∨
        ∃ error, holds context.scope condition = .error error ∧
          result = .skipped step (some ("condition error: " ++ error.message)) now) := by
  unfold prepare at h
  split at h
  · cases h
  · next active known =>
      obtain ⟨condition, given, rfl⟩ := Step.trim_of_activeCondition known
      dsimp only at h
      rw [Evaluator.holds_fst, holds_trim] at h
      refine ⟨condition, given, ?_⟩
      split at h
      · cases h
      · next untrue =>
          cases h
          exact .inl ⟨untrue, rfl⟩
      · next error failed =>
          cases h
          exact .inr ⟨error, failed, rfl⟩

theorem Evaluator.mem_triggeredIds {evaluator : Evaluator} {rules : List Rule} {phase : Phase}
    {scope : Scope} {rule : Rule} (member : rule ∈ rules) (applies : rule.appliesTo phase = true)
    (true_there : Expr.holds scope rule.condition = .ok true) :
    rule.id ∈ (evaluator.verdict rules phase scope).1.triggeredIds := by
  rw [Verdict.verdict_fst, Verdict.triggeredIds_ofRules]
  exact List.mem_map_of_mem (Verdict.mem_fired.mpr ⟨member, applies, true_there⟩)

private theorem Evaluator.mem_failures_iff {evaluator : Evaluator} {rules : List Rule}
    {phase : Phase} {scope : Scope} {failure : RuleFailure} :
    failure ∈ (evaluator.verdict rules phase scope).1.failures ↔
      ∃ rule ∈ rules, rule.appliesTo phase = true ∧
        ∃ error, Expr.holds scope rule.condition = .error error ∧
          failure = ⟨rule.id, error.message⟩ := by
  rw [Verdict.verdict_fst, Verdict.ofRules_eq]
  exact Verdict.mem_failures

namespace Definition

def conditions (definition : Definition) : List String :=
  definition.steps.filterMap Step.condition ++ definition.rules.map Rule.condition

/-- Evaluating a condition never fails for how it is written, so nothing that runs decide by
conditions is decided by an unreadable one. -/
structure HasConclusiveConditions (definition : Definition) : Prop where
  evaluates : ∀ condition ∈ definition.conditions, ∀ (evaluator : Evaluator) (scope : Scope),
    IsConclusive (evaluator.evaluate scope condition).1 ∧
      IsConclusive (evaluator.holds scope condition).1
  skips : ∀ step ∈ definition.steps, ∀ (context : Context) (evaluator : Evaluator) (now : Moment)
    (result : StepResult), (step.prepare context evaluator now).1 = .skip result →
      ∃ condition, step.condition = some condition ∧
        ((evaluator.holds context.scope condition).1 = .ok false ∧
            result = .skipped step none now ∨
          ∃ error, error.OfValues ∧ (evaluator.holds context.scope condition).1 = .error error ∧
            result = .skipped step (some ("condition error: " ++ error.message)) now)
  quiet : ∀ rule ∈ definition.rules, ∀ (evaluator : Evaluator) (phase : Phase) (scope : Scope),
    rule.appliesTo phase = true →
      let verdict := (evaluator.verdict definition.rules phase scope).1
      rule.id ∉ verdict.triggeredIds →
        (evaluator.holds scope rule.condition).1 = .ok false ∨
          ∃ error, error.OfValues ∧ (evaluator.holds scope rule.condition).1 = .error error ∧
            ⟨rule.id, error.message⟩ ∈ verdict.failures
  failures : ∀ (evaluator : Evaluator) (phase : Phase) (scope : Scope),
    ∀ failure ∈ (evaluator.verdict definition.rules phase scope).1.failures,
      ∃ rule ∈ definition.rules, ∃ error : EvalError, error.OfValues ∧
        failure = ⟨rule.id, error.message⟩

theorem hasConclusiveConditions_of_check {definition : Definition} (h : definition.check = .ok ()) :
    definition.HasConclusiveConditions := by
  have of_step : ∀ step ∈ definition.steps, ∀ condition, step.condition = some condition →
      IsReadable condition :=
    fun step member condition given => (isAccepted_of_check h).steps.isReadable member given
  have of_rule : ∀ rule ∈ definition.rules, IsReadable rule.condition :=
    fun rule member => (isSound_of_checkRules (checkRules_of_check h) rule member).readable
  constructor
  case evaluates =>
    intro condition member evaluator scope
    have readable : IsReadable condition := by
      rcases List.mem_append.mp member with of_a_step | of_a_rule
      · obtain ⟨step, known, given⟩ := List.mem_filterMap.mp of_a_step
        exact of_step step known condition given
      · obtain ⟨rule, known, rfl⟩ := List.mem_map.mp of_a_rule
        exact of_rule rule known
    rw [Evaluator.evaluate_fst, Evaluator.holds_fst]
    exact ⟨readable.isConclusive_evaluate scope, readable.isConclusive_holds scope⟩
  case skips =>
    intro step member context evaluator now result skipped
    obtain ⟨condition, given, why⟩ := Step.prepare_eq_skip skipped
    refine ⟨condition, given, ?_⟩
    rw [Evaluator.holds_fst]
    refine why.imp_right ?_
    rintro ⟨error, failed, rfl⟩
    have readable := of_step step member condition given
    exact ⟨error, readable.isConclusive_holds context.scope error failed, failed, rfl⟩
  case quiet =>
    intro rule member evaluator phase scope applies verdict not_triggered
    rw [Evaluator.holds_fst]
    cases outcome : holds scope rule.condition with
    | ok value =>
        cases value with
        | true =>
            exact absurd (Evaluator.mem_triggeredIds member applies outcome) not_triggered
        | false => exact .inl rfl
    | error error =>
        refine .inr ⟨error, (of_rule rule member).isConclusive_holds scope error outcome, rfl, ?_⟩
        exact Evaluator.mem_failures_iff.mpr ⟨rule, member, applies, error, outcome, rfl⟩
  case failures =>
    intro evaluator phase scope failure listed
    obtain ⟨rule, member, _, error, failed, rfl⟩ := Evaluator.mem_failures_iff.mp listed
    exact ⟨rule, member, error, (of_rule rule member).isConclusive_holds scope error failed, rfl⟩

end Definition

/-- What is parsed at load time, as it is written, is what is parsed at run time, trimmed; so a
definition that the store takes has no condition that runs cannot read. -/
theorem Store.conditions_conclusive :
    (∀ (text : String) (tree : Tree), parse text = .ok tree ↔ parse (Text.trim text) = .ok tree) ∧
      ∀ (store later : Store) (definition : Definition), store.insert definition = .ok later →
        definition.HasConclusiveConditions := by
  refine ⟨fun text tree => (parse_trim_eq_ok_iff text tree).symm, ?_⟩
  intro store later definition inserted
  exact Definition.hasConclusiveConditions_of_check (Definition.check_of_insert inserted).1

def Definition.spaced : Definition where
  id := "spaced"
  steps := [{ Step.make 1 "math" "identity" with condition := some " \t$input.x > 1\n" }]
  rules := [.global "large" "\n$input.x >= 10 " 0.25 .warn]

theorem Store.conditions_conclusive_spaced :
    ∃ later, Store.insert {} .spaced = .ok later ∧ Definition.spaced.HasConclusiveConditions := by
  obtain ⟨later, inserted⟩ : ∃ later, Store.insert {} .spaced = .ok later :=
    Definition.exists_insert_of_isOk (by decide +kernel)
  exact ⟨later, inserted, conditions_conclusive.2 {} later .spaced inserted⟩

end Tollgate
