import Mathlib.Data.List.Basic
import Tollgate.Plan.Cache
import Tollgate.Proofs.Json.Text
import Tollgate.Proofs.Text.Digits

/-!
# Kept plans

A plan depends on the numbers, variables, conditions and references of the
steps only, and the text under which it is kept determines all of these.  So a
kept plan is the plan that would be built.
-/

namespace Tollgate

namespace Json

theorem spelledItems_eq_map (items : List Json) : spelledItems items = items.map spelled := by
  induction items with
  | nil => rfl
  | cons item rest ih => rw [spelledItems, ih, List.map_cons]

theorem spelledFields_eq_map (fields : List (String × Json)) :
    spelledFields fields = fields.map fun field => (field.1, spelled field.2) := by
  induction fields with
  | nil => rfl
  | cons field rest ih =>
      obtain ⟨key, value⟩ := field
      rw [spelledFields, ih, List.map_cons]

mutual

@[simp] theorem references_spelled : ∀ value : Json, references (spelled value) = references value
  | .null => rfl
  | .bool _ => rfl
  | .number _ => rfl
  | .string _ => rfl
  | .array items => by rw [spelled, references, references, itemReferences_spelled items]
  | .object fields => by rw [spelled, references, references, fieldReferences_spelled fields]

theorem itemReferences_spelled : ∀ items : List Json,
    itemReferences (spelledItems items) = itemReferences items
  | [] => rfl
  | item :: rest => by
      rw [spelledItems, itemReferences, itemReferences, references_spelled item,
        itemReferences_spelled rest]

@[simp] theorem fieldReferences_spelled : ∀ fields : List (String × Json),
    fieldReferences (spelledFields fields) = fieldReferences fields
  | [] => rfl
  | (key, value) :: rest => by
      rw [spelledFields, fieldReferences, fieldReferences, references_spelled value,
        fieldReferences_spelled rest]

end

end Json

namespace Step

def outline (step : Step) : Step where
  number := step.number
  name := ""
  tool := ""
  function := ""
  inputs := Json.spelledFields step.inputs
  output := step.output
  condition := step.condition
  retries := 0
  onError := .fail
  fallback := none
  timeoutSeconds := none

@[simp] theorem number_outline (step : Step) : step.outline.number = step.number := rfl

@[simp] theorem output_outline (step : Step) : step.outline.output = step.output := rfl

@[simp] theorem activeCondition_outline (step : Step) :
    step.outline.activeCondition = step.activeCondition := rfl

@[simp] theorem stepReferences_outline (step : Step) :
    step.outline.stepReferences = step.stepReferences := by
  have same : step.outline.references = step.references := by
    unfold references
    rw [activeCondition_outline]
    simp [outline]
  unfold stepReferences
  rw [same]

end Step

namespace Structure

@[simp] theorem outputOf?_outline (steps : List Step) (number : Nat) :
    outputOf? (steps.map Step.outline) number = outputOf? steps number := by
  simp [outputOf?, ← List.map_reverse, List.find?_map, Function.comp_def]

@[simp] theorem producer?_outline (earlier : List Step) (output : String) :
    producer? (earlier.map Step.outline) output = producer? earlier output := by
  simp [producer?, List.find?_map, Function.comp_def]

private theorem outputIssuesFrom_outline (earlier steps : List Step) :
    outputIssuesFrom (earlier.map Step.outline) (steps.map Step.outline) =
      outputIssuesFrom earlier steps := by
  induction steps generalizing earlier with
  | nil => rfl
  | cons step rest ih =>
      have later := ih (step :: earlier)
      rw [List.map_cons] at later
      simp only [List.map_cons, outputIssuesFrom, Step.output_outline, Step.number_outline,
        producer?_outline, ih, later]

@[simp] theorem stepIssues_outline (steps : List Step) (step : Step) :
    stepIssues (steps.map Step.outline) step.outline = stepIssues steps step := by
  have conditions : conditionIssues step.outline = conditionIssues step := rfl
  have references : referenceIssues (steps.map Step.outline) step.outline =
      referenceIssues steps step := by
    funext reference
    simp only [referenceIssues, outputOf?_outline]
    rfl
  unfold stepIssues
  rw [conditions, references, Step.stepReferences_outline]

private theorem issues_outline (steps : List Step) :
    issues (steps.map Step.outline) = issues steps := by
  have numbers : (steps.map Step.outline).map Step.number = steps.map Step.number := by
    simp [Function.comp_def]
  have outputs : outputIssues (steps.map Step.outline) = outputIssues steps :=
    outputIssuesFrom_outline [] steps
  have each : (steps.map Step.outline).flatMap (stepIssues (steps.map Step.outline)) =
      steps.flatMap (stepIssues steps) := by
    simp [List.flatMap_map]
  simp only [issues, numberIssues, numbers, outputs, each, List.isEmpty_map]

end Structure

private theorem Edges.ofSteps_outline (steps : List Step) :
    ofSteps (steps.map Step.outline) = ofSteps steps := by
  have numbers : (steps.map Step.outline).map Step.number = steps.map Step.number := by
    simp [Function.comp_def]
  have references (node : Nat) :
      referenced (steps.map Step.outline) node = referenced steps node := by
    simp [referenced, List.filter_map, List.flatMap_map, Function.comp_def]
  simp only [ofSteps, numbers, references]

theorem Plan.build_outline (steps : List Step) : build (steps.map Step.outline) = build steps := by
  simp only [build, issues, Structure.issues_outline, Edges.ofSteps_outline]

private theorem Json.spelled_ofNat {n : Nat} (h : n < Bound.word) :
    spelled (ofNat n) = .object [(toString n, .null)] := by
  have fits : -0x8000000000000000 ≤ (n : Int) ∧ (n : Int) < 0x10000000000000000 := by
    unfold Bound.word at h
    omega
  unfold ofNat ofInt Number.ofInt?
  rw [dif_pos fits]
  rfl

def Step.FitsWord (step : Step) : Prop := step.number < Bound.word

instance (step : Step) : Decidable step.FitsWord := inferInstanceAs (Decidable (_ < _))

private theorem Step.spelled_encode (step : Step) (h : step.FitsWord) :
    ∃ retries rest, Json.spelled step.encode =
      .object
        ([("step_number", .object [(toString step.number, .null)]),
          ("name", .string step.name),
          ("tool", .string step.tool),
          ("function", .string step.function),
          ("inputs", .object (Json.spelledFields step.inputs)),
          ("output", .string step.output)] ++
          (Json.optionalField "condition" (step.condition.map .string) ++
            ("retry_count", retries) :: rest)) := by
  have number := Json.spelled_ofNat h
  unfold encode
  rw [Json.spelled, Json.spelledFields_eq_map]
  cases step.condition with
  | none =>
      simp only [List.map_append, List.map_cons, number, Json.optionalField,
        Option.map_none, List.append_nil, List.nil_append, List.cons_append]
      exact ⟨_, _, rfl⟩
  | some condition =>
      simp only [List.map_append, List.map_cons, number, Json.optionalField,
        Option.map_some, List.nil_append, List.cons_append]
      exact ⟨_, _, rfl⟩

private theorem Step.outline_of_encode {step other : Step} (h : step.FitsWord) (ho : other.FitsWord)
    (same : Json.spelled step.encode = Json.spelled other.encode) :
    step.outline = other.outline := by
  obtain ⟨retries, rest, fields⟩ := step.spelled_encode h
  obtain ⟨retries', rest', fields'⟩ := other.spelled_encode ho
  rw [fields, fields', Json.object.injEq] at same
  obtain ⟨first, later⟩ := List.append_inj same rfl
  simp only [List.cons.injEq, Prod.mk.injEq, Json.object.injEq, Json.string.injEq, true_and,
    and_true] at first
  obtain ⟨number, _, _, _, inputs, output⟩ := first
  have condition : step.condition = other.condition := by
    cases shape : step.condition <;> cases shape' : other.condition <;>
      simp [Json.optionalField, shape, shape'] at later ⊢
    exact later.1
  unfold outline
  rw [toString_injective number, inputs, output, condition]

namespace PlanCache

private theorem outlines_of_encode {steps others : List Step} (h : ∀ step ∈ steps, step.FitsWord)
    (ho : ∀ step ∈ others, step.FitsWord)
    (same : steps.map (Json.spelled ∘ Step.encode) = others.map (Json.spelled ∘ Step.encode)) :
    steps.map Step.outline = others.map Step.outline := by
  induction steps generalizing others with
  | nil =>
      obtain rfl : others = [] := by simpa using same.symm
      rfl
  | cons step rest ih =>
      cases others with
      | nil => cases same
      | cons other others =>
          rw [List.map_cons, List.map_cons, List.cons.injEq] at same
          have first := Step.outline_of_encode (h step List.mem_cons_self)
            (ho other List.mem_cons_self) same.1
          have later := ih (fun s hs => h s (List.mem_cons_of_mem step hs))
            (fun s hs => ho s (List.mem_cons_of_mem other hs)) same.2
          rw [List.map_cons, List.map_cons, first, later]

theorem build_of_text {definition other : Definition}
    (h : ∀ step ∈ definition.steps, step.FitsWord) (ho : ∀ step ∈ other.steps, step.FitsWord)
    (same : (keyOf definition).steps = (keyOf other).steps) :
    Plan.build definition.steps = Plan.build other.steps := by
  have items := Json.spelled_eq_of_compact_eq same
  rw [Json.spelled, Json.spelled, Json.array.injEq, Json.spelledItems_eq_map,
    Json.spelledItems_eq_map, List.map_map, List.map_map] at items
  rw [← Plan.build_outline, outlines_of_encode h ho items, Plan.build_outline]

private theorem build_of_keyOf {definition other : Definition}
    (h : ∀ step ∈ definition.steps, step.FitsWord) (ho : ∀ step ∈ other.steps, step.FitsWord)
    (same : keyOf definition = keyOf other) :
    Plan.build definition.steps = Plan.build other.steps :=
  build_of_text h ho (congrArg PlanKey.steps same)

def IsSound (cache : PlanCache) : Prop :=
  ∀ key kept, (key, kept) ∈ cache.kept → ∃ definition : Definition,
    (∀ step ∈ definition.steps, step.FitsWord) ∧ keyOf definition = key ∧
      Plan.build definition.steps = .ok kept.plan

theorem mem_of_lookup {key : PlanKey} {kept : KeptPlan} {entries : List (PlanKey × KeptPlan)}
    (h : entries.lookup key = some kept) : (key, kept) ∈ entries := by
  obtain ⟨before, after, same, _⟩ := List.lookup_eq_some_iff.mp h
  rw [same]
  exact List.mem_append_right _ List.mem_cons_self

theorem IsSound.planFor {cache : PlanCache} (sound : cache.IsSound) {definition : Definition}
    (h : ∀ step ∈ definition.steps, step.FitsWord) :
    (cache.planFor definition).1.map KeptPlan.plan = Plan.build definition.steps ∧
      (cache.planFor definition).2.IsSound := by
  unfold PlanCache.planFor
  cases found : cache.kept.lookup (keyOf definition) with
  | some kept =>
      obtain ⟨other, fits, same, built⟩ := sound _ _ (mem_of_lookup found)
      refine ⟨?_, sound⟩
      rw [build_of_keyOf h fits same.symm, built]
      rfl
  | none =>
      cases built : Plan.build definition.steps with
      | error rejection => exact ⟨rfl, sound⟩
      | ok plan =>
          refine ⟨rfl, fun key kept member => ?_⟩
          rcases List.mem_cons.mp member with new | old
          · obtain ⟨rfl, rfl⟩ := Prod.mk.inj new
            exact ⟨definition, h, rfl, built⟩
          · exact sound key kept old

theorem isSound_clear (cache : PlanCache) : cache.clear.IsSound := by
  intro key kept member
  cases member

end PlanCache

end Tollgate
