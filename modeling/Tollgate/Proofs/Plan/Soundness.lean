import Mathlib.Data.List.Count
import Tollgate.Plan.Basic
import Tollgate.Proofs.Selection

/-!
# Sound step lists

A step list without issues has distinct numbers and distinct variables, and
each of its references names an earlier step together with that step's
variable.  These are the facts that runs rely on.
-/

namespace Tollgate

namespace Structure

/-- What a step list without issues promises to the runs of its plan. -/
structure IsSound (steps : List Step) : Prop where
  numbers : (steps.map Step.number).Nodup
  outputs : (steps.map Step.output).Nodup
  references : ∀ step ∈ steps, ∀ raw target number,
    (raw, target, number) ∈ step.stepReferences →
      number < step.number ∧ ∃ other ∈ steps,
        other.number = number ∧ target.path.head? = some other.output
  conditions : ∀ step ∈ steps, ∀ condition, step.activeCondition = some condition →
    ∃ tree, Expr.parse condition = .ok tree

theorem repeats_eq_nil_iff {numbers : List Nat} : repeats numbers = [] ↔ numbers.Nodup := by
  unfold repeats
  rw [List.flatMap_eq_nil_iff, List.nodup_iff_count_le_one]
  constructor
  · intro h n
    by_cases member : n ∈ numbers
    · have once := h n (Ascending.mem_ofList.mpr member)
      have none_left : numbers.count n - 1 = 0 := by simpa using congrArg List.length once
      omega
    · simp [List.count_eq_zero_of_not_mem member]
  · intro h n _
    rw [Nat.sub_eq_zero_of_le (h n), List.replicate_zero]

private theorem producer?_eq_none {earlier : List Step} {output : String} :
    producer? earlier output = none ↔ ∀ step ∈ earlier, step.output ≠ output := by
  simp [producer?]

theorem outputIssuesFrom_eq_nil_iff {earlier steps : List Step} :
    outputIssuesFrom earlier steps = [] ↔
      (∀ step ∈ steps, Text.isBlank step.output = false) ∧ (steps.map Step.output).Nodup ∧
        ∀ step ∈ steps, ∀ other ∈ earlier, other.output ≠ step.output := by
  induction steps generalizing earlier with
  | nil => simp [outputIssuesFrom]
  | cons step rest ih =>
      unfold outputIssuesFrom
      by_cases blank : Text.isBlank step.output = true
      · simp [blank]
      · rw [if_neg blank, List.map_cons, List.nodup_cons, List.forall_mem_cons,
          List.forall_mem_cons, ← producer?_eq_none]
        cases producer? earlier step.output with
        | some other => simp
        | none =>
            dsimp only
            rw [ih]
            simp only [Bool.not_eq_true] at blank
            simp only [List.forall_mem_cons, blank, true_and, List.mem_map, not_exists, not_and]
            constructor
            · rintro ⟨named, distinct, apart⟩
              exact ⟨named, ⟨fun other member same => (apart other member).1 same.symm, distinct⟩,
                fun other member => (apart other member).2⟩
            · rintro ⟨named, ⟨new, distinct⟩, apart⟩
              exact ⟨named, distinct, fun other member =>
                ⟨fun same => new other member same.symm, apart other member⟩⟩

theorem outputOf?_mem {steps : List Step} {number : Nat} {output : String}
    (h : outputOf? steps number = some output) :
    ∃ step ∈ steps, step.number = number ∧ step.output = output := by
  obtain ⟨step, found, same⟩ := Option.map_eq_some_iff.mp h
  exact ⟨step, by simpa using List.mem_of_find?_eq_some found,
    by simpa using List.find?_some found, same⟩

theorem exists_outputOf? {steps : List Step} {number : Nat}
    (known : number ∈ steps.map Step.number) : ∃ output, outputOf? steps number = some output := by
  obtain ⟨step, member, rfl⟩ := List.mem_map.mp known
  have found : (steps.reverse.find? fun candidate => candidate.number == step.number).isSome :=
    List.find?_isSome.mpr ⟨step, List.mem_reverse.mpr member, beq_self_eq_true _⟩
  obtain ⟨last, found⟩ := Option.isSome_iff_exists.mp found
  exact ⟨last.output, by rw [outputOf?, found, Option.map_some]⟩

theorem outputOf?_eq_some_iff {steps : List Step} (distinct : (steps.map Step.number).Nodup)
    {number : Nat} {output : String} :
    outputOf? steps number = some output ↔
      ∃ step ∈ steps, step.number = number ∧ step.output = output := by
  constructor
  · exact outputOf?_mem
  · rintro ⟨step, member, rfl, rfl⟩
    have distinct' : (steps.reverse.map Step.number).Nodup := by
      rw [List.map_reverse, List.nodup_reverse]
      exact distinct
    unfold outputOf?
    rw [find?_key distinct' (List.mem_reverse.mpr member)]
    rfl

namespace IsSound

variable {steps : List Step}

theorem outputOf? (sound : IsSound steps) {step : Step} (member : step ∈ steps) :
    outputOf? steps step.number = some step.output :=
  (outputOf?_eq_some_iff sound.numbers).mpr ⟨step, member, rfl, rfl⟩

theorem number_of_output (sound : IsSound steps) {step other : Step} (hs : step ∈ steps)
    (ho : other ∈ steps) (same : step.output = other.output) : step.number = other.number :=
  congrArg Step.number (List.inj_on_of_nodup_map sound.outputs hs ho same)

end IsSound

theorem referenceIssues_eq_nil_iff {steps : List Step} {step : Step} {raw : String}
    {target : Reference} {number : Nat} :
    referenceIssues steps step (raw, target, number) = [] ↔
      number < step.number ∧
        ∃ output, outputOf? steps number = some output ∧ target.path.head? = some output := by
  unfold referenceIssues
  dsimp only
  cases outputOf? steps number with
  | none => simp
  | some expected =>
      simp only [List.append_eq_nil_iff, Option.some.injEq, exists_eq_left']
      refine and_congr ?_ (by simp)
      rcases Nat.lt_trichotomy number step.number with lt | same | gt
      · simp [lt, Nat.ne_of_lt lt, Nat.not_lt_of_gt lt]
      · simp [same]
      · simp [gt, Nat.ne_of_gt gt, Nat.not_lt_of_gt gt]

theorem conditionIssues_eq_nil_iff {step : Step} :
    conditionIssues step = [] ↔ ∀ condition, step.activeCondition = some condition →
      ∃ tree, Expr.parse condition = .ok tree := by
  unfold conditionIssues
  cases step.activeCondition with
  | none => simp
  | some condition => cases parsed : Expr.parse condition <;> simp [parsed]

theorem stepIssues_eq_nil_iff {steps : List Step} {step : Step} :
    stepIssues steps step = [] ↔
      (∀ reference ∈ step.stepReferences, referenceIssues steps step reference = []) ∧
        conditionIssues step = [] := by
  rw [stepIssues, List.append_eq_nil_iff, List.flatMap_eq_nil_iff]

theorem issues_eq_nil_iff {steps : List Step} :
    issues steps = [] ↔ steps ≠ [] ∧ numberIssues steps = [] ∧ outputIssues steps = [] ∧
      ∀ step ∈ steps, stepIssues steps step = [] := by
  unfold issues
  cases steps with
  | nil => simp
  | cons step rest =>
      rw [List.isEmpty_cons, if_neg Bool.false_ne_true, List.append_eq_nil_iff,
        List.append_eq_nil_iff, List.flatMap_eq_nil_iff, and_assoc]
      simp

theorem isSound_of_issues {steps : List Step} (h : issues steps = []) : IsSound steps := by
  obtain ⟨_, numbers, outputs, each⟩ := issues_eq_nil_iff.mp h
  unfold numberIssues at numbers
  simp only [List.append_eq_nil_iff, List.map_eq_nil_iff] at numbers
  refine ⟨repeats_eq_nil_iff.mp numbers.1, (outputIssuesFrom_eq_nil_iff.mp outputs).2.1, ?_, ?_⟩
  · intro step member raw target number reference
    have clean := (stepIssues_eq_nil_iff.mp (each step member)).1 _ reference
    obtain ⟨lower, output, found, names⟩ := referenceIssues_eq_nil_iff.mp clean
    obtain ⟨other, known, same_number, rfl⟩ := outputOf?_mem found
    exact ⟨lower, other, known, same_number, names⟩
  · intro step member
    exact conditionIssues_eq_nil_iff.mp (stepIssues_eq_nil_iff.mp (each step member)).2

end Structure

namespace Plan

theorem build_ok {steps : List Step} {plan : Plan} (h : build steps = .ok plan) :
    Structure.IsSound steps ∧ plan = ofEdges (Edges.ofSteps steps) := by
  unfold build at h
  cases found : issues steps with
  | nil =>
      simp only [found, Except.ok.injEq] at h
      exact ⟨Structure.isSound_of_issues (List.append_eq_nil_iff.mp found).1, h.symm⟩
  | cons issue rest => simp [found] at h

end Plan

end Tollgate
