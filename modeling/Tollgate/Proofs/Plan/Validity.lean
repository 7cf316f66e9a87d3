import Mathlib.Data.List.Range
import Tollgate.Proofs.Expr.Occurrence
import Tollgate.Proofs.Plan.Circuits

/-!
# Well-formed step lists

A plan is built from a list of steps exactly if the list is well formed.  The
checks look at the first gap in the numbers, at the last step with a number and
at the references that a scan finds; none of these choices loses a fault.
-/

namespace Tollgate

namespace Structure

/-- What a list of steps has to be for a plan to be built from it. -/
structure IsWellFormed (steps : List Step) : Prop where
  nonempty : steps ≠ []
  numbers : (steps.map Step.number).Perm (List.range' 1 steps.length)
  named : ∀ step ∈ steps, Text.isBlank step.output = false
  outputs : (steps.map Step.output).Nodup
  references : ∀ step ∈ steps, ∀ target number,
    step.Mentions target → target.source = .step number →
      number < step.number ∧ ∃ other ∈ steps,
        other.number = number ∧ target.path.head? = some other.output
  conditions : ∀ step ∈ steps, ∀ condition, step.activeCondition = some condition →
    ∃ tree, Expr.parse condition = .ok tree

private theorem firstGap_eq_none_iff {expected : Nat} {numbers : List Nat} :
    firstGap expected numbers = none ↔ numbers = List.range' expected numbers.length := by
  induction numbers generalizing expected with
  | nil => simp [firstGap]
  | cons n rest ih =>
      unfold firstGap
      rw [List.length_cons, List.range'_succ, List.cons.injEq]
      by_cases same : n = expected
      · simp [same, ih]
      · simp [same]

private theorem numberIssues_eq_nil_iff {steps : List Step} :
    numberIssues steps = [] ↔
      (steps.map Step.number).Perm (List.range' 1 steps.length) := by
  unfold numberIssues
  simp only [List.append_eq_nil_iff, List.map_eq_nil_iff, Option.toList_eq_nil_iff,
    repeats_eq_nil_iff, firstGap_eq_none_iff]
  constructor
  · rintro ⟨distinct, contiguous⟩
    have same := Ascending.ofList_perm distinct
    rw [same.length_eq, List.length_map] at contiguous
    rw [contiguous] at same
    exact same.symm
  · intro all
    have distinct : (steps.map Step.number).Nodup := all.nodup_iff.mpr List.nodup_range'
    have same := (Ascending.ofList_perm distinct).trans all
    refine ⟨distinct, ?_⟩
    rw [same.length_eq, List.length_range']
    exact same.eq_of_pairwise (fun a b _ _ lt gt => absurd gt (Nat.lt_asymm lt))
      (Ascending.pairwise_ofList _) List.pairwise_lt_range'

private theorem IsWellFormed.distinct {steps : List Step} (h : IsWellFormed steps) :
    (steps.map Step.number).Nodup :=
  h.numbers.nodup_iff.mpr List.nodup_range'

private theorem IsWellFormed.stepIssues {steps : List Step} (h : IsWellFormed steps) {step : Step}
    (member : step ∈ steps) : stepIssues steps step = [] := by
  rw [stepIssues_eq_nil_iff]
  constructor
  · rintro ⟨raw, target, number⟩ listed
    obtain ⟨mentions, source⟩ := Step.exists_mem_stepReferences.mp ⟨raw, listed⟩
    obtain ⟨lower, other, known, same, names⟩ :=
      h.references step member target number mentions source
    have found := (outputOf?_eq_some_iff h.distinct).mpr ⟨other, known, same, rfl⟩
    exact referenceIssues_eq_nil_iff.mpr ⟨lower, other.output, found, names⟩
  · exact conditionIssues_eq_nil_iff.mpr (h.conditions step member)

theorem issues_eq_nil_iff_isWellFormed {steps : List Step} :
    issues steps = [] ↔ IsWellFormed steps := by
  constructor
  · intro clean
    have sound := isSound_of_issues clean
    obtain ⟨nonempty, numbers, outputs, _⟩ := issues_eq_nil_iff.mp clean
    refine ⟨nonempty, numberIssues_eq_nil_iff.mp numbers,
      (outputIssuesFrom_eq_nil_iff.mp outputs).1, sound.outputs, ?_, sound.conditions⟩
    intro step member target number mentions source
    obtain ⟨raw, listed⟩ := Step.exists_mem_stepReferences.mpr ⟨mentions, source⟩
    exact sound.references step member raw target number listed
  · intro h
    refine issues_eq_nil_iff.mpr
      ⟨h.nonempty, numberIssues_eq_nil_iff.mpr h.numbers, ?_, fun step => h.stepIssues⟩
    exact outputIssuesFrom_eq_nil_iff.mpr ⟨h.named, h.outputs, by simp⟩

private theorem IsSound.isAcyclic {steps : List Step} (sound : IsSound steps) : IsAcyclic steps :=
  Edges.isAcyclic_of_isRanked sound.isRanked

end Structure

namespace Plan

theorem issues_eq_nil_iff {steps : List Step} :
    issues steps = [] ↔ Structure.issues steps = [] := by
  unfold issues
  rw [List.append_eq_nil_iff, List.map_eq_nil_iff]
  constructor
  · exact And.left
  · intro clean
    have acyclic := (Structure.isSound_of_issues clean).isAcyclic
    exact ⟨clean, (Edges.cycles_eq_nil_iff steps).mpr acyclic⟩

/-- A plan is built from exactly the well-formed lists of steps. -/
theorem build_iff_isWellFormed (steps : List Step) :
    (∃ plan, build steps = .ok plan) ↔ Structure.IsWellFormed steps := by
  have built : (∃ plan, build steps = .ok plan) ↔ issues steps = [] := by
    unfold build
    cases issues steps <;> simp
  rw [built, issues_eq_nil_iff, Structure.issues_eq_nil_iff_isWellFormed]

end Plan

end Tollgate
