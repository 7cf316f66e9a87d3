import Tollgate.Proofs.Plan.Search

/-!
# Analysis and building

An analysis never fails, and what it reports is what building comes to: the
plan, or the texts of the rejection with its cycles.  Steps that are rejected
for other reasons than cycles are still put into levels, all of them.
-/

namespace Tollgate

namespace Structure

theorem cycle?_of_mem_numberIssues {steps : List Step} {issue : Issue}
    (h : issue ∈ numberIssues steps) : issue.cycle? = none := by
  have of_gap (numbers : List Nat) : ∀ expected, firstGap expected numbers = some issue →
      issue.cycle? = none := by
    induction numbers with
    | nil => exact nofun
    | cons n rest ih =>
        intro expected found
        unfold firstGap at found
        split at found
        · exact ih (expected + 1) found
        · cases found
          rfl
  rcases List.mem_append.mp h with repeated | gap
  · obtain ⟨n, _, rfl⟩ := List.mem_map.mp repeated
    rfl
  · exact of_gap _ 1 (Option.mem_toList.mp gap)

theorem cycle?_of_mem_outputIssuesFrom {earlier steps : List Step} {issue : Issue}
    (h : issue ∈ outputIssuesFrom earlier steps) : issue.cycle? = none := by
  induction steps generalizing earlier with
  | nil => cases h
  | cons step rest ih =>
      unfold outputIssuesFrom at h
      split at h
      · rcases List.mem_cons.mp h with rfl | later
        · rfl
        · exact ih later
      · split at h
        · rcases List.mem_cons.mp h with rfl | later
          · rfl
          · exact ih later
        · exact ih h

private theorem cycle?_of_mem_referenceIssues {steps : List Step} {step : Step}
    {reference : String × Reference × Nat} {issue : Issue}
    (h : issue ∈ referenceIssues steps step reference) : issue.cycle? = none := by
  obtain ⟨raw, target, number⟩ := reference
  unfold referenceIssues at h
  dsimp only at h
  split at h
  · rw [List.mem_singleton.mp h]
    rfl
  · rcases List.mem_append.mp h with order | mismatch
    · split at order
      · rw [List.mem_singleton.mp order]
        rfl
      · split at order
        · rw [List.mem_singleton.mp order]
          rfl
        · cases order
    · split at mismatch
      · cases mismatch
      · rw [List.mem_singleton.mp mismatch]
        rfl

private theorem cycle?_of_mem_conditionIssues {step : Step} {issue : Issue}
    (h : issue ∈ conditionIssues step) : issue.cycle? = none := by
  unfold conditionIssues at h
  split at h
  · cases h
  · split at h
    · cases h
    · rw [List.mem_singleton.mp h]
      rfl

private theorem cycle?_of_mem_issues {steps : List Step} {issue : Issue}
    (h : issue ∈ issues steps) : issue.cycle? = none := by
  unfold issues at h
  split at h
  · rw [List.mem_singleton.mp h]
    rfl
  · rcases List.mem_append.mp h with of_lists | of_steps
    · rcases List.mem_append.mp of_lists with of_numbers | of_outputs
      · exact cycle?_of_mem_numberIssues of_numbers
      · exact cycle?_of_mem_outputIssuesFrom of_outputs
    · obtain ⟨step, _, of_step⟩ := List.mem_flatMap.mp of_steps
      rcases List.mem_append.mp of_step with of_references | of_condition
      · obtain ⟨reference, _, of_reference⟩ := List.mem_flatMap.mp of_references
        exact cycle?_of_mem_referenceIssues of_reference
      · exact cycle?_of_mem_conditionIssues of_condition

end Structure

namespace Plan

theorem cycles_issues (steps : List Step) :
    (issues steps).filterMap Issue.cycle? = (Edges.ofSteps steps).cycles := by
  have none_elsewhere : (Structure.issues steps).filterMap Issue.cycle? = [] :=
    List.filterMap_eq_nil_iff.mpr fun _ => Structure.cycle?_of_mem_issues
  unfold issues
  rw [List.filterMap_append, none_elsewhere, List.nil_append, List.filterMap_map]
  exact List.filterMap_some

theorem build_eq_ok_iff {steps : List Step} {plan : Plan} :
    build steps = .ok plan ↔ issues steps = [] ∧ plan = ofEdges (Edges.ofSteps steps) := by
  unfold build
  cases issues steps <;> simp [eq_comm]

theorem build_eq_error_iff {steps : List Step} {rejection : Rejection} :
    build steps = .error rejection ↔ issues steps ≠ [] ∧ rejection = ⟨issues steps⟩ := by
  unfold build
  cases issues steps <;> simp [eq_comm]

end Plan

/-- An analysis of steps says the same about them as what building came to. -/
structure Analysis.Agrees (analysis : Analysis) (steps : List Step)
    (built : Except Rejection Plan) : Prop where
  clean : (∃ plan, built = .ok plan) ↔ analysis.errors = []
  plan : ∀ plan, built = .ok plan →
    analysis.levels = plan.levels ∧ analysis.criticalPath = plan.criticalPath ∧
      analysis.parallelization = plan.parallelization ∧
      analysis.hasCycles = false ∧ analysis.cycles = []
  errors : ∀ rejection, built = .error rejection →
    analysis.errors = rejection.issues.map Issue.message
  cycles : ∀ rejection, built = .error rejection →
    analysis.cycles = rejection.cycles ∧ (analysis.hasCycles = true ↔ rejection.cycles ≠ [])
  stopped : ∀ rejection, built = .error rejection → rejection.cycles ≠ [] →
    analysis.levels = [] ∧ analysis.criticalPath = []
  placed : ∀ rejection, built = .error rejection → rejection.cycles = [] →
    analysis.levels.flatten.Nodup ∧
      ∀ number, number ∈ analysis.levels.flatten ↔ number ∈ steps.map Step.number

namespace Plan

section Analyze

variable {steps : List Step}

theorem errors_analyze : (analyze steps).errors = (issues steps).map Issue.message := by
  have same : (analyze steps).errors = (Structure.issues steps).map Issue.message ++
      (Edges.ofSteps steps).cycles.map fun cycle => (Issue.cycle cycle).message := by
    unfold analyze
    dsimp only
    split <;> rfl
  rw [same, issues, List.map_append, List.map_map]
  rfl

theorem cycles_analyze : (analyze steps).cycles = (Edges.ofSteps steps).cycles := by
  unfold analyze
  dsimp only
  split <;> rfl

theorem analyze_of_acyclic (acyclic : (Edges.ofSteps steps).cycles = []) :
    (analyze steps).hasCycles = false ∧
      (analyze steps).levels = (ofEdges (Edges.ofSteps steps)).levels ∧
      (analyze steps).criticalPath = (ofEdges (Edges.ofSteps steps)).criticalPath ∧
      (analyze steps).parallelization = (ofEdges (Edges.ofSteps steps)).parallelization := by
  have branch : ¬(!(Edges.ofSteps steps).cycles.isEmpty) = true := by simp [acyclic]
  unfold analyze
  dsimp only
  rw [if_neg branch]
  exact ⟨rfl, rfl, rfl, rfl⟩

theorem analyze_of_cycles (cyclic : (Edges.ofSteps steps).cycles ≠ []) :
    (analyze steps).hasCycles = true ∧ (analyze steps).levels = [] ∧
      (analyze steps).criticalPath = [] := by
  have branch : (!(Edges.ofSteps steps).cycles.isEmpty) = true := by simp [cyclic]
  unfold analyze
  dsimp only
  rw [if_pos branch]
  exact ⟨rfl, rfl, rfl⟩

private theorem hasCycles_analyze :
    (analyze steps).hasCycles = true ↔ (Edges.ofSteps steps).cycles ≠ [] := by
  by_cases acyclic : (Edges.ofSteps steps).cycles = []
  · rw [(analyze_of_acyclic acyclic).1]
    simp [acyclic]
  · simp [(analyze_of_cycles acyclic).1, acyclic]

private theorem placed_analyze (acyclic : (Edges.ofSteps steps).cycles = []) :
    (analyze steps).levels.flatten.Nodup ∧
      ∀ number, number ∈ (analyze steps).levels.flatten ↔ number ∈ steps.map Step.number := by
  have all := Edges.flatten_levels_ofSteps acyclic
  rw [(analyze_of_acyclic acyclic).2.1]
  exact ⟨all.nodup_iff.mpr (Ascending.nodup_ofList _),
    fun number => all.mem_iff.trans Ascending.mem_ofList⟩

end Analyze

theorem analyze_agrees (steps : List Step) : (analyze steps).Agrees steps (build steps) := by
  constructor
  case clean =>
    rw [errors_analyze, List.map_eq_nil_iff]
    simp [build_eq_ok_iff]
  case plan =>
    intro plan built
    obtain ⟨clean, rfl⟩ := build_eq_ok_iff.mp built
    have acyclic : (Edges.ofSteps steps).cycles = [] := by
      rw [← cycles_issues, clean]
      rfl
    obtain ⟨marked, levels, path, share⟩ := analyze_of_acyclic acyclic
    exact ⟨levels, path, share, marked, cycles_analyze.trans acyclic⟩
  case errors =>
    intro rejection built
    obtain ⟨_, rfl⟩ := build_eq_error_iff.mp built
    exact errors_analyze
  all_goals
    intro rejection built
    obtain ⟨_, rfl⟩ := build_eq_error_iff.mp built
    have same : Rejection.cycles ⟨issues steps⟩ = (Edges.ofSteps steps).cycles :=
      cycles_issues steps
    rw [same]
  case cycles => exact ⟨cycles_analyze, hasCycles_analyze⟩
  case stopped => exact fun cyclic => (analyze_of_cycles cyclic).2
  case placed => exact placed_analyze

end Plan

end Tollgate
