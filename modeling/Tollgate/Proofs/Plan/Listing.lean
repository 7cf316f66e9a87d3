import Tollgate.Proofs.Plan.Analysis
import Tollgate.Proofs.Plan.Validity

/-!
# Step lists in another order

The checks go through the steps as they are listed and note what came before,
so what they report depends on the order.  Whether they report anything does
not, and the edges are the same for every order.
-/

namespace Tollgate

private theorem Ascending.ofList_congr {members others : List Nat}
    (h : ∀ n, n ∈ members ↔ n ∈ others) : ofList members = ofList others := by
  have same : (ofList members).Perm (ofList others) := by
    rw [List.perm_ext_iff_of_nodup (nodup_ofList _) (nodup_ofList _)]
    simpa only [mem_ofList] using h
  exact same.eq_of_pairwise (fun a b _ _ lt gt => absurd gt (Nat.lt_asymm lt))
    (pairwise_ofList _) (pairwise_ofList _)

section Permuted

variable {steps others : List Step}

theorem Edges.ofSteps_perm (same : steps.Perm others) : ofSteps steps = ofSteps others := by
  have nodes : Ascending.ofList (steps.map Step.number) =
      Ascending.ofList (others.map Step.number) :=
    Ascending.ofList_congr fun _ => (same.map Step.number).mem_iff
  have refers (node n : Nat) : n ∈ referenced steps node ↔ n ∈ referenced others node := by
    simp only [mem_referenced, same.mem_iff]
  simp only [ofSteps, nodes]
  apply List.map_congr_left
  intro node _
  apply congrArg (Prod.mk node)
  apply Ascending.ofList_congr
  intro n
  simp only [List.mem_filter, refers]

private theorem Structure.IsWellFormed.perm (h : IsWellFormed steps) (same : steps.Perm others) :
    IsWellFormed others where
  nonempty := fun empty => h.nonempty (List.perm_nil.mp (empty ▸ same))
  numbers := by
    rw [← same.length_eq]
    exact (same.map Step.number).symm.trans h.numbers
  named step member := h.named step (same.mem_iff.mpr member)
  outputs := (same.map Step.output).nodup_iff.mp h.outputs
  references step member target number mentions source := by
    simpa only [same.mem_iff] using
      h.references step (same.mem_iff.mpr member) target number mentions source
  conditions step member := h.conditions step (same.mem_iff.mpr member)

private theorem Plan.issues_eq_nil_of_perm (same : steps.Perm others) (clean : issues steps = []) :
    issues others = [] := by
  rw [issues_eq_nil_iff, Structure.issues_eq_nil_iff_isWellFormed] at clean ⊢
  exact clean.perm same

private theorem Plan.build_ok_of_perm {plan : Plan} (same : steps.Perm others)
    (built : build steps = .ok plan) : build others = .ok plan := by
  rw [build_eq_ok_iff] at built ⊢
  exact ⟨issues_eq_nil_of_perm same built.1, Edges.ofSteps_perm same ▸ built.2⟩

end Permuted

namespace Plan

/-- Steps in another order have a plan if they have one, the same plan; and a rejection tells of
the same cycles. -/
theorem build_ignores_listing {steps others : List Step} (same : steps.Perm others) :
    ((∃ plan, build steps = .ok plan) ↔ ∃ plan, build others = .ok plan) ∧
      (∀ plan other, build steps = .ok plan → build others = .ok other →
        plan.dependencies = other.dependencies ∧ plan.dependents = other.dependents ∧
          plan.levels = other.levels ∧ plan.criticalPath = other.criticalPath) ∧
      (Edges.ofSteps steps).cycles = (Edges.ofSteps others).cycles ∧
      ∀ rejection other, build steps = .error rejection → build others = .error other →
        rejection.cycles = other.cycles := by
  have edges := Edges.ofSteps_perm same
  refine ⟨?_, ?_, by rw [edges], ?_⟩
  · constructor
    · exact fun ⟨plan, built⟩ => ⟨plan, build_ok_of_perm same built⟩
    · exact fun ⟨plan, built⟩ => ⟨plan, build_ok_of_perm same.symm built⟩
  · intro plan other built built'
    rw [build_ok_of_perm same built] at built'
    obtain rfl := Except.ok.inj built'
    exact ⟨rfl, rfl, rfl, rfl⟩
  · intro rejection other rejected rejected'
    obtain ⟨_, rfl⟩ := build_eq_error_iff.mp rejected
    obtain ⟨_, rfl⟩ := build_eq_error_iff.mp rejected'
    change (issues steps).filterMap Issue.cycle? = (issues others).filterMap Issue.cycle?
    rw [cycles_issues, cycles_issues, edges]

def crossed : List Step :=
  [(Step.make 2 "math" "identity").withInput "x" (.string "$step1.step1_output"),
    (Step.make 1 "math" "identity").withInput "x" (.string "$step2.step2_output"),
    (Step.make 2 "math" "identity").withOutput "other"]

theorem build_ignores_listing_crossed :
    crossed.Perm crossed.reverse ∧ issues crossed ≠ issues crossed.reverse ∧
      (¬ ∃ plan, build crossed.reverse = .ok plan) ∧
      (Edges.ofSteps crossed.reverse).cycles = [[1, 2, 1]] := by
  have same : crossed.Perm crossed.reverse := (List.reverse_perm crossed).symm
  have listing := build_ignores_listing same
  refine ⟨same, by decide +kernel, ?_, ?_⟩
  · rw [← listing.1]
    rintro ⟨plan, built⟩
    have clean : issues crossed = [] := (build_eq_ok_iff.mp built).1
    exact absurd clean (by decide +kernel)
  · rw [← listing.2.2.1]
    decide +kernel

end Plan

end Tollgate
