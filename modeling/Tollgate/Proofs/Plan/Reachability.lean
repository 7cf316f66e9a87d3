import Tollgate.Proofs.Plan.Depth

/-!
# Reachability

The search for what a step depends on leaves nothing out: what a found step
depends on has been found or is pending.  And it finds nothing else, since only
dependencies of found steps become pending.  So its answers are those of the
transitive closure, whatever order it meets the steps in.
-/

namespace Tollgate

namespace Edges

section Closure

variable {edges : Edges} {found pending : List Nat} {n : Nat}

theorem mem_closure_of_mem (member : n ∈ found ∨ n ∈ pending) :
    n ∈ edges.closure found pending := by
  fun_induction closure edges found pending with
  | case1 found => simpa using member
  | case2 found next rest known ih =>
      apply ih
      rcases member with here | waits
      · exact .inl here
      · rcases List.mem_cons.mp waits with rfl | later
        · exact .inl (by simpa using known)
        · exact .inr later
  | case3 found next rest new ih =>
      apply ih
      simp only [Ascending.mem_insert, List.mem_append]
      simp only [List.mem_cons] at member
      tauto

theorem reached_of_mem_closure (member : n ∈ edges.closure found pending) :
    n ∈ found ∨ ∃ next ∈ pending, n = next ∨ edges.DependsOn next n := by
  fun_induction closure edges found pending with
  | case1 found => exact .inl member
  | case2 found next rest _ ih =>
      rcases ih member with here | ⟨other, waits, reached⟩
      · exact .inl here
      · exact .inr ⟨other, List.mem_cons_of_mem next waits, reached⟩
  | case3 found next rest _ ih =>
      rcases ih member with here | ⟨other, waits, reached⟩
      · rcases Ascending.mem_insert.mp here with rfl | earlier
        · exact .inr ⟨_, List.mem_cons_self, .inl rfl⟩
        · exact .inl earlier
      · refine .inr ?_
        rcases List.mem_append.mp waits with direct | later
        · rw [List.mem_reverse] at direct
          refine ⟨next, List.mem_cons_self, .inr ?_⟩
          rcases reached with rfl | further
          · exact .single direct
          · exact .head direct further
        · exact ⟨other, List.mem_cons_of_mem next later, reached⟩

private theorem of_subset_closure
    (complete : ∀ node ∈ found, ∀ d ∈ edges.of node, d ∈ found ∨ d ∈ pending)
    (member : n ∈ edges.closure found pending) : edges.of n ⊆ edges.closure found pending := by
  fun_induction closure edges found pending with
  | case1 found => exact fun d depends => (complete n member d depends).resolve_right (by simp)
  | case2 found next rest known ih =>
      refine ih (fun node here d depends => ?_) member
      rcases complete node here d depends with earlier | waits
      · exact .inl earlier
      · rcases List.mem_cons.mp waits with rfl | later
        · exact .inl (by simpa using known)
        · exact .inr later
  | case3 found next rest _ ih =>
      refine ih (fun node here d depends => ?_) member
      simp only [Ascending.mem_insert, List.mem_append, List.mem_reverse] at here ⊢
      rcases here with rfl | earlier
      · exact .inr (.inl depends)
      · have := complete node earlier d depends
        simp only [List.mem_cons] at this
        tauto

private theorem pairwise_closure (ascending : found.Pairwise (· < ·)) :
    (edges.closure found pending).Pairwise (· < ·) := by
  fun_induction closure edges found pending with
  | case1 => exact ascending
  | case2 _ _ _ _ ih => exact ih ascending
  | case3 _ _ _ _ ih => exact ih (Ascending.pairwise_insert ascending)

end Closure

theorem mem_ancestors {edges : Edges} {node n : Nat} :
    n ∈ edges.ancestors node ↔ edges.DependsOn node n := by
  constructor
  · intro member
    rcases reached_of_mem_closure member with nothing | ⟨next, direct, reached⟩
    · simp at nothing
    · rw [List.mem_reverse] at direct
      rcases reached with rfl | further
      · exact .single direct
      · exact .head direct further
  · intro depends
    induction depends with
    | single direct => exact mem_closure_of_mem (.inr (List.mem_reverse.mpr direct))
    | tail _ direct ih => exact of_subset_closure (by simp) ih direct

theorem pairwise_ancestors (edges : Edges) (node : Nat) :
    (edges.ancestors node).Pairwise (· < ·) := pairwise_closure .nil

section OfSteps

variable {steps : List Step} {n d : Nat}

theorem mem_of_converse : n ∈ (ofSteps steps).converse.of d ↔ d ∈ (ofSteps steps).of n := by
  by_cases listed : d ∈ (ofSteps steps).nodes
  · unfold converse
    rw [of, lookup_map _ listed, Option.getD_some, List.mem_map]
    constructor
    · rintro ⟨edge, member, rfl⟩
      obtain ⟨member, depends⟩ := List.mem_filter.mp member
      rw [of_eq_of_mem_ofSteps member]
      simpa using depends
    · intro depends
      rcases of_eq_nil_or_mem (ofSteps steps) n with nothing | member
      · simp [nothing] at depends
      · exact ⟨_, List.mem_filter.mpr ⟨member, by simpa using depends⟩, rfl⟩
  · have unlisted : d ∉ nodes (ofSteps steps).converse := by simpa [converse, nodes] using listed
    rw [of_eq_nil unlisted, mem_of_ofSteps_iff]
    refine iff_of_false List.not_mem_nil fun refers => listed ?_
    exact mem_nodes_ofSteps.mpr refers.1

private theorem DependsOn.exists_standsAt (depends : (ofSteps steps).DependsOn n d) {depth : Nat}
    (h : StandsAt (ofSteps steps).levels n depth) :
    ∃ below < depth, StandsAt (ofSteps steps).levels d below := by
  induction depends with
  | single direct => exact exists_standsAt_of_refers h (mem_of_ofSteps_iff.mp direct)
  | tail _ direct ih =>
      obtain ⟨above, lower, there⟩ := ih
      obtain ⟨below, lowest, here⟩ := exists_standsAt_of_refers there (mem_of_ofSteps_iff.mp direct)
      exact ⟨below, lowest.trans lower, here⟩

end OfSteps

end Edges

namespace Plan

/-- What a plan says of its steps is told by the direct dependencies alone. -/
structure IsExact (plan : Plan) : Prop where
  ancestors : ∀ number other,
    other ∈ plan.dependencies.ancestors number ↔ plan.dependencies.DependsOn number other
  ascending : ∀ number, (plan.dependencies.ancestors number).Pairwise (· < ·)
  proper : ∀ number, number ∉ plan.dependencies.ancestors number
  dependents : ∀ number other,
    other ∈ plan.dependents.of number ↔ number ∈ plan.dependencies.of other
  symmetric : ∀ a b, plan.areIndependent a b = plan.areIndependent b a
  independent : ∀ a b, plan.areIndependent a b = true ↔
    a ≠ b ∧ a ∈ plan.dependencies.nodes ∧ b ∈ plan.dependencies.nodes ∧
      ¬plan.dependencies.DependsOn a b ∧ ¬plan.dependencies.DependsOn b a
  level : ∀ level ∈ plan.levels, ∀ a ∈ level, ∀ b ∈ level, a ≠ b → plan.areIndependent a b = true

theorem areIndependent_iff {plan : Plan} {a b : Nat} : plan.areIndependent a b = true ↔
    a ≠ b ∧ a ∈ plan.dependencies.nodes ∧ b ∈ plan.dependencies.nodes ∧
      ¬plan.dependencies.DependsOn a b ∧ ¬plan.dependencies.DependsOn b a := by
  simp [areIndependent, Edges.mem_ancestors, and_assoc]

theorem areIndependent_comm (plan : Plan) (a b : Nat) :
    plan.areIndependent a b = plan.areIndependent b a := by
  rw [Bool.eq_iff_iff, areIndependent_iff, areIndependent_iff, ne_comm]
  tauto

theorem isExact_ofEdges {steps : List Step} (acyclic : Structure.IsAcyclic steps) :
    (ofEdges (Edges.ofSteps steps)).IsExact := by
  have depths := Structure.isDepthOrder_levels acyclic
  constructor
  case ancestors => exact fun _ _ => Edges.mem_ancestors
  case ascending => exact Edges.pairwise_ancestors _
  case proper =>
    intro number member
    exact acyclic number (Edges.dependsOn_ofSteps.mp (Edges.mem_ancestors.mp member))
  case dependents => exact fun _ _ => Edges.mem_of_converse
  case symmetric => exact areIndependent_comm _
  case independent => exact fun _ _ => areIndependent_iff
  case level =>
    intro level listed a in_level b in_level' differ
    obtain ⟨depth, found⟩ := List.mem_iff_getElem?.mp listed
    have node {number : Nat} (member : number ∈ level) :
        number ∈ (Edges.ofSteps steps).nodes :=
      Edges.mem_nodes_ofSteps.mpr ((depths.all number).mp (List.mem_flatten_of_mem listed member))
    have apart {number other : Nat} (member : number ∈ level) (member' : other ∈ level) :
        ¬(Edges.ofSteps steps).DependsOn number other := by
      intro depends
      obtain ⟨below, lower, there⟩ := depends.exists_standsAt ⟨level, found, member⟩
      exact absurd (there.unique depths.once ⟨level, found, member'⟩) lower.ne
    exact areIndependent_iff.mpr ⟨differ, node in_level, node in_level',
      apart in_level in_level', apart in_level' in_level⟩

/-- A plan that was built has the steps with their references, and answers exactly. -/
theorem build_is_exact {steps : List Step} {plan : Plan} (built : build steps = .ok plan) :
    (∀ number, number ∈ plan.dependencies.nodes ↔ number ∈ steps.map Step.number) ∧
      (∀ number other,
        other ∈ plan.dependencies.of number ↔ Structure.Refers steps number other) ∧
      plan.IsExact := by
  obtain ⟨sound, rfl⟩ := build_ok built
  exact ⟨fun _ => Edges.mem_nodes_ofSteps, fun _ _ => Edges.mem_of_ofSteps_iff,
    isExact_ofEdges (Edges.isAcyclic_of_isRanked sound.isRanked)⟩

def knotted : List Step :=
  [Step.make 1 "math" "identity",
    (Step.make 2 "math" "add").withInput "a" (.string "$step1.step1_output"),
    (Step.make 3 "math" "add").withInput "a" (.string "$step1.step1_output"),
    (Step.make 4 "math" "add").withInput "a" (.string "$step2.step2_output + $step3.step3_output"),
    (Step.make 5 "math" "add").withInput "a" (.string "$step4.step4_output + $step1.step1_output")]

theorem build_is_exact_knotted :
    ∃ plan, build knotted = .ok plan ∧ plan.dependencies.ancestors 5 = [1, 2, 3, 4] ∧
      plan.areIndependent 2 3 = true ∧ plan.areIndependent 1 5 = false ∧ plan.IsExact := by
  have built : build knotted = .ok (ofEdges (Edges.ofSteps knotted)) := by
    rw [build_eq_ok_iff]
    exact ⟨by decide +kernel, rfl⟩
  have edges : Edges.ofSteps knotted = [(1, []), (2, [1]), (3, [1]), (4, [2, 3]), (5, [1, 4])] := by
    decide +kernel
  refine ⟨_, built, ?_, ?_, ?_, (build_is_exact built).2.2⟩ <;> rw [ofEdges, edges]
  · cbv
  · cbv
  · cbv

end Plan

end Tollgate
