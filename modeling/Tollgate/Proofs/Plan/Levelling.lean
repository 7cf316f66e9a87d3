import Mathlib.Data.List.Perm.Basic
import Tollgate.Proofs.Plan.Soundness

/-!
# Levels of sound step lists

When every dependency of an edge has a lower rank, some pending step is always
ready.  So the levels hold every step exactly once, and the dependencies of a
step lie in earlier levels.
-/

namespace Tollgate

namespace Edges

@[simp] theorem nodes_ofSteps (steps : List Step) :
    nodes (ofSteps steps) = Ascending.ofList (steps.map Step.number) := by
  simp [nodes, ofSteps, Function.comp_def]

theorem of_eq_nil_or_mem (edges : Edges) (n : Nat) :
    edges.of n = [] ∨ (n, edges.of n) ∈ edges := by
  unfold of
  cases found : edges.lookup n with
  | none => exact .inl rfl
  | some dependencies =>
      obtain ⟨before, after, same, _⟩ := List.lookup_eq_some_iff.mp found
      exact .inr (by simp [same])

theorem of_eq_of_mem_ofSteps {steps : List Step} {n : Nat} {deps : List Nat}
    (member : (n, deps) ∈ ofSteps steps) : (ofSteps steps).of n = deps := by
  obtain ⟨node, listed, pair⟩ := List.mem_map.mp member
  rw [Prod.mk.injEq] at pair
  obtain ⟨rfl, rfl⟩ := pair
  unfold of ofSteps
  rw [lookup_map _ listed, Option.getD_some]

theorem pairwise_of_ofSteps (steps : List Step) (n : Nat) :
    ((ofSteps steps).of n).Pairwise (· < ·) := by
  rcases of_eq_nil_or_mem (ofSteps steps) n with nothing | member
  · simp [nothing]
  · obtain ⟨other, _, pair⟩ := List.mem_map.mp member
    rw [← (Prod.mk.inj pair).2]
    exact Ascending.pairwise_ofList _

theorem mem_of_ofSteps {steps : List Step} {step : Step} (member : step ∈ steps) {raw : String}
    {target : Reference} {number : Nat} (refers : (raw, target, number) ∈ step.stepReferences)
    (known : number ∈ steps.map Step.number) : number ∈ (ofSteps steps).of step.number := by
  have node : step.number ∈ Ascending.ofList (steps.map Step.number) :=
    Ascending.mem_ofList.mpr (List.mem_map_of_mem member)
  unfold of ofSteps
  rw [lookup_map _ node, Option.getD_some, Ascending.mem_ofList, List.mem_filter]
  refine ⟨List.mem_flatMap.mpr ⟨step, by simpa using member, ?_⟩, ?_⟩
  · exact List.mem_map.mpr ⟨_, refers, rfl⟩
  · simpa [Ascending.mem_ofList] using known

/-- Dependencies are placed, or pending with a lower rank. -/
def IsRanked (rank : Nat → Nat) (placed : List Nat) (pending : Edges) : Prop :=
  ∀ edge ∈ pending, ∀ d ∈ edge.2, d ∈ placed ∨ d ∈ nodes pending ∧ rank d < rank edge.1

private theorem any_isReady {rank : Nat → Nat} {placed : List Nat} {pending : Edges}
    (ranked : IsRanked rank placed pending) {edge : Nat × List Nat} (member : edge ∈ pending) :
    pending.any (isReady placed) = true := by
  -- Follow an unplaced dependency down; ranks cannot fall forever.
  induction below : rank edge.1 using Nat.strongRecOn generalizing edge with
  | ind _ ih =>
      by_cases goes : isReady placed edge = true
      · exact List.any_eq_true.mpr ⟨edge, member, goes⟩
      · simp only [isReady, List.all_eq_true, not_forall] at goes
        obtain ⟨d, depends, unplaced⟩ := goes
        obtain ⟨node, lower⟩ :=
          (ranked edge member d depends).resolve_left (by simpa using unplaced)
        obtain ⟨other, pending_other, rfl⟩ := List.mem_map.mp node
        exact ih (rank other.1) (below ▸ lower) pending_other rfl

theorem nodes_perm (placed : List Nat) (pending : Edges) :
    (ready placed pending ++ nodes (waiting placed pending)).Perm (nodes pending) := by
  unfold ready waiting nodes
  rw [← List.map_append]
  exact (List.filter_append_perm (isReady placed) pending).map Prod.fst

private theorem IsRanked.waiting {rank : Nat → Nat} {placed : List Nat} {pending : Edges}
    (ranked : IsRanked rank placed pending) :
    IsRanked rank (placed ++ ready placed pending) (waiting placed pending) := by
  intro edge member d depends
  rcases ranked edge (List.mem_of_mem_filter member) d depends with here | ⟨node, lower⟩
  · exact .inl (List.mem_append_left _ here)
  · rcases List.mem_append.mp ((nodes_perm placed pending).mem_iff.mpr node) with now | later
    · exact .inl (List.mem_append_right _ now)
    · exact .inr ⟨later, lower⟩

theorem flatten_levelsFrom {rank : Nat → Nat} {placed : List Nat} {pending : Edges}
    (ranked : IsRanked rank placed pending) :
    (levelsFrom placed pending).flatten.Perm (nodes pending) := by
  fun_induction levelsFrom placed pending with
  | case1 placed pending goes shorter ih =>
      rw [List.flatten_cons]
      exact ((ih ranked.waiting).append_left _).trans (nodes_perm placed pending)
  | case2 placed pending stuck =>
      cases pending with
      | nil => exact .refl _
      | cons edge rest => exact absurd (any_isReady ranked List.mem_cons_self) stuck

theorem dependencies_placed {placed : List Nat} {pending : Edges}
    {before after : List (List Nat)} {level : List Nat}
    (h : levelsFrom placed pending = before ++ level :: after) {n : Nat} (member : n ∈ level) :
    ∃ deps, (n, deps) ∈ pending ∧ ∀ d ∈ deps, d ∈ placed ++ before.flatten := by
  fun_induction levelsFrom placed pending generalizing before with
  | case1 placed pending goes shorter ih =>
      cases before with
      | nil =>
          rw [List.nil_append, List.cons.injEq] at h
          obtain ⟨edge, now, rfl⟩ := List.mem_map.mp (h.1 ▸ member)
          obtain ⟨here, is_ready⟩ := List.mem_filter.mp now
          refine ⟨edge.2, here, fun d depends => ?_⟩
          have := List.all_eq_true.mp is_ready d depends
          simpa using this
      | cons first before =>
          rw [List.cons_append, List.cons.injEq] at h
          obtain ⟨deps, waits, placed_deps⟩ := ih h.2
          refine ⟨deps, List.mem_of_mem_filter waits, fun d depends => ?_⟩
          rw [List.flatten_cons, ← List.append_assoc, ← h.1]
          exact placed_deps d depends
  | case2 => simp at h

theorem mem_of_direct {steps : List Step} {before after : List (List Nat)} {level : List Nat}
    {n d : Nat} (split : (ofSteps steps).levels = before ++ level :: after) (member : n ∈ level)
    (depends : d ∈ (ofSteps steps).of n) : d ∈ before.flatten := by
  obtain ⟨deps, edge, placed⟩ := dependencies_placed split member
  rw [of_eq_of_mem_ofSteps edge] at depends
  simpa using placed d depends

private theorem sublist_of_levelsFrom {placed : List Nat} {pending : Edges} {level : List Nat}
    (h : level ∈ levelsFrom placed pending) : level.Sublist (nodes pending) := by
  fun_induction levelsFrom placed pending with
  | case1 placed pending goes shorter ih =>
      rcases List.mem_cons.mp h with rfl | later
      · exact (List.filter_sublist).map Prod.fst
      · exact (ih later).trans ((List.filter_sublist).map Prod.fst)
  | case2 => cases h

theorem pairwise_of_mem_levels {steps : List Step} {level : List Nat}
    (member : level ∈ (ofSteps steps).levels) : level.Pairwise (· < ·) := by
  have inside := sublist_of_levelsFrom member
  rw [nodes_ofSteps] at inside
  exact (Ascending.pairwise_ofList _).sublist inside

end Edges

namespace Structure

/-- Levels that hold every step once, each after all that it refers to. -/
structure IsLevelling (steps : List Step) (levels : List (List Nat)) : Prop where
  perm : levels.flatten.Perm (steps.map Step.number)
  ascending : ∀ level ∈ levels, level.Pairwise (· < ·)
  earlier : ∀ before level after, levels = before ++ level :: after →
    ∀ step ∈ steps, step.number ∈ level → ∀ raw target number,
      (raw, target, number) ∈ step.stepReferences → number ∈ before.flatten

theorem IsSound.isRanked {steps : List Step} (sound : IsSound steps) :
    Edges.IsRanked id [] (Edges.ofSteps steps) := by
  intro edge member d depends
  obtain ⟨node, here, rfl⟩ := List.mem_map.mp member
  dsimp only at depends ⊢
  rw [Ascending.mem_ofList, List.mem_filter] at depends
  obtain ⟨refers, known⟩ := depends
  obtain ⟨step, chosen, reference⟩ := List.mem_flatMap.mp refers
  obtain ⟨⟨raw, target, number⟩, found, rfl⟩ := List.mem_map.mp reference
  obtain ⟨present, same⟩ := List.mem_filter.mp chosen
  obtain ⟨lower, _⟩ := sound.references step present raw target number found
  refine .inr ⟨?_, ?_⟩
  · simpa using known
  · simpa [beq_iff_eq.mp same] using lower

theorem IsSound.isLevelling {steps : List Step} (sound : IsSound steps) :
    IsLevelling steps (Edges.ofSteps steps).levels where
  perm := by
    have all := Edges.flatten_levelsFrom sound.isRanked
    rw [Edges.nodes_ofSteps] at all
    exact all.trans (Ascending.ofList_perm sound.numbers)
  ascending _ := Edges.pairwise_of_mem_levels
  earlier before level after same step member here raw target number refers := by
    obtain ⟨deps, edge, placed⟩ := Edges.dependencies_placed same here
    obtain ⟨_, other, known, rfl, _⟩ := sound.references step member raw target number refers
    have depends := Edges.mem_of_ofSteps member refers (List.mem_map_of_mem known)
    rw [Edges.of_eq_of_mem_ofSteps edge] at depends
    simpa using placed _ depends

end Structure

end Tollgate
