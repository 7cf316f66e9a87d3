import Mathlib.Order.Bounds.Defs
import Tollgate.Proofs.Plan.Analysis
import Tollgate.Proofs.Plan.Circuits

/-!
# Depths

Where no step depends on itself, the levels hold every step, also of lists with
other faults.  A step that is not in the first level waited for one of the level
just before its own, so its level counts the steps of its longest chain of
dependencies, and no order puts it into an earlier one.
-/

namespace Tollgate

/-- The step stands in the level with this number, counted from zero. -/
def StandsAt (levels : List (List Nat)) (number depth : Nat) : Prop :=
  ∃ level, levels[depth]? = some level ∧ number ∈ level

section StandsAt

variable {levels : List (List Nat)} {number depth : Nat}

theorem standsAt_iff : StandsAt levels number depth ↔ ∃ before level after,
    levels = before ++ level :: after ∧ before.length = depth ∧ number ∈ level := by
  constructor
  · rintro ⟨level, found, member⟩
    obtain ⟨inside, rfl⟩ := List.getElem?_eq_some_iff.mp found
    refine ⟨levels.take depth, levels[depth], levels.drop (depth + 1), ?_, ?_, member⟩
    · rw [← List.drop_eq_getElem_cons inside, List.take_append_drop]
    · rw [List.length_take, Nat.min_eq_left inside.le]
  · rintro ⟨before, level, after, rfl, rfl, member⟩
    exact ⟨level, by simp, member⟩

theorem exists_standsAt : number ∈ levels.flatten ↔ ∃ depth, StandsAt levels number depth := by
  constructor
  · intro member
    obtain ⟨level, listed, inside⟩ := List.mem_flatten.mp member
    obtain ⟨depth, found⟩ := List.mem_iff_getElem?.mp listed
    exact ⟨depth, level, found, inside⟩
  · rintro ⟨depth, level, found, inside⟩
    exact List.mem_flatten.mpr ⟨level, List.mem_of_getElem? found, inside⟩

private theorem StandsAt.not_of_lt {other : Nat} (h : StandsAt levels number depth)
    (once : levels.flatten.Nodup) (above : depth < other) : ¬StandsAt levels number other := by
  rintro ⟨level', found', inside'⟩
  obtain ⟨level, found, inside⟩ := h
  obtain ⟨known, rfl⟩ := List.getElem?_eq_some_iff.mp found
  obtain ⟨known', rfl⟩ := List.getElem?_eq_some_iff.mp found'
  have apart := (List.nodup_flatten.mp once).2
  exact List.pairwise_iff_getElem.mp apart depth other known known' above inside inside'

theorem StandsAt.unique {other : Nat} (h : StandsAt levels number depth)
    (once : levels.flatten.Nodup) (h' : StandsAt levels number other) : depth = other := by
  rcases Nat.lt_trichotomy depth other with below | same | above
  · exact absurd h' (h.not_of_lt once below)
  · exact same
  · exact absurd h (h'.not_of_lt once above)

end StandsAt

namespace Edges

variable {placed : List Nat} {pending : Edges} {before after : List (List Nat)}
  {previous level : List Nat} {n : Nat}

theorem ne_nil_of_mem_levelsFrom (h : level ∈ levelsFrom placed pending) : level ≠ [] := by
  fun_induction levelsFrom placed pending with
  | case1 placed pending goes _ ih =>
      rcases List.mem_cons.mp h with rfl | later
      · obtain ⟨edge, member, is_ready⟩ := List.any_eq_true.mp goes
        exact List.ne_nil_of_mem (List.mem_map_of_mem (List.mem_filter.mpr ⟨member, is_ready⟩))
      · exact ih later
  | case2 => cases h

private theorem exists_dependency_previous
    (h : levelsFrom placed pending = before ++ previous :: level :: after) (member : n ∈ level) :
    ∃ deps, (n, deps) ∈ pending ∧ ∃ d ∈ deps, d ∈ previous := by
  fun_induction levelsFrom placed pending generalizing before with
  | case1 placed pending goes _ ih =>
      cases before with
      | nil =>
          obtain ⟨now, later⟩ := List.cons.inj h
          obtain ⟨deps, waits, known⟩ := @dependencies_placed _ _ [] _ _ later _ member
          obtain ⟨here, unready⟩ := List.mem_filter.mp waits
          simp only [isReady, Bool.not_eq_true', List.all_eq_false] at unready
          obtain ⟨d, depends, unplaced⟩ := unready
          refine ⟨deps, here, d, depends, ?_⟩
          rw [List.flatten_nil, List.append_nil] at known
          rcases List.mem_append.mp (known d depends) with earlier | now_ready
          · exact absurd (List.contains_iff_mem.mpr earlier) unplaced
          · exact now ▸ now_ready
      | cons first before =>
          obtain ⟨_, later⟩ := List.cons.inj h
          obtain ⟨deps, waits, waited⟩ := ih later
          exact ⟨deps, List.mem_of_mem_filter waits, waited⟩
  | case2 => simp at h

section OfSteps

variable {steps : List Step} {number other depth : Nat}

theorem exists_standsAt_of_refers (h : StandsAt (ofSteps steps).levels number depth)
    (refers : Structure.Refers steps number other) :
    ∃ below < depth, StandsAt (ofSteps steps).levels other below := by
  obtain ⟨before, level, after, split, rfl, member⟩ := standsAt_iff.mp h
  have inside := mem_of_direct split member (mem_of_ofSteps_iff.mpr refers)
  obtain ⟨below, earlier, found, here⟩ := exists_standsAt.mp inside
  have lower : below < before.length := (List.getElem?_eq_some_iff.mp found).1
  exact ⟨below, lower, earlier, by rw [split, List.getElem?_append_left lower, found], here⟩

theorem exists_refers_standsAt (h : StandsAt (ofSteps steps).levels number (depth + 1)) :
    ∃ other, Structure.Refers steps number other ∧ StandsAt (ofSteps steps).levels other depth := by
  obtain ⟨before, level, after, split, length, member⟩ := standsAt_iff.mp h
  obtain rfl | ⟨before, previous, rfl⟩ := before.eq_nil_or_concat
  · simp at length
  · rw [List.concat_eq_append, List.append_assoc, List.singleton_append] at split
    obtain ⟨deps, edge, other, depends, here⟩ := exists_dependency_previous split member
    rw [← of_eq_of_mem_ofSteps edge] at depends
    refine ⟨other, mem_of_ofSteps_iff.mp depends, standsAt_iff.mpr ?_⟩
    exact ⟨before, previous, level :: after, split, by simpa using length, here⟩

end OfSteps

end Edges

namespace Structure

/-- Levels that hold every step once, as deep as its longest chain of dependencies is long. -/
structure IsDepthOrder (steps : List Step) (levels : List (List Nat)) : Prop where
  once : levels.flatten.Nodup
  all : ∀ number, number ∈ levels.flatten ↔ number ∈ steps.map Step.number
  nonempty : ∀ level ∈ levels, level ≠ []
  ascending : ∀ level ∈ levels, level.Pairwise (· < ·)
  zero : ∀ number depth, StandsAt levels number depth →
    (depth = 0 ↔ ∀ other, ¬Refers steps number other)
  succ : ∀ number depth, StandsAt levels number (depth + 1) →
    IsGreatest {below | ∃ other, Refers steps number other ∧ StandsAt levels other below} depth
  earlier : ∀ number other depth below, Refers steps number other →
    StandsAt levels number depth → StandsAt levels other below → below < depth
  longest : ∀ number depth, StandsAt levels number depth →
    IsGreatest {length | ∃ chain, (number :: chain).IsChain (Refers steps) ∧ chain.length = length}
      depth
  least : ∀ place : Nat → Nat,
    (∀ number other, Refers steps number other → place other < place number) →
      ∀ number depth, StandsAt levels number depth → depth ≤ place number

section Depths

variable {steps : List Step} {number other depth : Nat}

theorem length_le_of_standsAt {chain : List Nat} (leads : (number :: chain).IsChain (Refers steps))
    (h : StandsAt (Edges.ofSteps steps).levels number depth) : chain.length ≤ depth := by
  induction chain generalizing number depth with
  | nil => exact Nat.zero_le _
  | cons other rest ih =>
      obtain ⟨refers, leads⟩ := List.isChain_cons_cons.mp leads
      obtain ⟨below, lower, there⟩ := Edges.exists_standsAt_of_refers h refers
      exact (Nat.succ_le_succ (ih leads there)).trans lower

theorem exists_chain_of_standsAt (h : StandsAt (Edges.ofSteps steps).levels number depth) :
    ∃ chain, (number :: chain).IsChain (Refers steps) ∧ chain.length = depth := by
  induction depth generalizing number with
  | zero => exact ⟨[], .singleton _, rfl⟩
  | succ depth ih =>
      obtain ⟨other, refers, there⟩ := Edges.exists_refers_standsAt h
      obtain ⟨chain, leads, length⟩ := ih there
      exact ⟨other :: chain, .cons_cons refers leads, by rw [List.length_cons, length]⟩

private theorem le_place_of_standsAt {place : Nat → Nat}
    (lowers : ∀ number other, Refers steps number other → place other < place number)
    (h : StandsAt (Edges.ofSteps steps).levels number depth) : depth ≤ place number := by
  induction depth generalizing number with
  | zero => exact Nat.zero_le _
  | succ depth ih =>
      obtain ⟨other, refers, there⟩ := Edges.exists_refers_standsAt h
      exact (ih there).trans_lt (lowers number other refers)

end Depths

theorem isDepthOrder_levels {steps : List Step} (acyclic : IsAcyclic steps) :
    IsDepthOrder steps (Edges.ofSteps steps).levels := by
  obtain ⟨rank, ranked⟩ := Edges.exists_isRanked acyclic
  have placed := Edges.flatten_levelsFrom ranked
  rw [Edges.nodes_ofSteps] at placed
  have once : (Edges.ofSteps steps).levels.flatten.Nodup :=
    placed.nodup_iff.mpr (Ascending.nodup_ofList _)
  have earlier (number other depth below : Nat) (refers : Refers steps number other)
      (h : StandsAt (Edges.ofSteps steps).levels number depth)
      (there : StandsAt (Edges.ofSteps steps).levels other below) : below < depth := by
    obtain ⟨place, lower, found⟩ := Edges.exists_standsAt_of_refers h refers
    rwa [there.unique once found]
  constructor
  case once => exact once
  case all => exact fun number => placed.mem_iff.trans Ascending.mem_ofList
  case nonempty => exact fun _ => Edges.ne_nil_of_mem_levelsFrom
  case ascending => exact fun _ => Edges.pairwise_of_mem_levels
  case zero =>
    intro number depth h
    constructor
    · rintro rfl other refers
      obtain ⟨below, lower, _⟩ := Edges.exists_standsAt_of_refers h refers
      exact Nat.not_lt_zero below lower
    · intro free
      cases depth with
      | zero => rfl
      | succ depth =>
          obtain ⟨other, refers, _⟩ := Edges.exists_refers_standsAt h
          exact absurd refers (free other)
  case succ =>
    intro number depth h
    refine ⟨Edges.exists_refers_standsAt h, ?_⟩
    rintro below ⟨other, refers, there⟩
    exact Nat.le_of_lt_succ (earlier number other _ below refers h there)
  case earlier => exact earlier
  case longest =>
    intro number depth h
    refine ⟨exists_chain_of_standsAt h, ?_⟩
    rintro length ⟨chain, leads, rfl⟩
    exact length_le_of_standsAt leads h
  case least => exact fun place lowers number depth => le_place_of_standsAt lowers

end Structure

namespace Plan

/-- A plan and an analysis take the levels as they are, also those of steps with other faults. -/
theorem levels_are_depths {steps : List Step} (acyclic : Structure.IsAcyclic steps) :
    Structure.IsDepthOrder steps (Edges.ofSteps steps).levels ∧
      (analyze steps).levels = (Edges.ofSteps steps).levels ∧
      ∀ plan, build steps = .ok plan → plan.levels = (Edges.ofSteps steps).levels := by
  refine ⟨Structure.isDepthOrder_levels acyclic, ?_, ?_⟩
  · exact (analyze_of_acyclic ((Edges.cycles_eq_nil_iff steps).mpr acyclic)).2.1
  · rintro plan built
    rw [(build_eq_ok_iff.mp built).2]
    rfl

def tangled : List Step :=
  [(Step.make 3 "math" "add").withInput "a" (.string "$step1.step1_output + $step2.step2_output"),
    (Step.make 1 "math" "add").withInput "a"
      (.string "$step2.step2_output and $step9.step9_output"),
    Step.make 2 "math" "identity", Step.make 2 "math" "identity"]

theorem levels_are_depths_tangled :
    Structure.IsAcyclic tangled ∧ issues tangled ≠ [] ∧ (analyze tangled).levels = [[2], [1], [3]] ∧
      Structure.IsDepthOrder tangled (analyze tangled).levels := by
  have acyclic : Structure.IsAcyclic tangled :=
    (Edges.cycles_eq_nil_iff tangled).mp (by decide +kernel)
  obtain ⟨depths, same, _⟩ := levels_are_depths acyclic
  refine ⟨acyclic, ?_, ?_, ?_⟩
  · decide +kernel
  · decide +kernel
  · rw [same]
    exact depths

end Plan

end Tollgate
