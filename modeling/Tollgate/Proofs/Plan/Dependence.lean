import Mathlib.Data.Finset.Card
import Mathlib.Logic.Relation
import Tollgate.Proofs.Expr.Occurrence
import Tollgate.Proofs.Plan.Levelling

/-!
# Dependence between step numbers

The edges of a list of steps are the references that its steps make to existing
steps, whatever else is wrong with the list.  Where no step depends on itself,
steps rank by how many others they depend on.
-/

namespace Tollgate

namespace Structure

def Refers (steps : List Step) (number other : Nat) : Prop :=
  other ∈ steps.map Step.number ∧ ∃ step ∈ steps, step.number = number ∧
    ∃ target, step.Mentions target ∧ target.source = .step other

variable {steps : List Step} {number other : Nat}

theorem Refers.mem_left (refers : Refers steps number other) : number ∈ steps.map Step.number := by
  obtain ⟨_, step, member, rfl, _⟩ := refers
  exact List.mem_map_of_mem member

/-- No step depends on itself, directly or through others. -/
def IsAcyclic (steps : List Step) : Prop :=
  ∀ number, ¬Relation.TransGen (Refers steps) number number

theorem IsAcyclic.exists_rank (acyclic : IsAcyclic steps) :
    ∃ rank : Nat → Nat, ∀ number other, Refers steps number other → rank other < rank number := by
  classical
  let reached (number : Nat) : Finset Nat :=
    (steps.map Step.number).toFinset.filter (Relation.TransGen (Refers steps) number)
  refine ⟨fun number => (reached number).card, fun number other refers => ?_⟩
  have inside : reached other ⊆ reached number := by
    intro further member
    obtain ⟨known, depends⟩ := Finset.mem_filter.mp member
    exact Finset.mem_filter.mpr ⟨known, .head refers depends⟩
  have here : other ∈ reached number :=
    Finset.mem_filter.mpr ⟨List.mem_toFinset.mpr refers.1, .single refers⟩
  have missing : other ∉ reached other := fun member =>
    acyclic other (Finset.mem_filter.mp member).2
  apply Finset.card_lt_card
  exact (Finset.ssubset_iff_of_subset inside).mpr ⟨other, here, missing⟩

theorem isAcyclic_of_rank {rank : Nat → Nat}
    (lowers : ∀ number other, Refers steps number other → rank other < rank number) :
    IsAcyclic steps := by
  have falls {number other : Nat} (depends : Relation.TransGen (Refers steps) number other) :
      rank other < rank number := by
    induction depends with
    | single refers => exact lowers _ _ refers
    | tail _ refers ih => exact (lowers _ _ refers).trans ih
  exact fun number depends => Nat.lt_irrefl _ (falls depends)

end Structure

namespace Edges

variable {steps : List Step} {n d : Nat}

theorem mem_referenced :
    d ∈ referenced steps n ↔ ∃ step ∈ steps, step.number = n ∧
      ∃ target, step.Mentions target ∧ target.source = .step d := by
  simp only [referenced, List.mem_flatMap, List.mem_filter, List.mem_map, beq_iff_eq, and_assoc]
  refine exists_congr fun step => and_congr_right fun _ => and_congr_right fun _ => ?_
  constructor
  · rintro ⟨⟨raw, target, number⟩, listed, rfl⟩
    exact ⟨target, Step.exists_mem_stepReferences.mp ⟨raw, listed⟩⟩
  · rintro ⟨target, mentioned⟩
    obtain ⟨raw, listed⟩ := Step.exists_mem_stepReferences.mpr mentioned
    exact ⟨(raw, target, d), listed, rfl⟩

theorem mem_nodes_ofSteps : n ∈ nodes (ofSteps steps) ↔ n ∈ steps.map Step.number := by
  rw [nodes_ofSteps, Ascending.mem_ofList]

theorem mem_of_ofSteps_iff : d ∈ (ofSteps steps).of n ↔ Structure.Refers steps n d := by
  by_cases node : n ∈ steps.map Step.number
  · unfold of ofSteps
    rw [lookup_map _ (Ascending.mem_ofList.mpr node), Option.getD_some, Ascending.mem_ofList,
      List.mem_filter, mem_referenced, List.contains_iff_mem, Ascending.mem_ofList, and_comm]
    rfl
  · refine iff_of_false (fun depends => ?_) (fun refers => node refers.mem_left)
    rcases of_eq_nil_or_mem (ofSteps steps) n with nothing | member
    · simp [nothing] at depends
    · exact node (mem_nodes_ofSteps.mp (List.mem_map_of_mem member))

def DependsOn (edges : Edges) : Nat → Nat → Prop :=
  Relation.TransGen fun node other => other ∈ edges.of node

theorem dependsOn_ofSteps :
    (ofSteps steps).DependsOn n d ↔ Relation.TransGen (Structure.Refers steps) n d := by
  simp only [DependsOn, mem_of_ofSteps_iff]

theorem DependsOn.mem {before after : List (List Nat)} {level : List Nat}
    (depends : (ofSteps steps).DependsOn n d)
    (split : (ofSteps steps).levels = before ++ level :: after) (member : n ∈ level) :
    d ∈ before.flatten := by
  induction depends with
  | single direct => exact mem_of_direct split member direct
  | tail _ direct ih =>
      obtain ⟨earlier, present, inside⟩ := List.mem_flatten.mp ih
      obtain ⟨first, rest, rfl⟩ := List.append_of_mem present
      rw [List.append_assoc, List.cons_append] at split
      rw [List.flatten_append]
      exact List.mem_append_left _ (mem_of_direct split inside direct)

theorem exists_isRanked (acyclic : Structure.IsAcyclic steps) :
    ∃ rank, IsRanked rank [] (ofSteps steps) := by
  obtain ⟨rank, lowers⟩ := acyclic.exists_rank
  refine ⟨rank, fun edge member d depends => .inr ?_⟩
  rw [← of_eq_of_mem_ofSteps member, mem_of_ofSteps_iff] at depends
  exact ⟨mem_nodes_ofSteps.mpr depends.1, lowers _ _ depends⟩

theorem isAcyclic_of_isRanked {rank : Nat → Nat} (ranked : IsRanked rank [] (ofSteps steps)) :
    Structure.IsAcyclic steps := by
  have lowers (number other : Nat) (refers : Structure.Refers steps number other) :
      rank other < rank number := by
    obtain ⟨edge, member, rfl⟩ := List.mem_map.mp (mem_nodes_ofSteps.mpr refers.mem_left)
    rw [← mem_of_ofSteps_iff, of_eq_of_mem_ofSteps member] at refers
    exact ((ranked edge member other refers).resolve_left List.not_mem_nil).2
  exact Structure.isAcyclic_of_rank lowers

end Edges

end Tollgate
