import Tollgate.Ascending
import Tollgate.Definition.Step

/-!
# Dependency edges

Every step number is listed once, in ascending order, with the ascending
numbers of the listed steps that it refers to.  Forward and self references are
kept, so that cycles show.
-/

namespace Tollgate

abbrev Edges := List (Nat × List Nat)

namespace Edges

def nodes (edges : Edges) : List Nat := edges.map Prod.fst

def of (edges : Edges) (node : Nat) : List Nat := (edges.lookup node).getD []

def referenced (steps : List Step) (node : Nat) : List Nat :=
  (steps.filter fun step => step.number == node).flatMap fun step =>
    step.stepReferences.map fun reference => reference.2.2

def ofSteps (steps : List Step) : Edges :=
  let nodes := Ascending.ofList (steps.map Step.number)
  nodes.map fun node =>
    (node, Ascending.ofList ((referenced steps node).filter fun n => nodes.contains n))

def converse (edges : Edges) : Edges :=
  edges.nodes.map fun node =>
    (node, (edges.filter fun edge => edge.2.contains node).map Prod.fst)

def unfound (edges : Edges) (found : List Nat) : Edges :=
  edges.filter fun edge => !found.contains edge.1

private theorem unfound_insert (edges : Edges) (found : List Nat) (next : Nat) :
    edges.unfound (Ascending.insert next found) =
      (edges.unfound found).filter fun edge => edge.1 != next := by
  unfold unfound
  rw [List.filter_filter]
  refine List.filter_congr fun edge _ => ?_
  rw [Bool.eq_iff_iff]
  simp [Ascending.mem_insert]

theorem of_eq_nil {edges : Edges} {node : Nat} (unlisted : node ∉ edges.nodes) :
    edges.of node = [] := by
  have nothing : edges.lookup node = none := by
    rw [List.lookup_eq_none_iff]
    intro edge member
    refine bne_iff_ne.mpr fun same => unlisted ?_
    exact same ▸ List.mem_map_of_mem member
  rw [of, nothing, Option.getD_none]

private theorem unfound_insert_lt (edges : Edges) {found rest : List Nat} {next : Nat}
    (new : ¬found.contains next = true) :
    Prod.Lex (· < ·) (· < ·)
      ((edges.unfound (Ascending.insert next found)).length,
        ((edges.of next).reverse ++ rest).length)
      ((edges.unfound found).length, (next :: rest).length) := by
  rw [unfound_insert]
  by_cases listed : next ∈ edges.nodes
  · obtain ⟨edge, member, rfl⟩ := List.mem_map.mp listed
    refine .left _ _ (List.length_filter_lt_length_iff_exists.mpr ⟨edge, ?_, by simp⟩)
    exact List.mem_filter.mpr ⟨member, by simpa using new⟩
  · have fewer := List.length_filter_le (fun edge => edge.1 != next) (edges.unfound found)
    rw [of_eq_nil listed, List.reverse_nil, List.nil_append, List.length_cons]
    rcases Nat.lt_or_eq_of_le fewer with less | same
    · exact .left _ _ less
    · rw [same]
      exact .right _ (Nat.lt_succ_self _)

/-- What was found, the pending steps and all that they depend on. -/
def closure (edges : Edges) (found pending : List Nat) : List Nat :=
  match pending with
  | [] => found
  | next :: rest =>
      if found.contains next then closure edges found rest
      else closure edges (Ascending.insert next found) ((edges.of next).reverse ++ rest)
  termination_by ((edges.unfound found).length, pending.length)
  decreasing_by
    · exact .right _ (Nat.lt_succ_self _)
    · next new => exact unfound_insert_lt edges new

def ancestors (edges : Edges) (node : Nat) : List Nat :=
  edges.closure [] (edges.of node).reverse

end Edges

end Tollgate
