import Mathlib.Data.List.Perm.Subperm
import Tollgate.Proofs.Plan.Levelling

/-!
# The search for cycles

The search is told by one relation with a case for each kind of step that it can
meet next: finished, under way or new.  A search that closes no cycle finishes
every step after all that it depends on.  The order in which it finishes is then
a rank that every edge lowers, so the levels hold each step exactly once.
-/

namespace Tollgate.Edges

def follow (edges : Edges) (depth : Nat) (opened : List Nat) (node : Nat) (search : Search)
    (next : Nat) : Search :=
  if search.finished.contains next then search
  else if (node :: opened).contains next then
    { search with cycles := search.cycles ++ [closedPath (node :: opened) next] }
  else visit edges depth (node :: opened) next search

theorem visit_succ (edges : Edges) (depth : Nat) (opened : List Nat) (node : Nat)
    (search : Search) :
    visit edges (depth + 1) opened node search =
      let search := (edges.of node).foldl (follow edges depth opened node) search
      { search with finished := node :: search.finished } := rfl

def start (edges : Edges) (search : Search) (node : Nat) : Search :=
  if search.finished.contains node then search else visit edges edges.length [] node search

theorem search_eq (edges : Edges) : edges.search = edges.nodes.foldl edges.start {} := rfl

/-- Meeting the targets in turn, on the way through the `opened` steps, given last first, leads
from one state of a search to another.  Nothing bounds how many steps may be under way. -/
inductive Explores (edges : Edges) : List Nat → List Nat → Search → Search → Prop
  | done (opened : List Nat) (search : Search) : Explores edges opened [] search search
  | skips {opened rest : List Nat} {next : Nat} {before after : Search}
      (finished : next ∈ before.finished) (later : Explores edges opened rest before after) :
      Explores edges opened (next :: rest) before after
  | closes {opened rest : List Nat} {next : Nat} {before after : Search}
      (unfinished : next ∉ before.finished) (meets : next ∈ opened)
      (later : Explores edges opened rest
        { before with cycles := before.cycles ++ [closedPath opened next] } after) :
      Explores edges opened (next :: rest) before after
  | opens {opened rest : List Nat} {next : Nat} {before between after : Search}
      (unfinished : next ∉ before.finished) (new : next ∉ opened)
      (inside : Explores edges (next :: opened) (edges.of next) before between)
      (later : Explores edges opened rest
        { between with finished := next :: between.finished } after) :
      Explores edges opened (next :: rest) before after

namespace Explores

variable {edges : Edges} {opened targets : List Nat} {before between after : Search}

private theorem append {others : List Nat} (first : Explores edges opened targets before between)
    (second : Explores edges opened others between after) :
    Explores edges opened (targets ++ others) before after := by
  induction first with
  | done => exact second
  | skips finished _ ih => exact .skips finished (ih second)
  | closes unfinished meets _ ih => exact .closes unfinished meets (ih second)
  | opens unfinished new inside _ _ ih => exact .opens unfinished new inside (ih second)

theorem foldl {step : Search → Nat → Search}
    (each : ∀ search, ∀ next ∈ targets, Explores edges opened [next] search (step search next)) :
    Explores edges opened targets before (targets.foldl step before) := by
  induction targets generalizing before with
  | nil => exact .done opened before
  | cons next rest ih =>
      have first := each before next List.mem_cons_self
      exact first.append (ih fun search later member =>
        each search later (List.mem_cons_of_mem next member))

theorem unique {other : Search} (h : Explores edges opened targets before after)
    (h' : Explores edges opened targets before other) : other = after := by
  induction h generalizing other with
  | done =>
      cases h'
      rfl
  | skips finished _ ih =>
      cases h' with
      | skips _ later => exact ih later
      | closes unfinished | opens unfinished => exact absurd finished unfinished
  | closes unfinished meets _ ih =>
      cases h' with
      | skips finished => exact absurd finished unfinished
      | closes _ _ later => exact ih later
      | opens _ new => exact absurd meets new
  | opens unfinished new _ _ ih_inside ih_later =>
      cases h' with
      | skips finished => exact absurd finished unfinished
      | closes _ meets => exact absurd meets new
      | opens _ _ inside later =>
          cases ih_inside inside
          exact ih_later later

end Explores

section Closed

variable {edges : Edges} (closed : ∀ node, edges.of node ⊆ edges.nodes)

include closed

private theorem explores_visit (depth : Nat) {opened : List Nat} {node : Nat}
    (distinct : (node :: opened).Nodup) (known : node :: opened ⊆ edges.nodes)
    (enough : edges.nodes.length ≤ depth + opened.length) {search : Search}
    (unfinished : node ∉ search.finished) :
    Explores edges opened [node] search (visit edges depth opened node search) := by
  induction depth generalizing opened node search with
  | zero =>
      have more := (List.subperm_of_subset distinct known).length_le
      rw [List.length_cons] at more
      omega
  | succ depth ih =>
      rw [visit_succ]
      refine .opens unfinished (List.nodup_cons.mp distinct).1
        (.foldl fun search next depended => ?_)
        (.done _ _)
      unfold follow
      split
      · next done => exact .skips (by simpa using done) (.done _ _)
      · next undone =>
          have unfinished : next ∉ search.finished := by simpa using undone
          split
          · next meets => exact .closes unfinished (by simpa using meets) (.done _ _)
          · next opens =>
              have new : next ∉ node :: opened := by simpa using opens
              refine ih (List.nodup_cons.mpr ⟨new, distinct⟩) ?_ ?_ unfinished
              · exact List.cons_subset.mpr ⟨closed node depended, known⟩
              · rw [List.length_cons]
                omega

theorem explores_search : Explores edges [] edges.nodes {} edges.search := by
  rw [search_eq]
  refine .foldl fun search node member => ?_
  unfold start
  split
  · next done => exact .skips (by simpa using done) (.done _ _)
  · next undone =>
      refine explores_visit closed _ (List.nodup_singleton node) ?_ ?_ (by simpa using undone)
      · simpa using member
      · simp [nodes]

end Closed

def Search.IsOrdered (edges : Edges) (search : Search) : Prop :=
  ∀ later node earlier, search.finished = later ++ node :: earlier → edges.of node ⊆ earlier

/-- What a part of a search does to reach its targets: cycles stay on record, and unless there
are any the targets are finished in order. -/
structure Settles (edges : Edges) (targets : List Nat) (before after : Search) : Prop where
  cycles : before.cycles <+: after.cycles
  kept : before.finished ⊆ after.finished
  ordered : after.cycles = [] → before.IsOrdered edges → after.IsOrdered edges
  settled : after.cycles = [] → targets ⊆ after.finished

namespace Settles

variable {edges : Edges} {targets : List Nat} {before between after : Search}

private theorem cycles_eq_nil (h : Settles edges targets before after)
    (none_after : after.cycles = []) : before.cycles = [] :=
  List.prefix_nil.mp (none_after ▸ h.cycles)

private theorem refl (here : targets ⊆ before.finished) : Settles edges targets before before where
  cycles := List.prefix_rfl
  kept := List.Subset.refl _
  ordered _ := id
  settled _ := here

private theorem of_cycle (cycle : List Nat) :
    Settles edges targets before { before with cycles := before.cycles ++ [cycle] } where
  cycles := List.prefix_append _ _
  kept := List.Subset.refl _
  ordered none_after := by simp at none_after
  settled none_after := by simp at none_after

private theorem cons {next : Nat} {rest : List Nat} (first : Settles edges [next] before between)
    (others : Settles edges rest between after) : Settles edges (next :: rest) before after where
  cycles := first.cycles.trans others.cycles
  kept := List.Subset.trans first.kept others.kept
  ordered none_after ordered :=
    others.ordered none_after (first.ordered (others.cycles_eq_nil none_after) ordered)
  settled none_after := by
    have done := first.settled (others.cycles_eq_nil none_after)
    exact List.cons_subset.mpr
      ⟨others.kept (done List.mem_cons_self), others.settled none_after⟩

private theorem finish {node : Nat} (h : Settles edges (edges.of node) before after) :
    Settles edges [node] before { after with finished := node :: after.finished } where
  cycles := h.cycles
  kept := List.Subset.trans h.kept (List.subset_cons_self _ _)
  settled _ := by simp
  ordered none_after ordered := by
    rintro (_ | ⟨first, later⟩) other earlier same
    · obtain ⟨rfl, rfl⟩ := List.cons.inj same
      exact h.settled none_after
    · exact h.ordered none_after ordered later other earlier (List.cons.inj same).2

end Settles

private theorem Explores.settles {edges : Edges} {opened targets : List Nat} {before after : Search}
    (h : Explores edges opened targets before after) : Settles edges targets before after := by
  induction h with
  | done => exact .refl (List.nil_subset _)
  | skips finished _ ih => exact .cons (.refl (by simpa using finished)) ih
  | closes _ _ _ ih => exact .cons (.of_cycle _) ih
  | opens _ _ _ _ ih_inside ih_later => exact .cons ih_inside.finish ih_later

theorem isRanked_of_cycles {edges : Edges} (closed : ∀ node, edges.of node ⊆ edges.nodes)
    (single : ∀ edge ∈ edges, edges.of edge.1 = edge.2)
    (acyclic : edges.cycles = []) :
    IsRanked (edges.search.finished.reverse.idxOf ·) [] edges := by
  have done := (explores_search closed).settles
  have ordered : edges.search.IsOrdered edges := by
    refine done.ordered acyclic ?_
    intro later node earlier nothing
    simp at nothing
  intro edge member d depends
  rw [← single edge member] at depends
  have finished : edge.1 ∈ edges.search.finished.reverse :=
    List.mem_reverse.mpr (done.settled acyclic (List.mem_map_of_mem member))
  obtain ⟨earlier, later, split, new⟩ := List.eq_append_cons_of_mem finished
  have reversed : edges.search.finished = later.reverse ++ edge.1 :: earlier.reverse := by
    rw [← List.reverse_reverse edges.search.finished, split]
    simp
  have before : d ∈ earlier := List.mem_reverse.mp (ordered _ _ _ reversed depends)
  refine .inr ⟨closed edge.1 depends, ?_⟩
  dsimp only
  rw [split, List.idxOf_append_of_mem before, List.idxOf_append_of_notMem new,
    List.idxOf_cons_self, Nat.add_zero]
  exact List.idxOf_lt_length_of_mem before

theorem of_ofSteps_subset (steps : List Step) (node : Nat) :
    (ofSteps steps).of node ⊆ (ofSteps steps).nodes := by
  intro d depends
  rcases of_eq_nil_or_mem (ofSteps steps) node with nothing | member
  · simp [nothing] at depends
  · obtain ⟨other, _, pair⟩ := List.mem_map.mp member
    rw [← (Prod.mk.inj pair).2, Ascending.mem_ofList, List.mem_filter] at depends
    simpa using depends.2

theorem isRanked_ofSteps {steps : List Step} (acyclic : (ofSteps steps).cycles = []) :
    ∃ rank, IsRanked rank [] (ofSteps steps) :=
  ⟨_, isRanked_of_cycles (of_ofSteps_subset steps) (fun _ => of_eq_of_mem_ofSteps) acyclic⟩

theorem flatten_levels_ofSteps {steps : List Step} (acyclic : (ofSteps steps).cycles = []) :
    (ofSteps steps).levels.flatten.Perm (Ascending.ofList (steps.map Step.number)) := by
  obtain ⟨rank, ranked⟩ := isRanked_ofSteps acyclic
  exact nodes_ofSteps steps ▸ flatten_levelsFrom ranked

end Tollgate.Edges
