import Mathlib.Data.List.Rotate
import Tollgate.Proofs.Plan.Dependence
import Tollgate.Proofs.Plan.Search

/-!
# The cycles that a search reports

The steps under way form a path, each a dependency of the one before it, so
meeting one of them again closes a circuit.  A circuit is reported by the edge
that closes it while all of its steps are under way.  The last of them to open
finishes before anything else is met, so no circuit is reported again, not even
from another of its steps.
-/

namespace Tollgate

/-- A path over distinct steps that leads from each to the next and ends where it began. -/
def IsCircuit (leads : Nat → Nat → Prop) (path : List Nat) : Prop :=
  ∃ first rest, path = first :: rest ++ [first] ∧ (first :: rest).Nodup ∧ path.IsChain leads

theorem IsCircuit.exists_transGen {leads : Nat → Nat → Prop} {path : List Nat}
    (circuit : IsCircuit leads path) : ∃ number, Relation.TransGen leads number number := by
  obtain ⟨first, rest, rfl, _, chain⟩ := circuit
  cases rest with
  | nil => exact ⟨first, .single (List.isChain_pair.mp chain)⟩
  | cons next rest =>
      obtain ⟨lead, later⟩ := List.isChain_cons_cons.mp chain
      have back : Relation.ReflTransGen leads next first :=
        List.relationReflTransGen_of_exists_isChain_cons (rest ++ [first]) later (by simp)
      exact ⟨first, .head' lead back⟩

theorem IsCircuit.mem_dropLast {leads : Nat → Nat → Prop} {path : List Nat}
    (circuit : IsCircuit leads path) {number : Nat} : number ∈ path.dropLast ↔ number ∈ path := by
  obtain ⟨first, rest, rfl, _, _⟩ := circuit
  rw [List.dropLast_concat, List.mem_append, List.mem_singleton]
  exact (or_iff_left_of_imp fun same => same ▸ List.mem_cons_self).symm

namespace Edges

section ClosedPath

variable {opened : List Nat} {node other n : Nat}

theorem mem_closedPath :
    n ∈ closedPath opened node ↔ n = node ∨ n ∈ opened.takeWhile (· ≠ node) := by
  simp only [closedPath, List.cons_append, List.mem_cons, List.mem_append, List.mem_reverse,
    List.not_mem_nil, or_false]
  tauto

theorem closedPath_subset (meets : node ∈ opened) : closedPath opened node ⊆ opened := by
  intro n member
  rcases mem_closedPath.mp member with rfl | inside
  · exact meets
  · exact (List.takeWhile_sublist _).subset inside

theorem top_mem_closedPath {top : Nat} : top ∈ closedPath (top :: opened) node := by
  apply mem_closedPath.mpr
  by_cases same : top = node
  · exact .inl same
  · exact .inr (by simp [same])

private theorem not_mem_takeWhile (h : node ∈ opened.takeWhile (· ≠ other)) :
    other ∉ opened.takeWhile (· ≠ node) := by
  induction opened with
  | nil => cases h
  | cons top rest ih =>
      by_cases first : top = node
      · simp [first]
      · by_cases last : top = other
        · simp [last] at h
        · have later : node ∈ rest.takeWhile (· ≠ other) := by
            simpa [last, Ne.symm first] using h
          simpa [first, Ne.symm last] using ih later

theorem exists_mem_closedPath (differ : node ≠ other) :
    ∃ n, ¬(n ∈ closedPath opened node ↔ n ∈ closedPath opened other) := by
  -- Both paths end at the step opened last; the one that goes back further holds more steps.
  by_cases further : node ∈ closedPath opened other
  · have inside := (mem_closedPath.mp further).resolve_left differ
    refine ⟨other, fun same => ?_⟩
    rcases mem_closedPath.mp (same.mpr (mem_closedPath.mpr (.inl rfl))) with equal | outside
    · exact differ equal.symm
    · exact not_mem_takeWhile inside outside
  · exact ⟨node, fun same => further (same.mp (mem_closedPath.mpr (.inl rfl)))⟩

end ClosedPath

/-- The steps under way, last first: each is a dependency of the one opened before it. -/
structure IsWay (edges : Edges) (opened : List Nat) (search : Search) : Prop where
  distinct : opened.Nodup
  led : opened.IsChain fun node earlier => node ∈ edges.of earlier
  unfinished : ∀ node ∈ opened, node ∉ search.finished

namespace IsWay

variable {edges : Edges} {opened : List Nat} {search : Search} {next : Nat}

theorem cons (way : IsWay edges opened search) (unfinished : next ∉ search.finished)
    (new : next ∉ opened) (led : ∀ top ∈ opened.head?, next ∈ edges.of top) :
    IsWay edges (next :: opened) search where
  distinct := List.nodup_cons.mpr ⟨new, way.distinct⟩
  led := List.isChain_cons.mpr ⟨led, way.led⟩
  unfinished := List.forall_mem_cons.mpr ⟨unfinished, way.unfinished⟩

theorem isCircuit_closedPath (way : IsWay edges opened search) (meets : next ∈ opened)
    (led : ∀ top ∈ opened.head?, next ∈ edges.of top) :
    IsCircuit (fun node other => other ∈ edges.of node) (closedPath opened next) := by
  obtain ⟨inner, outer, rfl, outside⟩ := List.eq_append_cons_of_mem meets
  have others : ∀ n ∈ inner, decide (n ≠ next) = true := fun n member =>
    decide_eq_true fun same => outside (same ▸ member)
  have here : (inner ++ next :: outer).takeWhile (· ≠ next) = inner := by
    rw [List.takeWhile_append_of_pos others]
    simp
  have back : next :: inner.reverse = (inner ++ [next]).reverse := by simp
  have part : inner ++ [next] <+: inner ++ next :: outer := ⟨outer, by simp⟩
  have led_part := List.IsChain.prefix way.led part
  refine ⟨next, inner.reverse, by rw [closedPath, here], ?_, ?_⟩
  · rw [back, List.nodup_reverse]
    exact way.distinct.sublist part.sublist
  · rw [closedPath, here, back]
    apply List.isChain_append.mpr
    refine ⟨List.isChain_reverse.mpr led_part, .singleton _, ?_⟩
    intro top last other first
    obtain rfl : next = other := by simpa using first
    apply led top
    rw [List.getLast?_reverse] at last
    cases inner <;> simpa using last

end IsWay

/-- What exploring the targets adds to the record of a search: circuits of steps that had not been
finished, each of which has a finished step since then or is closed by a target. -/
structure Reports (edges : Edges) (opened targets : List Nat) (before after : Search)
    (found : List (List Nat)) : Prop where
  cycles : after.cycles = before.cycles ++ found
  kept : before.finished ⊆ after.finished
  unfinished : ∀ node ∈ opened, node ∉ after.finished
  circuits : ∀ path ∈ found, IsCircuit (fun node other => other ∈ edges.of node) path
  fresh : ∀ path ∈ found, ∀ node ∈ path, node ∉ before.finished
  spent : ∀ path ∈ found, (∃ node ∈ path, node ∈ after.finished) ∨
    ∃ target ∈ targets, target ∈ opened ∧ path = closedPath opened target
  apart : found.Pairwise fun path other => ∃ node, ¬(node ∈ path ↔ node ∈ other)

namespace Reports

variable {edges : Edges} {opened targets rest : List Nat} {before between after : Search}
  {found later : List (List Nat)} {next : Nat}

theorem none (way : IsWay edges opened before) : Reports edges opened targets before before [] where
  cycles := (List.append_nil _).symm
  kept := List.Subset.refl _
  unfinished := way.unfinished
  circuits := by simp
  fresh := by simp
  spent := by simp
  apart := .nil

theorem close (way : IsWay edges opened before) (meets : next ∈ opened)
    (led : ∀ top ∈ opened.head?, next ∈ edges.of top) :
    Reports edges opened [next] before
      { before with cycles := before.cycles ++ [closedPath opened next] }
      [closedPath opened next] where
  cycles := rfl
  kept := List.Subset.refl _
  unfinished := way.unfinished
  circuits := by simpa using way.isCircuit_closedPath meets led
  fresh := by
    rintro path member node inside
    rw [List.mem_singleton.mp member] at inside
    exact way.unfinished node (closedPath_subset meets inside)
  spent path member :=
    .inr ⟨next, List.mem_singleton_self next, meets, List.mem_singleton.mp member⟩
  apart := List.pairwise_singleton _ _

theorem finish (inside : Reports edges (next :: opened) (edges.of next) before after found)
    (new : next ∉ opened) :
    Reports edges opened [next] before { after with finished := next :: after.finished } found where
  cycles := inside.cycles
  kept := List.Subset.trans inside.kept (List.subset_cons_self _ _)
  unfinished node member := by
    refine List.not_mem_cons_of_ne_of_not_mem (fun same => new (same ▸ member)) ?_
    exact inside.unfinished node (List.mem_cons_of_mem next member)
  circuits := inside.circuits
  fresh := inside.fresh
  spent path member := by
    rcases inside.spent path member with ⟨node, through, done⟩ | ⟨target, _, _, rfl⟩
    · exact .inl ⟨node, through, List.mem_cons_of_mem next done⟩
    · exact .inl ⟨next, top_mem_closedPath, List.mem_cons_self⟩
  apart := inside.apart

private theorem cons (first : Reports edges opened [next] before between found)
    (others : Reports edges opened rest between after later) (new : next ∉ rest) :
    Reports edges opened (next :: rest) before after (found ++ later) where
  cycles := by rw [others.cycles, first.cycles, List.append_assoc]
  kept := List.Subset.trans first.kept others.kept
  unfinished := others.unfinished
  circuits := List.forall_mem_append.mpr ⟨first.circuits, others.circuits⟩
  fresh := List.forall_mem_append.mpr ⟨first.fresh, fun path member node inside done =>
    others.fresh path member node inside (first.kept done)⟩
  spent := by
    refine List.forall_mem_append.mpr ⟨fun path member => ?_, fun path member => ?_⟩
    · rcases first.spent path member with ⟨node, through, done⟩ | ⟨target, met, closes⟩
      · exact .inl ⟨node, through, others.kept done⟩
      · exact .inr ⟨target, List.mem_cons.mpr (.inl (List.mem_singleton.mp met)), closes⟩
    · exact (others.spent path member).imp_right fun ⟨target, met, closes⟩ =>
        ⟨target, List.mem_cons_of_mem next met, closes⟩
  apart := by
    refine List.pairwise_append.mpr
      ⟨first.apart, others.apart, fun path member other reported => ?_⟩
    rcases first.spent path member with ⟨node, through, done⟩ | ⟨target, met, meets, rfl⟩
    · exact ⟨node, fun same => others.fresh other reported node (same.mp through) done⟩
    · obtain rfl := List.mem_singleton.mp met
      rcases others.spent other reported with ⟨node, through, done⟩ | ⟨target', met', _, rfl⟩
      · exact ⟨node, fun same =>
          others.unfinished node (closedPath_subset meets (same.mpr through)) done⟩
      · exact exists_mem_closedPath fun same => new (same ▸ met')

end Reports

private theorem Explores.reports {edges : Edges} (single : ∀ node, (edges.of node).Nodup)
    {opened targets : List Nat} {before after : Search}
    (h : Explores edges opened targets before after) (way : IsWay edges opened before)
    (distinct : targets.Nodup) (led : ∀ next ∈ targets, ∀ top ∈ opened.head?, next ∈ edges.of top) :
    ∃ found, Reports edges opened targets before after found := by
  induction h with
  | done => exact ⟨[], .none way⟩
  | skips _ _ ih =>
      obtain ⟨once, distinct⟩ := List.nodup_cons.mp distinct
      obtain ⟨later, others⟩ := ih way distinct (List.forall_mem_cons.mp led).2
      exact ⟨_, .cons (.none way) others once⟩
  | closes _ meets _ ih =>
      obtain ⟨once, distinct⟩ := List.nodup_cons.mp distinct
      obtain ⟨led_next, led_rest⟩ := List.forall_mem_cons.mp led
      have first := Reports.close way meets led_next
      obtain ⟨later, others⟩ := ih ⟨way.distinct, way.led, way.unfinished⟩ distinct led_rest
      exact ⟨_, first.cons others once⟩
  | @opens opened rest next before between after unfinished new _ _ ih_inside ih_later =>
      obtain ⟨once, distinct⟩ := List.nodup_cons.mp distinct
      obtain ⟨led_next, led_rest⟩ := List.forall_mem_cons.mp led
      have led_inside : ∀ d ∈ edges.of next, ∀ top ∈ (next :: opened).head?, d ∈ edges.of top := by
        intro d depends top last
        obtain rfl : next = top := by simpa using last
        exact depends
      obtain ⟨found, inside⟩ :=
        ih_inside (way.cons unfinished new led_next) (single next) led_inside
      have first := inside.finish new
      obtain ⟨later, others⟩ := ih_later ⟨way.distinct, way.led, first.unfinished⟩ distinct led_rest
      exact ⟨_, first.cons others once⟩

section OfSteps

variable (steps : List Step)

private theorem nodup_of_ofSteps (node : Nat) : ((ofSteps steps).of node).Nodup :=
  (pairwise_of_ofSteps steps node).imp Nat.ne_of_lt

theorem reports_search :
    Reports (ofSteps steps) [] (ofSteps steps).nodes {} (ofSteps steps).search
      (ofSteps steps).cycles := by
  have distinct : (ofSteps steps).nodes.Nodup := by
    rw [nodes_ofSteps]
    exact Ascending.nodup_ofList _
  obtain ⟨found, reports⟩ := (explores_search (of_ofSteps_subset steps)).reports
    (nodup_of_ofSteps steps) ⟨.nil, .nil, by simp⟩ distinct (by simp)
  have all : (ofSteps steps).cycles = found := by simpa [cycles] using reports.cycles
  rwa [all]

theorem isCircuit_of_mem_cycles {path : List Nat} (member : path ∈ (ofSteps steps).cycles) :
    IsCircuit (Structure.Refers steps) path := by
  have leads : (fun node other => other ∈ (ofSteps steps).of node) = Structure.Refers steps := by
    funext node other
    exact propext mem_of_ofSteps_iff
  rw [← leads]
  exact (reports_search steps).circuits path member

theorem cycles_eq_nil_iff : (ofSteps steps).cycles = [] ↔ Structure.IsAcyclic steps := by
  constructor
  · intro acyclic
    obtain ⟨rank, ranked⟩ := isRanked_ofSteps acyclic
    exact isAcyclic_of_isRanked ranked
  · intro acyclic
    apply List.eq_nil_iff_forall_not_mem.mpr
    intro path member
    obtain ⟨number, depends⟩ := (isCircuit_of_mem_cycles steps member).exists_transGen
    exact acyclic number depends

end OfSteps

end Edges

namespace Structure

variable {steps : List Step} {number other : Nat}

private theorem Refers.mem_issues (refers : Refers steps number other) (up : number ≤ other) :
    .selfReference number ∈ issues steps ∨ .forward number other ∈ issues steps := by
  obtain ⟨known, step, member, rfl, target, mentioned⟩ := refers
  obtain ⟨raw, listed⟩ := Step.exists_mem_stepReferences.mpr mentioned
  obtain ⟨output, found⟩ := exists_outputOf? known
  have report {issue : Issue} (h : issue ∈ referenceIssues steps step (raw, target, other)) :
      issue ∈ issues steps := by
    have nonempty : steps.isEmpty = false :=
      List.isEmpty_eq_false_iff.mpr (List.ne_nil_of_mem member)
    rw [issues, nonempty, if_neg Bool.false_ne_true]
    refine List.mem_append_right _ (List.mem_flatMap.mpr ⟨step, member, ?_⟩)
    exact List.mem_append_left _ (List.mem_flatMap.mpr ⟨_, listed, h⟩)
  rcases Nat.eq_or_lt_of_le up with same | above
  · refine .inl (report ?_)
    simp [referenceIssues, found, same]
  · refine .inr (report ?_)
    simp [referenceIssues, found, above, Nat.ne_of_gt above]

private theorem exists_refers_of_not_isAcyclic (cyclic : ¬IsAcyclic steps) :
    ∃ number other, Refers steps number other ∧ number ≤ other := by
  by_contra! descends
  exact cyclic (isAcyclic_of_rank descends)

end Structure

/-- What a search for cycles in the edges of steps comes to: it ends, in one way only, and closes
circuits of which no two are the same if and only if some step depends on itself. -/
structure Edges.FindsCycles (steps : List Step) : Prop where
  ends : ∀ found, (ofSteps steps).Explores [] (ofSteps steps).nodes {} found ↔
    found = (ofSteps steps).search
  complete : (ofSteps steps).cycles ≠ [] ↔
    ∃ number, Relation.TransGen (Structure.Refers steps) number number
  circuits : ∀ path ∈ (ofSteps steps).cycles, IsCircuit (Structure.Refers steps) path
  apart : (ofSteps steps).cycles.Pairwise fun path other =>
    ¬path.dropLast.IsRotated other.dropLast
  rejected : (ofSteps steps).cycles ≠ [] → ∃ number,
    .selfReference number ∈ Structure.issues steps ∨
      ∃ other, .forward number other ∈ Structure.issues steps

theorem Edges.finds_cycles (steps : List Step) : FindsCycles steps where
  ends found := by
    have search := explores_search (of_ofSteps_subset steps)
    exact ⟨search.unique, fun same => same ▸ search⟩
  complete := by
    rw [ne_eq, cycles_eq_nil_iff, Structure.IsAcyclic, not_forall_not]
  circuits _ := isCircuit_of_mem_cycles steps
  apart := by
    refine (reports_search steps).apart.imp_of_mem fun reported reported' => ?_
    rintro ⟨node, differ⟩ rotated
    have circuit := isCircuit_of_mem_cycles steps reported
    have circuit' := isCircuit_of_mem_cycles steps reported'
    rw [← circuit.mem_dropLast, ← circuit'.mem_dropLast] at differ
    exact differ rotated.mem_iff
  rejected found := by
    rw [ne_eq, cycles_eq_nil_iff] at found
    obtain ⟨number, other, refers, up⟩ := Structure.exists_refers_of_not_isAcyclic found
    exact ⟨number, (refers.mem_issues up).imp_right fun forward => ⟨other, forward⟩⟩

example :
    Edges.cycles [(1, [2]), (2, [1, 3]), (3, [1, 3])] = [[1, 2, 1], [1, 2, 3, 1], [3, 3]] := by
  decide

end Tollgate
