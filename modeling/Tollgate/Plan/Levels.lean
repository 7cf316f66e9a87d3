import Tollgate.Plan.Edges

/-!
# Levels and the critical path

A level holds the steps whose dependencies all lie in earlier levels.  The
critical path is a longest chain of dependencies; between chains of one length
the one through the lower step is taken.
-/

namespace Tollgate.Edges

def isReady (placed : List Nat) (edge : Nat × List Nat) : Bool :=
  edge.2.all fun dependency => placed.contains dependency

def ready (placed : List Nat) (pending : Edges) : List Nat :=
  nodes (pending.filter (isReady placed))

def waiting (placed : List Nat) (pending : Edges) : Edges :=
  pending.filter fun edge => !isReady placed edge

theorem length_waiting_lt {placed : List Nat} {pending : Edges}
    (h : pending.any (isReady placed) = true) :
    (waiting placed pending).length < pending.length := by
  obtain ⟨edge, member, goes⟩ := List.any_eq_true.mp h
  exact List.length_filter_lt_length_iff_exists.mpr ⟨edge, member, by simp [goes]⟩

def levelsFrom (placed : List Nat) (pending : Edges) : List (List Nat) :=
  if h : pending.any (isReady placed) = true then
    have := length_waiting_lt h
    ready placed pending ::
      levelsFrom (placed ++ ready placed pending) (waiting placed pending)
  else []
  termination_by pending.length

def levels (edges : Edges) : List (List Nat) := levelsFrom [] edges

/-- How a step is reached: the length of the longest chain to it, and the step before it there. -/
structure Arrival where
  length : Nat
  previous : Option Nat
  deriving DecidableEq, Repr

abbrev Arrivals := List (Nat × Arrival)

namespace Arrivals

def lengthTo (arrivals : Arrivals) (node : Nat) : Nat :=
  ((arrivals.lookup node).map Arrival.length).getD 0

def previousOf (arrivals : Arrivals) (node : Nat) : Option Nat :=
  (arrivals.lookup node).bind Arrival.previous

/-- The first of the steps with the longest chain. -/
def farthest (arrivals : Arrivals) : List Nat → Option Nat
  | [] => none
  | node :: rest =>
      some (rest.foldl (fun best other =>
        if arrivals.lengthTo best < arrivals.lengthTo other then other else best) node)

def through (arrivals : Arrivals) (dependencies : List Nat) : Arrival :=
  let previous := arrivals.farthest dependencies
  ⟨(previous.map arrivals.lengthTo).getD 0 + 1, previous⟩

def back (arrivals : Arrivals) : Nat → Nat → List Nat
  | 0, _ => []
  | bound + 1, node =>
      match arrivals.previousOf node with
      | none => [node]
      | some previous => node :: back arrivals bound previous

end Arrivals

def arrivals (edges : Edges) (order : List Nat) : Arrivals :=
  order.foldl (fun known node => (node, known.through (edges.of node)) :: known) []

def criticalPath (edges : Edges) (levels : List (List Nat)) : List Nat :=
  let arrivals := edges.arrivals levels.flatten
  match arrivals.farthest edges.nodes with
  | none => []
  | some last => (arrivals.back edges.length last).reverse

end Tollgate.Edges
