import Tollgate.Plan.Edges

/-!
# Cycles

A depth-first search follows the edges from every step.  Meeting a step that is
still open closes a cycle, which is reported as a path that ends where it
began.
-/

namespace Tollgate.Edges

structure Search where
  finished : List Nat := []
  cycles : List (List Nat) := []

/-- The closed path from the open step `node` to itself, the open steps given last first. -/
def closedPath (opened : List Nat) (node : Nat) : List Nat :=
  node :: (opened.takeWhile (· ≠ node)).reverse ++ [node]

/-- Follows `node`, with `opened` the steps under way; `depth` bounds how many more may open. -/
def visit (edges : Edges) : Nat → List Nat → Nat → Search → Search
  | 0, _, _, search => search
  | depth + 1, opened, node, search =>
      let follow (search : Search) (next : Nat) : Search :=
        if search.finished.contains next then search
        else if (node :: opened).contains next then
          { search with cycles := search.cycles ++ [closedPath (node :: opened) next] }
        else visit edges depth (node :: opened) next search
      let search := (edges.of node).foldl follow search
      { search with finished := node :: search.finished }

def search (edges : Edges) : Search :=
  edges.nodes.foldl
    (fun search node =>
      if search.finished.contains node then search
      else visit edges edges.length [] node search) {}

def cycles (edges : Edges) : List (List Nat) := edges.search.cycles

end Tollgate.Edges
