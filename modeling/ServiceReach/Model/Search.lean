/-
  Breadth-first search over a relation given by lists of neighbours. Each node is visited once; a
  visit records the nodes first met at it. The search runs for a given number of visits, which the
  caller takes at least as large as the number of nodes there are.
-/

namespace ServiceReach.Search

variable {α : Type} [DecidableEq α]

/-- The nodes not seen before, each once, in order. -/
def fresh (seen : List α) (nodes : List α) : List α :=
  (nodes.filter fun n => !seen.contains n).eraseDups

/-- The visits that follow from a queue; each is a node with the nodes first met at it. -/
def visitsFrom (next : α → List α) : Nat → List α → List α → List (α × List α)
  | 0, _, _ => []
  | _ + 1, _, [] => []
  | fuel + 1, seen, n :: queue =>
    let met := fresh seen (next n)
    (n, met) :: visitsFrom next fuel (seen ++ met) (queue ++ met)

/-- The visits of a search from `start`. -/
def visits (next : α → List α) (fuel : Nat) (start : α) : List (α × List α) :=
  visitsFrom next fuel [start] [start]

/-- The nodes reached from `start`, nearest first, `start` included. -/
def reached (next : α → List α) (fuel : Nat) (start : α) : List α :=
  (visits next fuel start).map (·.1)

end ServiceReach.Search
