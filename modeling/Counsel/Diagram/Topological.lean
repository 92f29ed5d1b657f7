/-
Topological order of a graph that is given by the parents of each node. Of the nodes whose parents
are all listed the one with the smallest number comes next; a node may name a parent repeatedly.
-/
namespace Counsel.Topological

/-- The state of a sort: how many parents of each node are not listed yet, the nodes that can be
listed in ascending order, and the nodes listed so far. -/
structure Progress where
  waiting : Array Nat
  ready : List Nat
  order : List Nat

/-- An ascending list with one more number, unless it is there. -/
def insertAscending (n : Nat) : List Nat → List Nat
  | [] => [n]
  | m :: rest =>
    if n < m then n :: m :: rest
    else if n = m then m :: rest
    else m :: insertAscending n rest

/-- The nodes that name a node as parent, as often as they name it. -/
def children (parents : List (List Nat)) (node : Nat) : List Nat :=
  parents.zipIdx.flatMap fun (ps, child) => (ps.filter (· == node)).map fun _ => child

/-- One parent of a node has been listed. -/
def Progress.release (s : Progress) (child : Nat) : Progress :=
  let left := s.waiting.getD child 0 - 1
  let ready := if left = 0 then insertAscending child s.ready else s.ready
  { s with waiting := s.waiting.setIfInBounds child left, ready }

/-- Lists the next node, if one is ready. -/
def Progress.step (parents : List (List Nat)) (s : Progress) : Progress :=
  match s.ready with
  | [] => s
  | node :: rest =>
    let s := { s with ready := rest, order := s.order ++ [node] }
    (children parents node).foldl Progress.release s

/-- Nothing listed; the nodes without parents are ready. -/
def Progress.start (parents : List (List Nat)) : Progress where
  waiting := (parents.map List.length).toArray
  ready := parents.zipIdx.filterMap fun (ps, node) => if ps.isEmpty then some node else none
  order := []

/-- The order of all nodes, parents first, or the first node that still waits for a parent. -/
def sort (parents : List (List Nat)) : Except Nat (List Nat) :=
  let s := Nat.repeat (Progress.step parents) parents.length (Progress.start parents)
  if s.order.length < parents.length then .error ((s.waiting.findIdx? (0 < ·)).getD 0)
  else .ok s.order

end Counsel.Topological
