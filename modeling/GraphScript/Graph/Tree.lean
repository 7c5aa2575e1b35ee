import GraphScript.Graph

/-!
# Graphs with their subgraphs

A subgraph is a graph of its own inside another one, and may have subgraphs in turn. A
`GraphTree` is a graph together with everything nested in it.

`GraphTree.visited` lists the graphs of a tree in the order in which they take effect when the
tree is read from the outside in: the subgraphs of a graph come before it.
-/

namespace GraphScript

/-- A graph with its subgraphs, in the order in which they were made. -/
inductive GraphTree where
  | node (graph : Graph) (subgraphs : List GraphTree)

namespace GraphTree

/-- The graph itself. -/
def graph : GraphTree → Graph
  | node g _ => g

/-- The graphs directly inside it. -/
def subgraphs : GraphTree → List GraphTree
  | node _ ts => ts

mutual

/-- All graphs of a tree, subgraphs first. -/
def visited : GraphTree → List Graph
  | node g ts => visitedAll ts ++ [g]

/-- All graphs of several trees, tree by tree. -/
def visitedAll : List GraphTree → List Graph
  | [] => []
  | t :: ts => visited t ++ visitedAll ts

end

theorem visitedAll_eq_flatMap (ts : List GraphTree) : visitedAll ts = ts.flatMap visited := by
  induction ts with
  | nil => rfl
  | cons t ts ih => rw [visitedAll, ih, List.flatMap_cons]

/-- Subgraphs come before the graph that holds them. -/
theorem visited_eq (t : GraphTree) : t.visited = t.subgraphs.flatMap visited ++ [t.graph] := by
  cases t with
  | node g ts => rw [visited, visitedAll_eq_flatMap]; rfl

end GraphTree

end GraphScript
