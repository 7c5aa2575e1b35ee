import GraphScript.Session
import Mathlib.Data.List.Basic

/-!
# The trees of a session

`Session.trees` builds all graph trees in one pass. This module says what it builds, graph by
graph.

* `Session.Ordered`: every subgraph is younger than the graph that it is in.
* `Session.tree?_eq`: in an ordered session, the tree of a graph is the graph with the trees of
  its subgraphs.
-/

namespace GraphScript.Session

/-- Every subgraph is younger than the graph that it is in. -/
def Ordered (s : Session) : Prop :=
  ∀ (g : Nat) (r : GraphRecord), s.graphs[g]? = some r → ∀ i ∈ r.subgraphs, g < i

/-! ### One pass -/

@[simp] theorem length_treesFrom (s : Session) (first : Nat) (rs : List GraphRecord) :
    (s.treesFrom first rs).length = rs.length := by
  induction rs generalizing first with
  | nil => rfl
  | cons r rs ih => rw [treesFrom, List.length_cons, List.length_cons, ih]

/-- A subgraph stands as far behind its graph in the tail as their numbers say. -/
private theorem getElem?_cons_sub {α : Type} (x : α) (xs : List α) {first i : Nat}
    (h : first < i) : (x :: xs)[i - first]? = xs[i - (first + 1)]? := by
  rw [show i - first = (i - (first + 1)) + 1 by omega, List.getElem?_cons_succ]

/-- What the pass over the graphs finds for each of them. -/
theorem getElem?_treesFrom (s : Session) (first i : Nat) (rs : List GraphRecord) :
    (s.treesFrom first rs)[i]? = rs[i]?.map fun r =>
      .node (s.view r) (r.subgraphs.filterMap fun j =>
        if first + i < j then (s.treesFrom first rs)[j - first]? else none) := by
  induction rs generalizing first i with
  | nil => rfl
  | cons r rs ih =>
    rw [treesFrom]
    cases i with
    | zero =>
      refine congrArg (fun f => some (GraphTree.node (s.view r) (r.subgraphs.filterMap f)))
        (funext fun j => ?_)
      by_cases h : first < j
      · simp only [Nat.add_zero, if_pos h, getElem?_cons_sub _ _ h]
      · simp only [Nat.add_zero, if_neg h]
    | succ i =>
      rw [List.getElem?_cons_succ, List.getElem?_cons_succ, ih]
      refine congrArg (fun f => rs[i]?.map fun r => GraphTree.node (s.view r)
        (r.subgraphs.filterMap f)) (funext fun j => ?_)
      rw [Nat.add_right_comm, Nat.add_assoc]
      split
      · rw [getElem?_cons_sub _ _ (by omega)]
      · rfl

/-! ### Graph by graph -/

/-- There is a tree for each graph, and no other. -/
theorem isSome_tree? (s : Session) (g : Nat) : (s.tree? g).isSome = s.graphs[g]?.isSome := by
  rw [tree?, trees, getElem?_treesFrom, Option.isSome_map]

theorem exists_record_of_tree? {s : Session} {g : Nat} {t : GraphTree} (ht : s.tree? g = some t) :
    ∃ r, s.graphs[g]? = some r := by
  rw [← Option.isSome_iff_exists, ← isSome_tree?, ht, Option.isSome_some]

/-- The tree of a graph is the graph with the trees of its subgraphs. -/
theorem tree?_eq {s : Session} (h : s.Ordered) {g : Nat} {r : GraphRecord}
    (hr : s.graphs[g]? = some r) :
    s.tree? g = some (.node (s.view r) (r.subgraphs.filterMap s.tree?)) := by
  rw [tree?, trees, getElem?_treesFrom, hr, Option.map_some, Nat.zero_add]
  refine congrArg (fun ts => some (GraphTree.node (s.view r) ts))
    (List.filterMap_congr fun i hi => ?_)
  rw [if_pos (h g r hr i hi), Nat.sub_zero, tree?, trees]

end GraphScript.Session
