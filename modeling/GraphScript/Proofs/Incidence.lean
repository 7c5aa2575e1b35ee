import GraphScript.Proofs.Indexing
import GraphScript.Proofs.Orientation
import Mathlib.Algebra.GroupWithZero.Nat

/-!
# Edges at nodes

The edges of a graph can be asked for node by node. This module says that no edge is lost in this
way and that none comes up more often than it has ends.

* **At one node** (`Graph.mem_edgesAt_iff`): the edges at a node stand in the order of the table,
  and an edge is one of them from whichever of its ends it is looked at. Where edges have a
  direction, those at a node are those that come in and those that go out, and a loop does both.
* **At all nodes** (`Graph.sum_length_edgesAt`): counting the edges at each node is counting the
  nodes at each edge. The ends of an edge are among the nodes that are listed, and each node is
  listed once, so an edge goes out of one node, comes in at one node, and touches two unless it is a
  loop.
-/

namespace GraphScript

/-! ### Counting in two ways -/

section Counting

variable {α β : Type}

/-- Adding one in some places adds as many ones as there are such places. -/
theorem sum_map_add_ite (f : α → Nat) (q : α → Bool) (as : List α) :
    (as.map fun a => f a + if q a then 1 else 0).sum = (as.map f).sum + as.countP q := by
  induction as with
  | nil => rfl
  | cons a as ih =>
    simp only [List.map_cons, List.sum_cons, List.countP_cons, ih]
    omega

/-- Pairs that match can be counted from either side. -/
theorem sum_countP_comm (p : α → β → Bool) (as : List α) (bs : List β) :
    (bs.map fun b => as.countP (p · b)).sum = (as.map fun a => bs.countP (p a)).sum := by
  induction bs with
  | nil => simp
  | cons b bs ih =>
    simp only [List.map_cons, List.sum_cons, List.countP_cons, sum_map_add_ite, ih]
    rw [Nat.add_comm]

/-- A number that is the same everywhere, but one less in some places. -/
theorem sum_add_countP {f : α → Nat} {q : α → Bool} {n : Nat} {as : List α}
    (h : ∀ a ∈ as, f a + (if q a then 1 else 0) = n) :
    (as.map f).sum + as.countP q = n * as.length := by
  rw [← sum_map_add_ite, List.map_congr_left h]
  simp [Nat.mul_comm]

theorem countP_or_add_countP_and (p q : α → Bool) (as : List α) :
    as.countP (fun a => p a || q a) + as.countP (fun a => p a && q a) =
      as.countP p + as.countP q := by
  induction as with
  | nil => rfl
  | cons a as ih =>
    simp only [List.countP_cons]
    cases p a <;> cases q a <;> simp <;> omega

/-- Without repetitions, what is there is there once. -/
theorem countP_beq_of_mem {names : List String} (hnames : names.Nodup) {name : String}
    (hname : name ∈ names) : names.countP (name == ·) = 1 := by
  have hcount := List.count_eq_one_of_mem hnames hname
  rw [← hcount, List.count]
  exact List.countP_congr fun other _ => by rw [BEq.comm]

end Counting

/-! ### Nodes of one edge -/

namespace Edge

variable {names : List String} {e : Edge}

/-- Both ends of an edge are one node. -/
def isLoop (e : Edge) : Bool := e.tail == e.head

/-- An edge touches two nodes, or one if it is a loop. -/
theorem countP_touches (hnames : names.Nodup) (htail : e.tail ∈ names) (hhead : e.head ∈ names) :
    names.countP e.touches + (if e.isLoop then 1 else 0) = 2 := by
  have hboth := countP_or_add_countP_and (e.tail == ·) (e.head == ·) names
  have hloop : names.countP (fun name => e.tail == name && e.head == name) =
      if e.isLoop then 1 else 0 := by
    rw [isLoop]
    split
    · next hsame =>
      rw [beq_iff_eq] at hsame
      simp only [hsame, Bool.and_self]
      exact countP_beq_of_mem hnames hhead
    · next hne =>
      rw [List.countP_eq_zero]
      intro name _ hmeets
      rw [Bool.and_eq_true, beq_iff_eq, beq_iff_eq] at hmeets
      exact hne (beq_iff_eq.mpr (hmeets.1.trans hmeets.2.symm))
  rw [hloop, countP_beq_of_mem hnames htail, countP_beq_of_mem hnames hhead] at hboth
  exact hboth

end Edge

namespace Graph

variable {g : Graph}

theorem mem_edgesAt_iff {side : Side} {node : String} {e : Edge} :
    e ∈ g.edgesAt side node ↔ e ∈ g.edges.keys ∧ e.meets side node = true :=
  List.mem_filter

/-- **The edges at all nodes are as many as the nodes at all edges.** -/
theorem sum_length_edgesAt (g : Graph) (side : Side) :
    (g.nodeNames.map fun node => (g.edgesAt side node).length).sum =
      (g.edges.keys.map fun e => g.nodeNames.countP (e.meets side)).sum := by
  rw [← sum_countP_comm]
  simp only [edgesAt, List.countP_eq_length_filter]

theorem tail_mem_nodeNames {e : Edge} (he : e ∈ g.edges.keys) : e.tail ∈ g.nodeNames :=
  mem_nodeNames_iff.mpr (.inr ⟨e, he, .inl rfl⟩)

theorem head_mem_nodeNames {e : Edge} (he : e ∈ g.edges.keys) : e.head ∈ g.nodeNames :=
  mem_nodeNames_iff.mpr (.inr ⟨e, he, .inr rfl⟩)

theorem length_keys (g : Graph) : g.edges.keys.length = g.edges.size := List.length_map _

/-- On a side on which every edge meets one node, there are as many edges as in the table. -/
theorem sum_eq_size {side : Side}
    (h : ∀ e ∈ g.edges.keys, g.nodeNames.countP (e.meets side) = 1) :
    (g.nodeNames.map fun node => (g.edgesAt side node).length).sum = g.edges.size := by
  rw [sum_length_edgesAt, List.map_congr_left h, ← length_keys]
  simp

/-- What comes up at all nodes together is twice the edges, but every loop comes up only once. -/
theorem sum_either (g : Graph) :
    (g.nodeNames.map fun node => (g.edgesAt .either node).length).sum +
      g.edges.keys.countP Edge.isLoop = 2 * g.edges.size := by
  rw [sum_length_edgesAt, ← length_keys]
  exact sum_add_countP fun e he =>
    Edge.countP_touches g.nodup_nodeNames (tail_mem_nodeNames he) (head_mem_nodeNames he)

end Graph

namespace Session

variable {s : Session} {g : Nat} {graph : Graph}

/-- How the edges that come up at the nodes of a graph account for its edges. -/
structure Incidence (s : Session) (g : Nat) (graph : Graph) : Prop where
  /-- The edges at a node are answered as they are in the graph. Where edges have a direction, those
  that come in or go out can be asked for as well. -/
  edges (side : Side) (node : String) (hside : side = .either ∨ graph.kind = .directed) :
    (s.step (.ask g (.walk side node))).1 = .ok (.edges (graph.edgesAt side node))
  nodes : (s.step (.ask g .nodeNames)).1 = .ok (.names graph.nodeNames)
  /-- At a node there are the edges that have it as an end, in the order of the table and as they
  are written there, and none of them twice. -/
  either (node : String) :
    (graph.edgesAt .either node).Sublist graph.edges.keys ∧
      (graph.edgesAt .either node).Pairwise (fun e f => (e == f) = false) ∧
      ∀ e, e ∈ graph.edgesAt .either node ↔
        e ∈ graph.edges.keys ∧ (e.tail = node ∨ e.head = node)
  /-- They are those that come in and those that go out, and a loop does both. -/
  sides (node : String) (e : Edge) :
    (e ∈ graph.edgesAt .either node ↔
      e ∈ graph.edgesAt .incoming node ∨ e ∈ graph.edgesAt .outgoing node) ∧
    (e ∈ graph.edgesAt .incoming node ∧ e ∈ graph.edgesAt .outgoing node ↔
      e ∈ graph.edges.keys ∧ e.tail = node ∧ e.head = node)
  /-- Every edge goes out of one node. -/
  outgoing : (graph.nodeNames.map fun node => (graph.edgesAt .outgoing node).length).sum =
    graph.edges.size
  /-- Every edge comes in at one node. -/
  incoming : (graph.nodeNames.map fun node => (graph.edgesAt .incoming node).length).sum =
    graph.edges.size
  /-- Every edge comes up at both of its ends, and a loop comes up once. -/
  twice : (graph.nodeNames.map fun node => (graph.edgesAt .either node).length).sum +
    graph.edges.keys.countP (fun e => e.tail == e.head) = 2 * graph.edges.size

/-- **Every edge comes up once at each of its ends**, in every graph that commands lead to. -/
theorem incidence_run (cs : List Command) (g : Nat) {graph : Graph}
    (hg : (run {} cs).2.graph? g = some graph) : (run {} cs).2.Incidence g graph := by
  obtain ⟨-, hwf⟩ := run_induction Move.wellFormed cs exclusive_empty wellFormed_empty
  obtain ⟨t, ht, htree⟩ := exists_tree?_of_graph? hg
  obtain ⟨r, hr, hview⟩ := Option.map_eq_some_iff.mp hg
  have hdistinct : graph.edges.Distinct := hview ▸ (hwf.view hr).edges
  constructor
  case edges =>
    intro side node hside
    have hallows : graph.kind.allows side = .ok () := Kind.allows_eq_ok_iff.mpr hside
    rw [step_ask ht, GraphTree.answer, htree, Graph.walk, hallows]
    rfl
  case nodes =>
    rw [step_ask ht, GraphTree.answer, htree]
  case either =>
    intro node
    refine ⟨List.filter_sublist, ?_, fun e => ?_⟩
    · exact ((Table.distinct_iff_keys _).mp hdistinct).filter _
    · rw [Graph.mem_edgesAt_iff, Edge.meets, Edge.touches, Bool.or_eq_true, beq_iff_eq, beq_iff_eq]
  case sides =>
    intro node e
    simp only [Graph.mem_edgesAt_iff, Edge.meets, Edge.touches, Bool.or_eq_true, beq_iff_eq]
    tauto
  case outgoing =>
    exact Graph.sum_eq_size fun e he =>
      countP_beq_of_mem graph.nodup_nodeNames (Graph.tail_mem_nodeNames he)
  case incoming =>
    exact Graph.sum_eq_size fun e he =>
      countP_beq_of_mem graph.nodup_nodeNames (Graph.head_mem_nodeNames he)
  case twice => exact graph.sum_either

/-- A loop comes up once at its node, though it comes in there and goes out there. -/
theorem incidence_loop :
    let loop : Edge := ⟨.directed, "a", "a"⟩
    let edge : Edge := ⟨.directed, "b", "a"⟩
    let cs : List Command := [.create (some .directed) "", .edit 0 (.addNode "c" {} none),
      .edit 0 (.addEdge (.edge loop) {} none), .edit 0 (.addEdge (.edge edge) {} none)]
    let s := (run {} cs).2
    (s.step (.ask 0 (.walk .either "a"))).1 = .ok (.edges [loop, edge]) ∧
      (s.step (.ask 0 (.walk .outgoing "a"))).1 = .ok (.edges [loop]) ∧
      (s.step (.ask 0 (.walk .incoming "a"))).1 = .ok (.edges [loop, edge]) ∧
      ∃ graph : Graph, s.graph? 0 = some graph ∧
        (graph.nodeNames.map fun node => (graph.edgesAt .either node).length).sum + 1 = 2 * 2 := by
  intro loop edge cs s
  let graph : Graph :=
    { kind := .directed, nodes := ⟨[("c", ∅)]⟩, edges := ⟨[(loop, ∅), (edge, ∅)]⟩ }
  have hg : (run {} cs).2.graph? 0 = some graph := by rfl
  have laws := incidence_run cs 0 hg
  exact ⟨laws.edges .either "a" (.inl rfl), laws.edges .outgoing "a" (.inr rfl),
    laws.edges .incoming "a" (.inr rfl), graph, hg, laws.twice⟩

end Session

end GraphScript
