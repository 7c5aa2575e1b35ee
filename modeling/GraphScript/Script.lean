import GraphScript.Graph.Tree

/-!
# Scripts

A graph with its subgraphs is told to others as a script: a kind, a name, and statements. The
statements of a graph are its subgraphs, each with statements of its own, then its attributes,
its nodes and its edges, all in the order of their tables.

* `GraphTree.statements` and `Script.ofTree` say what a script holds. How it is written down is
  the matter of `GraphScript.Script.Writer`.
* `GraphTree.statements_eq` unfolds the statements of a tree without a second function.
-/

namespace GraphScript

/-- A statement of a script. -/
inductive Statement where
  /-- A graph inside the graph, with statements of its own. -/
  | subgraph (name : String) (body : List Statement)
  /-- An attribute of the graph itself. -/
  | assignment (key value : String)
  /-- A node with its attributes. -/
  | node (name : String) (attrs : Attributes)
  /-- An edge with its attributes. -/
  | edge (edge : Edge) (attrs : Attributes)

/-- A kind, a name, and statements. -/
structure Script where
  kind : Kind
  name : String
  body : List Statement

namespace Graph

/-- The statements for the attributes of a graph itself. -/
def assignments (g : Graph) : List Statement := g.attrs.entries.map fun a => .assignment a.1 a.2

/-- The statements for the nodes in the table. -/
def nodeStatements (g : Graph) : List Statement := g.nodes.entries.map fun n => .node n.1 n.2

/-- The statements for the edges. -/
def edgeStatements (g : Graph) : List Statement := g.edges.entries.map fun e => .edge e.1 e.2

/-- The statements of a graph without its subgraphs. -/
def statements (g : Graph) : List Statement :=
  g.assignments ++ g.nodeStatements ++ g.edgeStatements

end Graph

namespace GraphTree

mutual

/-- The statements of a graph with its subgraphs. -/
def statements : GraphTree → List Statement
  | node g ts => blocks ts ++ g.statements

/-- The statements for graphs inside a graph. -/
def blocks : List GraphTree → List Statement
  | [] => []
  | node g ts :: rest => .subgraph g.name (statements (node g ts)) :: blocks rest

end

/-- The statement for a graph inside another one. -/
def block (t : GraphTree) : Statement := .subgraph t.graph.name t.statements

theorem blocks_eq_map (ts : List GraphTree) : blocks ts = ts.map block := by
  induction ts with
  | nil => rfl
  | cons t ts ih =>
    obtain ⟨g, inside⟩ := t
    rw [blocks, ih, List.map_cons]
    rfl

/-- Subgraphs come first. -/
theorem statements_eq (t : GraphTree) :
    t.statements = t.subgraphs.map block ++ t.graph.statements := by
  obtain ⟨g, ts⟩ := t
  rw [statements, blocks_eq_map]
  rfl

end GraphTree

/-- The script of a graph with its subgraphs. -/
def Script.ofTree (t : GraphTree) : Script := ⟨t.graph.kind, t.graph.name, t.statements⟩

end GraphScript
