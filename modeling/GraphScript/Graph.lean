import GraphScript.Attributes

/-!
# Graphs

A graph has a name, attributes of its own, a table of nodes and a table of edges, and each node
and each edge has attributes too. All edges are of the kind of the graph. A node need not be in
the table of nodes to exist: the ends of an edge are nodes as well.

This module holds one graph without its subgraphs, and all questions that can be answered from
it alone. Reading never creates anything: a question about what is not there is an error, or
`false`.

* **Nodes** are `Graph.nodeNames`, first those of the table and then the ends of edges, and
  `Graph.hasNode` says whether a name is one of them.
* **Edges** at a node are `Graph.edgesAt`, in the order of the table and as written there.
* **Attributes** are read one by one, also through an `Address`, which puts the three sorts of
  attributes behind one sort of index.
-/

namespace GraphScript

/-- A graph without its subgraphs. -/
structure Graph where
  kind : Kind
  name : String := ""
  attrs : Attributes := ∅
  nodes : Table String Attributes := ∅
  edges : Table Edge Attributes := ∅

/-- The edge that an item is, if it is one of this kind. -/
def Kind.edgeOf (kind : Kind) : Item → Except Error Edge
  | .edge e => if e.kind = kind then .ok e else .error (.wrongEdge kind (.edge e))
  | item => .error (.wrongEdge kind item)

theorem Kind.edgeOf_eq_ok_iff {kind : Kind} {item : Item} {e : Edge} :
    kind.edgeOf item = .ok e ↔ item = .edge e ∧ e.kind = kind := by
  cases item with
  | edge f =>
    rw [Kind.edgeOf, Item.edge.injEq]
    split
    · next h =>
      rw [Except.ok.injEq]
      exact ⟨fun he => ⟨he, he ▸ h⟩, fun he => he.1⟩
    · next h => exact ⟨fun he => (nomatch he), fun he => absurd (he.1 ▸ he.2) h⟩
  | _ => simp [Kind.edgeOf]

/-- Edges come in and go out only where they have a direction. -/
def Kind.allows (kind : Kind) (side : Side) : Except Error Unit :=
  if kind = .undirected ∧ side ≠ .either then .error (.noDirection kind side) else .ok ()

/-! ### Addresses -/

/-- Where an attribute is: in the graph itself, at a node, or at an edge. What stands for the
edge or for the key may turn out to be none. -/
inductive Address where
  | graph (key : Item)
  | node (name : String) (key : Item)
  | edge (target : Item) (key : Item)

/-- The address that an index means. A tuple has to have two parts, of which the first stands for
a node if it is a name, and for an edge otherwise. Any other index is a key of the graph. -/
def Address.ofItem : Item → Except Error Address
  | .tuple [.text name, key] => .ok (.node name key)
  | .tuple [target, key] => .ok (.edge target key)
  | .tuple parts => .error (.pairLength parts.length)
  | key => .ok (.graph key)

namespace Graph

/-! ### Nodes and edges -/

/-- The names of all nodes, each once: those of the table, then the ends of edges in the order
in which they occur. -/
def nodeNames (g : Graph) : List String :=
  (g.nodes.keys ++ g.edges.keys.flatMap fun e => [e.tail, e.head]).eraseDups

/-- Whether a name is that of a node. -/
def hasNode (g : Graph) (name : String) : Bool :=
  g.nodes.contains name || g.edges.keys.any (·.touches name)

/-- Whether an item is an edge of the graph. -/
def hasEdge (g : Graph) (item : Item) : Bool := item.edge?.any g.edges.contains

/-- Whether an item is the name of a node. -/
def holds (g : Graph) (item : Item) : Bool := item.text?.any g.hasNode

/-- The edges that meet a node at a side, as written in the table and in its order. -/
def edgesAt (g : Graph) (side : Side) (node : String) : List Edge :=
  g.edges.keys.filter (·.meets side node)

/-- A walk over the edges that meet a node at a side. -/
def walk (g : Graph) (side : Side) (node : String) : Except Error (List Edge) :=
  (g.kind.allows side).map fun _ => g.edgesAt side node

/-! ### Attributes -/

/-- An attribute of a node in the table. -/
def nodeAttr (g : Graph) (node : String) (key : Item) : Except Error String :=
  match g.nodes.get? node with
  | some attrs => attrs.lookup key
  | none => .error (.notFound .node (.text node))

/-- An attribute of an edge in the table. -/
def edgeAttr (g : Graph) (edge key : Item) : Except Error String :=
  match edge.edge?.bind g.edges.get? with
  | some attrs => attrs.lookup key
  | none => .error (.notFound .edge edge)

/-- The attribute at an address. -/
def attrAt (g : Graph) : Address → Except Error String
  | .graph key => g.attrs.lookup key
  | .node name key => g.nodeAttr name key
  | .edge edge key => g.edgeAttr edge key

/-- The attribute that an index means. -/
def getItem (g : Graph) (index : Item) : Except Error String :=
  (Address.ofItem index).bind g.attrAt

/-- A graph as messages show it. -/
def display (g : Graph) : String := g.kind.graphName ++ "(" ++ Text.display g.name ++ ")"

end Graph

end GraphScript
