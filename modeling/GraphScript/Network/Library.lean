import GraphScript.Network
import GraphScript.Script.Drawing

/-!
# Libraries of networks

A network is held by a library, which is told the nodes and the edges one after the other. This
module says what is asked of such a library, and how it is told a graph tree.

* `NetworkLibrary` is what a library can be told and asked.
* `NetworkLibrary.Lawful` is how it answers. A node that is told again takes more attributes. Each
  node has neighbours, with the attributes of the edge in between; an edge without directions makes
  its ends neighbours of each other. The edges are listed from the nodes in their order
  (`NetworkLibrary.listing`).
* `NetworkLibrary.flatten` tells a library a graph tree, from the inside out. Attributes go by their
  names, among the names of the other arguments, and are refused under one of those.

`Adjacency` is a library of this sort, in which nothing is held but what the laws speak of.
-/

namespace GraphScript

/-- A library that holds networks, as what it can be told and asked. -/
structure NetworkLibrary (N : Type) where
  /-- A network without nodes. -/
  make : Kind → Attributes → N
  addNode : N → String → Attributes → N
  addEdge : N → String → String → Attributes → N
  kind : N → Kind
  attrs : N → Attributes
  nodes : N → Table String Attributes
  /-- The nodes that an edge leads to from a node, with the attributes of the edge. -/
  neighbours : N → String → Table String Attributes
  edges : N → List (String × String × Attributes)

namespace NetworkLibrary

variable {N : Type}

/-! ### What a library does -/

/-- Neighbours, when an edge with some attributes leads from one node to another. -/
def linked (neighbours : String → Table String Attributes) (node other : String)
    (attrs : Attributes) (name : String) : Table String Attributes :=
  if name = node then (neighbours node).insert other attrs else neighbours name

/-- Neighbours, when an edge with some attributes is told. Without directions it leads back, too. -/
def joined (kind : Kind) (neighbours : String → Table String Attributes) (tail head : String)
    (attrs : Attributes) : String → Table String Attributes :=
  match kind with
  | .directed => linked neighbours tail head attrs
  | .undirected => linked (linked neighbours tail head attrs) head tail attrs

/-- The edges as they are listed from nodes in a row, each node with its neighbours in their order.
Without directions, no edge is listed that leads back to a node whose turn is over. -/
def listing (kind : Kind) (neighbours : String → Table String Attributes) :
    List String → List String → List (String × String × Attributes)
  | _, [] => []
  | past, node :: rest =>
    ((neighbours node).entries.filter fun e => kind == .directed || !past.contains e.1).map
        (fun e => (node, e.1, e.2))
      ++ listing kind neighbours (node :: past) rest

/-- How a library answers. -/
structure Lawful (lib : NetworkLibrary N) : Prop where
  kind_make (kind : Kind) (attrs : Attributes) : lib.kind (lib.make kind attrs) = kind
  attrs_make (kind : Kind) (attrs : Attributes) : lib.attrs (lib.make kind attrs) = attrs
  nodes_make (kind : Kind) (attrs : Attributes) : lib.nodes (lib.make kind attrs) = ∅
  neighbours_make (kind : Kind) (attrs : Attributes) (name : String) :
    lib.neighbours (lib.make kind attrs) name = ∅
  kind_addNode (n : N) (node : String) (attrs : Attributes) :
    lib.kind (lib.addNode n node attrs) = lib.kind n
  attrs_addNode (n : N) (node : String) (attrs : Attributes) :
    lib.attrs (lib.addNode n node attrs) = lib.attrs n
  /-- A node is made, unless it is there, and takes the attributes. -/
  nodes_addNode (n : N) (node : String) (attrs : Attributes) :
    lib.nodes (lib.addNode n node attrs) = (lib.nodes n).insert node
      ((((lib.nodes n).get? node).getD ∅).insertMany attrs.entries)
  neighbours_addNode (n : N) (node : String) (attrs : Attributes) (name : String) :
    lib.neighbours (lib.addNode n node attrs) name = lib.neighbours n name
  kind_addEdge (n : N) (tail head : String) (attrs : Attributes) :
    lib.kind (lib.addEdge n tail head attrs) = lib.kind n
  attrs_addEdge (n : N) (tail head : String) (attrs : Attributes) :
    lib.attrs (lib.addEdge n tail head attrs) = lib.attrs n
  /-- The ends of an edge are made, unless they are there. -/
  nodes_addEdge (n : N) (tail head : String) (attrs : Attributes) :
    lib.nodes (lib.addEdge n tail head attrs) = ((lib.nodes n).ensure tail).ensure head
  /-- An edge takes the attributes in addition to those that it has, and shows them at its tail, and
  without directions at its head, too. -/
  neighbours_addEdge (n : N) (tail head : String) (attrs : Attributes) (name : String) :
    lib.neighbours (lib.addEdge n tail head attrs) name =
      joined (lib.kind n) (lib.neighbours n) tail head
        ((((lib.neighbours n tail).get? head).getD ∅).insertMany attrs.entries) name
  edges_eq (n : N) :
    lib.edges n = listing (lib.kind n) (lib.neighbours n) [] (lib.nodes n).keys

/-! ### Telling a library a graph tree -/

variable (lib : NetworkLibrary N)

/-- Tells a library a node with its attributes. -/
def takeNode (n : N) (node : String × Attributes) : Except Error N :=
  (Network.check (lib.kind n) .node node.2).map fun _ => lib.addNode n node.1 node.2

/-- Tells a library an edge with its attributes. -/
def takeEdge (n : N) (edge : Edge × Attributes) : Except Error N :=
  (Network.check (lib.kind n) .edge edge.2).map fun _ =>
    lib.addEdge n edge.1.tail edge.1.head edge.2

/-- Tells a library the nodes of a graph, then its edges. -/
def takeGraph (n : N) (g : Graph) : Except Error N := do
  let n ← g.nodes.entries.foldlM lib.takeNode n
  g.edges.entries.foldlM lib.takeEdge n

mutual

/-- Tells a library the graphs of a tree, subgraphs first. -/
def fill (n : N) : GraphTree → Except Error N
  | .node g ts => do
    let n ← fillAll n ts
    lib.takeGraph n g

/-- Tells a library the graphs of several trees, tree by tree. -/
def fillAll (n : N) : List GraphTree → Except Error N
  | [] => .ok n
  | t :: ts => do
    let n ← fill n t
    fillAll n ts

end

/-- The network of a graph tree, held by a library. -/
def flatten (t : GraphTree) : Except Error N :=
  lib.fill (lib.make t.graph.kind (t.graph.attrs.insert "name" t.graph.name)) t

end NetworkLibrary

/-! ### A library -/

/-- A network as the neighbours of its nodes. -/
structure Adjacency where
  kind : Kind
  attrs : Attributes := ∅
  nodes : Table String Attributes := ∅
  neighbours : String → Table String Attributes := fun _ => ∅

namespace Adjacency

/-- Takes a node with its attributes. -/
def addNode (n : Adjacency) (node : String) (attrs : Attributes) : Adjacency :=
  { n with
    nodes := n.nodes.insert node (((n.nodes.get? node).getD ∅).insertMany attrs.entries) }

/-- Takes an edge with its attributes, and its ends. -/
def addEdge (n : Adjacency) (tail head : String) (attrs : Attributes) : Adjacency :=
  { n with
    nodes := (n.nodes.ensure tail).ensure head
    neighbours := NetworkLibrary.joined n.kind n.neighbours tail head
      ((((n.neighbours tail).get? head).getD ∅).insertMany attrs.entries) }

/-- The library that holds networks as neighbours. -/
def library : NetworkLibrary Adjacency where
  make kind attrs := { kind, attrs }
  addNode := addNode
  addEdge := addEdge
  kind := kind
  attrs := attrs
  nodes := nodes
  neighbours := neighbours
  edges n := NetworkLibrary.listing n.kind n.neighbours [] n.nodes.keys

theorem lawful_library : library.Lawful where
  kind_make _ _ := rfl
  attrs_make _ _ := rfl
  nodes_make _ _ := rfl
  neighbours_make _ _ _ := rfl
  kind_addNode _ _ _ := rfl
  attrs_addNode _ _ _ := rfl
  nodes_addNode _ _ _ := rfl
  neighbours_addNode _ _ _ _ := rfl
  kind_addEdge _ _ _ _ := rfl
  attrs_addEdge _ _ _ _ := rfl
  nodes_addEdge _ _ _ _ := rfl
  neighbours_addEdge _ _ _ _ _ := rfl
  edges_eq _ := rfl

end Adjacency

end GraphScript
