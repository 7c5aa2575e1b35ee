import GraphScript.Graph.Tree

/-!
# Networks

A network is a graph tree flattened: its nodes and edges are those of all graphs in the tree,
and what several graphs say about one node or one edge is merged, later words winning. Graphs
take effect in the order of `GraphTree.visited`, and in each graph the nodes come before the
edges. The attributes of the network are those of the outermost graph, under which `name` is
always its name.

A network names its own arguments when it takes a node or an edge, and so refuses attributes
of those names. `Network.ofTree?` fails at the first one it meets.

`Network.links` lists the edges from the nodes: for each node in order, the edges that lead on
from it and that were not listed before.

A tree may be nested to any depth here. Where the memory for calls is limited, a tree that is nested
too deep for it has neither a network nor a script, and nothing is said of this limit.
-/

namespace GraphScript

/-- A graph without nesting. -/
structure Network where
  kind : Kind
  attrs : Attributes := ∅
  nodes : Table String Attributes := ∅
  edges : Table Edge Attributes := ∅

/-- The names that a network keeps for itself when it takes a part. -/
def NetworkPart.reserved : NetworkPart → List String
  | node => ["self", "node_for_adding"]
  | edge => ["self", "u_of_edge", "v_of_edge"]

/-- The node that an edge leads to from a given one, if it leads on from there. -/
def Edge.from? (e : Edge) (node : String) : Option String :=
  if e.tail = node then some e.head
  else if e.kind = .undirected ∧ e.head = node then some e.tail
  else none

namespace Network

/-- Refuses attributes under a reserved name, the first one in their order. -/
def check (kind : Kind) (part : NetworkPart) (attrs : Attributes) : Except Error Unit :=
  match attrs.keys.find? part.reserved.contains with
  | some key => .error (.reserved kind part key)
  | none => .ok ()

/-- Makes a name that of a node, if it is not one. -/
def touch (net : Network) (name : String) : Network :=
  if net.nodes.contains name then net else { net with nodes := net.nodes.push name ∅ }

/-- Merges attributes into those of a node, which is made if need be. -/
def mergeNode (net : Network) (name : String) (attrs : Attributes) : Network :=
  let old := (net.nodes.get? name).getD ∅
  { net with nodes := net.nodes.insert name (old.insertMany attrs.entries) }

/-- Merges attributes into those of an edge, which is made if need be, and its ends with it. -/
def mergeEdge (net : Network) (edge : Edge) (attrs : Attributes) : Network :=
  let net := (net.touch edge.tail).touch edge.head
  let old := (net.edges.get? edge).getD ∅
  { net with edges := net.edges.insert edge (old.insertMany attrs.entries) }

/-- Takes a node with its attributes. -/
def addNode (net : Network) (node : String × Attributes) : Except Error Network :=
  (check net.kind .node node.2).map fun _ => net.mergeNode node.1 node.2

/-- Takes an edge with its attributes. -/
def addEdge (net : Network) (edge : Edge × Attributes) : Except Error Network :=
  (check net.kind .edge edge.2).map fun _ => net.mergeEdge edge.1 edge.2

/-- Takes the nodes of a graph, then its edges. -/
def addGraph (net : Network) (g : Graph) : Except Error Network := do
  let net ← g.nodes.entries.foldlM addNode net
  g.edges.entries.foldlM addEdge net

/-- The network of a graph tree before any node or edge was taken. -/
def start (g : Graph) : Network := { kind := g.kind, attrs := g.attrs.insert "name" g.name }

/-- The network of a graph tree. -/
def ofTree? (t : GraphTree) : Except Error Network := t.visited.foldlM addGraph (start t.graph)

/-! ### Listing the edges -/

/-- The edges that lead on from the given nodes, each listed at the first node that it leads on
from: this node, the one it leads to, and its attributes. -/
def linksFrom : List (Edge × Attributes) → List String → List (String × String × Attributes)
  | _, [] => []
  | edges, node :: rest =>
    (edges.filterMap fun e => (e.1.from? node).map fun other => (node, other, e.2))
      ++ linksFrom (edges.filter fun e => (e.1.from? node).isNone) rest

/-- All edges, from the nodes that they lead on from. -/
def links (net : Network) : List (String × String × Attributes) :=
  linksFrom net.edges.entries net.nodes.keys

end Network

end GraphScript
