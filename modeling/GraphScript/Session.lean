import GraphScript.Graph.Tree
import GraphScript.Table.Shelf

/-!
# Sessions

In a session graphs are built step by step. A caller that adds a node or an edge is handed its
attributes *live*: the caller may keep them under a name and change them later, and the change
shows in the graph. Attributes that are kept outlive the node or the edge they came from.

Attributes therefore live apart from graphs, in numbered **stores**, and a graph holds the
numbers. A store is made when a graph, a node or an edge is made, or on its own, and never goes
away.

The edges of a graph stand on a shelf, as walks over them are broken off and taken up again, and
edges may go and come in between.

Graphs are numbered too, and a graph holds the numbers of its subgraphs. As it was there before
them, its own number is smaller, and `Session.trees` can build all graph trees in one pass from the
last graph to the first.

* `Session.graph?` and `Session.tree?` are the graphs of a session as plain values. All questions
  about a graph are answered from those.
-/

namespace GraphScript

/-- A graph of a session, with its attributes given by the numbers of their stores. -/
structure GraphRecord where
  kind : Kind
  name : String
  attrs : Nat
  nodes : Table String Nat := ∅
  edges : Shelf Edge Nat := ∅
  /-- The numbers of the graphs directly inside it, in the order in which they were made. -/
  subgraphs : List Nat := []

/-- How far a walk over the edges of a graph has come. -/
inductive Progress where
  /-- Nothing was asked of it. -/
  | waiting
  /-- There were `size` edges when the walk began. It has come to a place, and `left` edges are
  still to be passed. -/
  | walking (size place left : Nat)
  /-- It has come to an end. -/
  | finished
  deriving DecidableEq, Repr

/-- A walk over the edges of a graph that goes on only when it is asked to. -/
structure Cursor where
  graph : Nat
  side : Side
  node : String
  progress : Progress := .waiting

/-- All there is in a session. -/
structure Session where
  graphs : List GraphRecord := []
  stores : List Attributes := []
  /-- Stores that are kept under names. -/
  handles : Table String Nat := ∅
  /-- Walks that are kept under names. -/
  cursors : Table String Cursor := ∅

namespace Session

/-! ### Plain values -/

/-- The attributes in a store. -/
def store (s : Session) (id : Nat) : Attributes := s.stores[id]?.getD ∅

/-- A graph as a plain value. -/
def view (s : Session) (r : GraphRecord) : Graph where
  kind := r.kind
  name := r.name
  attrs := s.store r.attrs
  nodes := r.nodes.map s.store
  edges := r.edges.table.map s.store

/-- The graph with a number. -/
def graph? (s : Session) (g : Nat) : Option Graph := s.graphs[g]?.map s.view

/-- The numbers of the subgraphs of a graph, in the order in which they were made. -/
def subgraphs (s : Session) (g : Nat) : List Nat := (s.graphs[g]?.map (·.subgraphs)).getD []

/-- The trees of graphs with numbers from `first` on. The subgraphs of a graph are looked for among
the graphs behind it. -/
def treesFrom (s : Session) (first : Nat) : List GraphRecord → List GraphTree
  | [] => []
  | r :: rest =>
    let later := s.treesFrom (first + 1) rest
    let inside := r.subgraphs.filterMap fun i =>
      if first < i then later[i - (first + 1)]? else none
    .node (s.view r) inside :: later

/-- The graphs of the session with their subgraphs. -/
def trees (s : Session) : List GraphTree := s.treesFrom 0 s.graphs

/-- The graph with a number, with its subgraphs. -/
def tree? (s : Session) (g : Nat) : Option GraphTree := s.trees[g]?

/-! ### Stores and records -/

/-- Makes a store, and answers its number. -/
def newStore (s : Session) (attrs : Attributes) : Nat × Session :=
  (s.stores.length, { s with stores := s.stores ++ [attrs] })

/-- Gives a store other attributes. -/
def setStore (s : Session) (id : Nat) (attrs : Attributes) : Session :=
  { s with stores := s.stores.set id attrs }

@[simp] theorem store_setStore_self {s : Session} {id : Nat} (h : id < s.stores.length)
    (attrs : Attributes) : (s.setStore id attrs).store id = attrs := by
  simp [store, setStore, h]

@[simp] theorem store_setStore_of_ne {s : Session} {id j : Nat} (h : id ≠ j)
    (attrs : Attributes) : (s.setStore id attrs).store j = s.store j := by
  simp [store, setStore, h]

@[simp] theorem store_newStore_self (s : Session) (attrs : Attributes) :
    (s.newStore attrs).2.store (s.newStore attrs).1 = attrs := by
  simp [store, newStore]

theorem store_newStore_of_lt {s : Session} {id : Nat} (h : id < s.stores.length)
    (attrs : Attributes) : (s.newStore attrs).2.store id = s.store id := by
  rw [store, newStore, List.getElem?_append_left h, store]

/-- Changes what a session holds about a graph. -/
def modifyGraph (s : Session) (g : Nat) (f : GraphRecord → GraphRecord) : Session :=
  { s with graphs := s.graphs.modify g f }

/-- Keeps a store under a name, if one is given. -/
def keep (s : Session) (name : Option String) (id : Nat) : Session :=
  match name with
  | some name => { s with handles := s.handles.insert name id }
  | none => s

/-- Makes a graph, and answers its number. -/
def newGraph (s : Session) (kind : Kind) (name : String) : Nat × Session :=
  let (attrs, s) := s.newStore ∅
  (s.graphs.length, { s with graphs := s.graphs ++ [{ kind, name, attrs }] })

/-- Makes a graph inside a graph and of its kind, and answers its number. -/
def newSubgraph (s : Session) (g : Nat) (r : GraphRecord) (name : String) : Nat × Session :=
  let (child, s) := s.newGraph r.kind name
  (child, s.modifyGraph g fun r => { r with subgraphs := r.subgraphs ++ [child] })

/-- The store of a node of a graph. A node that is not in the table is added to it. -/
def nodeStore (s : Session) (g : Nat) (r : GraphRecord) (node : String) : Nat × Session :=
  match r.nodes.get? node with
  | some id => (id, s)
  | none =>
    let (id, s) := s.newStore ∅
    (id, s.modifyGraph g fun r => { r with nodes := r.nodes.push node id })

/-- The store of an edge of a graph. An edge that is not on the shelf is added to it. -/
def edgeStore (s : Session) (g : Nat) (r : GraphRecord) (edge : Edge) : Nat × Session :=
  match r.edges.table.get? edge with
  | some id => (id, s)
  | none =>
    let (id, s) := s.newStore ∅
    (id, s.modifyGraph g fun r => { r with edges := r.edges.push edge id })

end Session

end GraphScript
