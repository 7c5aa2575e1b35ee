import GraphScript.Table

/-!
# Edges

An edge joins two named ends. It is written with a tail and a head, and its kind says whether
that order matters: an undirected edge *equals* the edge with its ends swapped, a directed one
does not, and edges of different kinds are never equal.

Equality of edges is `==`, the equality under which a table of edges is keyed. It is coarser
than `=`: the way an edge was written stays visible wherever edges are shown.

* `Edge.beq_iff` says when two edges are equal.
* `EquivBEq Edge` and `LawfulHashable Edge` make edges fit to be keys.
* `Edge.classes` groups the positions of a list by equality of edges.
-/

namespace GraphScript

/-- Whether the edges of a graph have a direction. -/
inductive Kind where
  /-- Edges have no direction. -/
  | undirected
  /-- Edges lead from tail to head. -/
  | directed
  deriving DecidableEq, Repr

namespace Kind

/-- The keyword that opens a script of this kind. -/
def keyword : Kind → String
  | undirected => "graph"
  | directed => "digraph"

/-- The sign between the two ends of an edge in a script. -/
def connector : Kind → String
  | undirected => "--"
  | directed => "->"

/-- The name of a graph of this kind in displays and messages. -/
def graphName : Kind → String
  | undirected => "Graph"
  | directed => "Digraph"

/-- The name of an edge of this kind in displays and messages. -/
def edgeName : Kind → String
  | undirected => "Edge"
  | directed => "Arrow"

/-- The name of a network of this kind in messages. -/
def networkName : Kind → String
  | undirected => "Graph"
  | directed => "DiGraph"

end Kind

/-- At which end an edge has to meet a node. -/
inductive Side where
  /-- At either end. -/
  | either
  /-- At its head: the edge comes in. -/
  | incoming
  /-- At its tail: the edge goes out. -/
  | outgoing
  deriving DecidableEq, Repr

/-- Two named ends, in the order in which they were written. -/
structure Edge where
  kind : Kind
  tail : String
  head : String
  deriving Repr

namespace Edge

/-- The same edge written from its other end. -/
def swap (e : Edge) : Edge := ⟨e.kind, e.head, e.tail⟩

/-- Whether a node is one of the two ends. -/
def touches (e : Edge) (node : String) : Bool := e.tail == node || e.head == node

/-- Whether an edge meets a node at a side. -/
def meets (e : Edge) (side : Side) (node : String) : Bool :=
  match side with
  | .either => e.touches node
  | .incoming => e.head == node
  | .outgoing => e.tail == node

/-- Edges are equal when they are of one kind and join the same ends, in either order if they
are undirected. -/
instance : BEq Edge where
  beq e f :=
    e.kind == f.kind &&
      (e.tail == f.tail && e.head == f.head ||
        e.kind == .undirected && e.tail == f.head && e.head == f.tail)

/-- The hash of an undirected edge does not depend on the order of its ends. -/
instance : Hashable Edge where
  hash e :=
    match e.kind with
    | .undirected => mixHash 1 (hash e.tail + hash e.head)
    | .directed => mixHash 2 (mixHash (hash e.tail) (hash e.head))

/-! ### Laws of equality -/

/-- When two edges are equal. -/
theorem beq_iff {e f : Edge} : (e == f) = true ↔
    e.kind = f.kind ∧ (e.tail = f.tail ∧ e.head = f.head ∨
      e.kind = .undirected ∧ e.tail = f.head ∧ e.head = f.tail) := by
  change (_ && _) = true ↔ _
  simp [and_assoc]

instance : EquivBEq Edge where
  rfl := beq_iff.2 ⟨rfl, .inl ⟨rfl, rfl⟩⟩
  symm h := by grind [beq_iff]
  trans h h' := by grind [beq_iff]

instance : LawfulHashable Edge where
  hash_eq e f h := by
    obtain ⟨k, a, b⟩ := e
    obtain ⟨k', a', b'⟩ := f
    obtain ⟨rfl, ⟨rfl, rfl⟩ | ⟨rfl, rfl, rfl⟩⟩ := beq_iff.1 h
    · rfl
    · simp only [hash, UInt64.add_comm]

/-- An undirected edge has no orientation. -/
theorem swap_beq {e : Edge} (h : e.kind = .undirected) : (e.swap == e) = true :=
  beq_iff.2 ⟨rfl, .inr ⟨h, rfl, rfl⟩⟩

/-- Equal edges touch the same nodes. -/
theorem touches_congr {e f : Edge} (h : (e == f) = true) (node : String) :
    e.touches node = f.touches node := by
  obtain ⟨-, ⟨ht, hh⟩ | ⟨-, ht, hh⟩⟩ := beq_iff.1 h <;> rw [touches, touches, ht, hh]
  rw [Bool.or_comm]

/-! ### Grouping -/

/-- The classes of equal edges in a list, in the order in which they first occur and each under
its first spelling, with the positions at which they occur. -/
def classes (edges : List Edge) : Table Edge (List Nat) :=
  edges.zipIdx.foldl (fun t p => t.insert p.1 ((t.get? p.1).getD [] ++ [p.2])) ∅

end Edge

end GraphScript
