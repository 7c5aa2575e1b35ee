import GraphScript.Identifier
import GraphScript.Script

/-!
# What a script draws

A reader of a strict script takes its statements one after the other and draws what they say.

* **A node** is known by the first segment of its name. What is behind the first colon is a *port*:
  it says where at the node an edge ends, and not which node is meant.
* **A node statement** makes the node, unless it is there, and gives it the attributes.
* **An edge statement** makes the two nodes at its ends, first the tail and then the head, unless
  they are there, and likewise the edge between them, and gives it the attributes. In a strict
  script there is one edge at most between two nodes, and without directions it does not matter
  which of the two is named first.
* **A subgraph** draws into the same picture, and attributes of graphs draw nothing.

Of attributes that are given more than once, the last value counts.
-/

namespace GraphScript

/-- The node that a name in a script means. -/
def Identifier.nodeName (name : String) : String :=
  String.ofList ((segments name.toList).headD [])

/-- The nodes and the edges that have been drawn. -/
structure Drawing where
  nodes : Table String Attributes := ∅
  edges : Table Edge Attributes := ∅

/-- Makes an entry without attributes, unless there is one. -/
def Table.ensure {κ : Type} [BEq κ] (t : Table κ Attributes) (k : κ) : Table κ Attributes :=
  if t.contains k then t else t.push k ∅

/-- Gives attributes to an entry. -/
def Table.give {κ : Type} [BEq κ] (t : Table κ Attributes) (k : κ) (attrs : Attributes) :
    Table κ Attributes :=
  t.replace k (((t.get? k).getD ∅).insertMany attrs.entries)

namespace Drawing

/-- Makes the node that a name means, unless it is there. -/
def touch (d : Drawing) (name : String) : Drawing :=
  { d with nodes := d.nodes.ensure (Identifier.nodeName name) }

/-- Draws what a node statement says. -/
def takeNode (d : Drawing) (name : String) (attrs : Attributes) : Drawing :=
  let d := d.touch name
  { d with nodes := d.nodes.give (Identifier.nodeName name) attrs }

/-- Draws what an edge statement says in a script of a kind. -/
def takeEdge (kind : Kind) (d : Drawing) (edge : Edge) (attrs : Attributes) : Drawing :=
  let d := (d.touch edge.tail).touch edge.head
  let drawn : Edge := ⟨kind, Identifier.nodeName edge.tail, Identifier.nodeName edge.head⟩
  { d with edges := (d.edges.ensure drawn).give drawn attrs }

mutual

/-- Draws what a statement says. -/
def take (kind : Kind) (d : Drawing) : Statement → Drawing
  | .subgraph _ body => takeAll kind d body
  | .assignment _ _ => d
  | .node name attrs => d.takeNode name attrs
  | .edge edge attrs => d.takeEdge kind edge attrs

/-- Draws what statements in a row say. -/
def takeAll (kind : Kind) (d : Drawing) : List Statement → Drawing
  | [] => d
  | statement :: rest => takeAll kind (take kind d statement) rest

end

end Drawing

/-- What a script draws. -/
def Script.drawing (s : Script) : Drawing := Drawing.takeAll s.kind {} s.body

end GraphScript
