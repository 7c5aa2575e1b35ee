import GraphScript.Session.Step

/-!
# Histories of tables

A table says which keys it has. Its *history* says how it came to have them: it lists the events at
which a key came into the table or went out of it, in their order.

* **Coming**: a command that adds a node or an edge, or that gives an attribute of one a value,
  wants it to be there. The key comes only if no equal key is there, and then it comes even if the
  command breaks off afterwards.
* **Going**: a command that removes a node or an edge makes the key go, if it is there.
* **All else**, such as merging attributes into an entry, is no event.

`Event.standing` reads off a history which keys are there in the end, in which order and in which
spelling. For this it looks at the last event of each key and at nothing else. `Session.nodeHistory`
and `Session.edgeHistory` are the histories of the two tables of a graph.
-/

namespace GraphScript

/-- A key comes into a table or goes out of it. -/
inductive Event (κ : Type) where
  | created (key : κ)
  | removed (key : κ)
  deriving DecidableEq, Repr

namespace Event

variable {κ α : Type}

/-- The key that an event is about. -/
def key : Event κ → κ
  | created k => k
  | removed k => k

/-- The key that comes at an event, if it is one at which a key comes. -/
def coming : Event κ → List κ
  | created k => [k]
  | removed _ => []

variable [BEq κ]

/-- Whether an event can happen to a table: what comes is not there before, and what goes is. -/
def happens (t : Table κ α) : Event κ → Bool
  | created k => !t.contains k
  | removed k => t.contains k

/-- The keys that are there in the end. Only the last event of a key counts, keys that are equal
being taken together: if the key came at this event it is there, spelled as it came, and the keys
stand in the order of these events. -/
def standing : List (Event κ) → List κ
  | [] => []
  | ev :: later =>
    if later.any (·.key == ev.key) then standing later else ev.coming ++ standing later

@[simp] theorem standing_nil : standing ([] : List (Event κ)) = [] := rfl

theorem standing_cons (ev : Event κ) (later : List (Event κ)) : standing (ev :: later) =
    if later.any (·.key == ev.key) then standing later else ev.coming ++ standing later := rfl

end Event

/-! ### Events of one command -/

/-- The node that is wanted where an attribute at an address gets a value. -/
def Address.wantedNode? : Address → Option String
  | node name (.text _) => some name
  | _ => none

/-- The item that is wanted as an edge where an attribute at an address gets a value. -/
def Address.wantedEdge? : Address → Option Item
  | edge target (.text _) => some target
  | _ => none

/-- An item comes as an edge to graphs of a kind if it is an edge of this kind. -/
def Kind.creation? (kind : Kind) (item : Item) : Option (Event Edge) :=
  match kind.edgeOf item with
  | .ok edge => some (.created edge)
  | .error _ => none

namespace GraphEdit

/-- The node that a change wants to be there. -/
def wantedNode? : GraphEdit → Option String
  | addNode node _ _ => some node
  | setNodeAttr node _ _ => some node
  | setItem index _ => (Address.ofItem index).toOption.bind (·.wantedNode?)
  | _ => none

/-- The item that a change wants to be there as an edge. -/
def wantedEdge? : GraphEdit → Option Item
  | addEdge item _ _ => some item
  | setEdgeAttr item _ _ => some item
  | setItem index _ => (Address.ofItem index).toOption.bind (·.wantedEdge?)
  | _ => none

/-- What a change does to the nodes in a table, if it can. -/
def nodeEvent? : GraphEdit → Option (Event String)
  | eraseNode node => some (.removed node)
  | change => change.wantedNode?.map .created

/-- What a change does to the edges of a graph of a kind, if it can. -/
def edgeEvent? (kind : Kind) : GraphEdit → Option (Event Edge)
  | eraseEdge item => item.edge?.map .removed
  | change => change.wantedEdge?.bind kind.creation?

end GraphEdit

namespace Session

/-- What a command does to a table of a graph: what it does if it can, in case it can. -/
def tableEvent? {κ : Type} [BEq κ] (table : Graph → Table κ Attributes)
    (event? : Kind → GraphEdit → Option (Event κ)) (s : Session) (g : Nat) :
    Command → Option (Event κ)
  | .edit h change =>
    if h = g then
      (s.graph? g).bind fun graph => (event? graph.kind change).filter (·.happens (table graph))
    else none
  | _ => none

/-- What a command does to the table of nodes of a graph. -/
def nodeEvent? (s : Session) (g : Nat) (c : Command) : Option (Event String) :=
  s.tableEvent? Graph.nodes (fun _ change => change.nodeEvent?) g c

/-- What a command does to the table of edges of a graph. -/
def edgeEvent? (s : Session) (g : Nat) (c : Command) : Option (Event Edge) :=
  s.tableEvent? Graph.edges GraphEdit.edgeEvent? g c

/-! ### Events of a run -/

/-- The events of commands in a row. -/
def history {κ : Type} (event? : Session → Command → Option (Event κ)) (s : Session) :
    List Command → List (Event κ)
  | [] => []
  | c :: cs => (event? s c).toList ++ history event? (s.step c).2 cs

/-- How the table of nodes of a graph came to be what it is. -/
def nodeHistory (s : Session) (g : Nat) (cs : List Command) : List (Event String) :=
  s.history (·.nodeEvent? g) cs

/-- How the table of edges of a graph came to be what it is. -/
def edgeHistory (s : Session) (g : Nat) (cs : List Command) : List (Event Edge) :=
  s.history (·.edgeEvent? g) cs

end Session

end GraphScript
