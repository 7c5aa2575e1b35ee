import GraphScript.Session

/-!
# Changing the graphs of a session

A change is made to one graph, or to one store. An error does not undo what was done before it:
when a call adds a node and then breaks off at a malformed pair, the node is there and so are
the attributes in front of that pair. All other errors are found before anything is done.

A change to a node or an edge that is not there adds it first. Reading never does.
-/

namespace GraphScript

/-- A change to a graph. -/
inductive GraphEdit where
  /-- Gives the graph another name. -/
  | rename (name : String)
  /-- Adds a node unless it is there, and takes the attributes mentioned. Its store may be kept
  under a name. -/
  | addNode (node : String) (mentions : Mentions) (keep : Option String)
  /-- Adds an edge unless it is there, and takes the attributes mentioned. Its store may be kept
  under a name. -/
  | addEdge (edge : Item) (mentions : Mentions) (keep : Option String)
  /-- Gives an attribute of the graph a value. -/
  | setAttr (key value : String)
  /-- Gives an attribute of a node a value. -/
  | setNodeAttr (node key value : String)
  /-- Gives an attribute of an edge a value. -/
  | setEdgeAttr (edge : Item) (key value : String)
  /-- Gives the attribute that an index means a value. An index with an attribute key that is no
  text is outside what is modelled: stores hold texts under texts here, so such an index is refused,
  even though a store that does not look at its keys would take it. -/
  | setItem (index : Item) (value : String)
  /-- Takes a node out of the table. It may go on as the end of an edge. -/
  | eraseNode (node : String)
  /-- Takes an edge off the shelf. -/
  | eraseEdge (edge : Item)

namespace Session

/-- Takes the attributes mentioned into a store, and answers what is in it then. -/
def mergeStore (s : Session) (id : Nat) (mentions : Mentions) (keep : Option String) :
    Except Error (Option Attributes) × Session :=
  let (outcome, attrs) := (s.store id).merge mentions
  let s := s.setStore id attrs
  match outcome with
  | .ok () => (.ok (some attrs), s.keep keep id)
  | .error e => (.error e, s)

/-- Gives an attribute in a store a value. -/
def setIn (s : Session) (id : Nat) (key value : String) :
    Except Error (Option Attributes) × Session :=
  (.ok none, s.setStore id ((s.store id).insert key value))

/-- Gives the attribute at an address in a graph a value. Only texts are keys. An address with any
other key is outside what is modelled and is refused (`GraphEdit.setItem`). -/
def setAt (s : Session) (g : Nat) (r : GraphRecord) (value : String) :
    Address → Except Error (Option Attributes) × Session
  | .graph (.text key) => s.setIn r.attrs key value
  | .node node (.text key) =>
    let (id, s) := s.nodeStore g r node
    s.setIn id key value
  | .edge target key =>
    match r.kind.edgeOf target, key with
    | .error e, _ => (.error e, s)
    | .ok edge, .text key =>
      let (id, s) := s.edgeStore g r edge
      s.setIn id key value
    | .ok _, key => (.error (.notFound .attributeKey key), s)
  | .graph key | .node _ key => (.error (.notFound .attributeKey key), s)

/-- Makes a change to a graph. The answer is the attributes of what was added, if anything was
to be added. -/
def edit (s : Session) (g : Nat) (r : GraphRecord) :
    GraphEdit → Except Error (Option Attributes) × Session
  | .rename name => (.ok none, s.modifyGraph g fun r => { r with name := name })
  | .addNode node mentions keep =>
    let (id, s) := s.nodeStore g r node
    s.mergeStore id mentions keep
  | .addEdge item mentions keep =>
    match r.kind.edgeOf item with
    | .error e => (.error e, s)
    | .ok edge =>
      let (id, s) := s.edgeStore g r edge
      s.mergeStore id mentions keep
  | .setAttr key value => s.setAt g r value (.graph (.text key))
  | .setNodeAttr node key value => s.setAt g r value (.node node (.text key))
  | .setEdgeAttr edge key value => s.setAt g r value (.edge edge (.text key))
  | .setItem index value =>
    match Address.ofItem index with
    | .ok address => s.setAt g r value address
    | .error e => (.error e, s)
  | .eraseNode node =>
    if r.nodes.contains node then
      (.ok none, s.modifyGraph g fun r => { r with nodes := r.nodes.erase node })
    else (.error (.absent (.text node)), s)
  | .eraseEdge item =>
    match item.edge?.filter r.edges.table.contains with
    | some edge => (.ok none, s.modifyGraph g fun r => { r with edges := r.edges.erase edge })
    | none => (.error (.absent item), s)

end Session

end GraphScript
