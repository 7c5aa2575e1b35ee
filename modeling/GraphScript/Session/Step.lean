import GraphScript.Network
import GraphScript.Render.Report
import GraphScript.Script.Writer
import GraphScript.Session.Cursor
import GraphScript.Session.Edit

/-!
# Steps of a session

A session goes on by commands, and answers each with a reply or an error. `Session.step` is one
step and `Session.run` a row of them.

* **Questions** are asked of a graph with its subgraphs, or of a store. They are answered from
  plain values, so they cannot change anything.
* **Changes** are made to one graph or to one store.
-/

namespace GraphScript

/-- What a session answers. -/
inductive Reply where
  /-- There is nothing to say. -/
  | done
  | truth (b : Bool)
  | text (s : String)
  /-- A text, or nothing if there is none. -/
  | maybe (s : Option String)
  | number (n : Nat)
  | numbers (ns : List Nat)
  | names (names : List String)
  | edge (e : Edge)
  | edges (es : List Edge)
  | attributes (attrs : Attributes)
  /-- A graph, and the numbers of its subgraphs. -/
  | contents (g : Graph) (subgraphs : List Nat)
  | network (net : Network)
  | report (r : Render.Report)

/-- A question about a graph with its subgraphs. -/
inductive GraphQuery where
  | attr (key : String)
  | nodeAttr (node key : String)
  | edgeAttr (edge : Item) (key : String)
  /-- The attribute that an index means. -/
  | item (index : Item)
  | hasNode (name : String)
  | hasEdge (edge : Item)
  /-- Whether an item is the name of a node. -/
  | holds (item : Item)
  | nodeNames
  /-- The edges that meet a node at a side. -/
  | walk (side : Side) (node : String)
  | script (part : Script.Part)
  | display
  | network
  /-- What comes of handing the script to an executable. -/
  | render (request : Render.Request) (env : Render.Environment)

/-- Answers a question about a graph. -/
def GraphTree.answer (t : GraphTree) : GraphQuery → Except Error Reply
  | .attr key => (t.graph.attrs.lookup (.text key)).map .text
  | .nodeAttr name key => (t.graph.nodeAttr name (.text key)).map .text
  | .edgeAttr edge key => (t.graph.edgeAttr edge (.text key)).map .text
  | .item index => (t.graph.getItem index).map .text
  | .hasNode name => .ok (.truth (t.graph.hasNode name))
  | .hasEdge edge => .ok (.truth (t.graph.hasEdge edge))
  | .holds item => .ok (.truth (t.graph.holds item))
  | .nodeNames => .ok (.names t.graph.nodeNames)
  | .walk side name => (t.graph.walk side name).map .edges
  | .script part => .ok (.text (t.part part))
  | .display => .ok (.text t.graph.display)
  | .network => (Network.ofTree? t).map .network
  | .render request env => .ok (.report (request.render env t.document))

/-- A question about the attributes in a store. -/
inductive StoreQuery where
  | items
  /-- An attribute that has to be there. -/
  | item (key : String)
  /-- An attribute that need not be there. -/
  | get (key : String)
  | contains (key : String)
  /-- The attributes as a script lists them. -/
  | script

/-- Answers a question about attributes. -/
def Attributes.answer (a : Attributes) : StoreQuery → Except Error Reply
  | .items => .ok (.attributes a)
  | .item key => (a.lookup (.text key)).map .text
  | .get key => .ok (.maybe (a.get? key))
  | .contains key => .ok (.truth (a.contains key))
  | .script => .ok (.text a.script)

/-- What a session can be told to do. Graphs go by their numbers, stores and cursors by names. -/
inductive Command where
  /-- Makes a graph. -/
  | create (kind : Option Kind) (name : String)
  /-- Makes a subgraph of a graph. -/
  | subgraph (graph : Nat) (name : String)
  /-- Changes a graph. -/
  | edit (graph : Nat) (change : GraphEdit)
  /-- Asks about a graph. -/
  | ask (graph : Nat) (query : GraphQuery)
  /-- Asks for all that is in a graph. -/
  | contents (graph : Nat)
  /-- Asks for the subgraphs of a graph. -/
  | subgraphs (graph : Nat)
  /-- Asks for the attributes of a graph, whose store may be kept under a name. -/
  | graphStore (graph : Nat) (keep : Option String)
  /-- Makes a store that belongs to no graph. If the entries repeat a key, the last one counts. -/
  | newStore (name : String) (attrs : Attributes)
  /-- Changes a store. -/
  | editStore (name : String) (change : Attributes.Edit)
  /-- Asks about a store. -/
  | askStore (name : String) (query : StoreQuery)
  /-- Asks whether two stores hold the same attributes, in whatever order. -/
  | compareStores (name other : String)
  /-- Prepares a walk over the edges of a graph. -/
  | openCursor (name : String) (graph : Nat) (side : Side) (node : String)
  /-- Goes on with a walk. -/
  | advance (name : String)

namespace Session

/-- The number of the store kept under a name. -/
def handle (s : Session) (name : String) : Except Error Nat :=
  match s.handles.get? name with
  | some id => .ok id
  | none => .error (.unknownName name)

/-- What the session holds about a graph. -/
def record (s : Session) (g : Nat) : Except Error GraphRecord :=
  match s.graphs[g]? with
  | some r => .ok r
  | none => .error (.unknownGraph g)

/-- Changes a store. The answer is the value that the change answers, or what is in the store
then. -/
def editStore (s : Session) (id : Nat) (change : Attributes.Edit) :
    Except Error Reply × Session :=
  let (outcome, attrs) := (s.store id).edit change
  (outcome.map fun value => value.elim (.attributes attrs) .text, s.setStore id attrs)

/-- Goes on with a walk. -/
def advance (s : Session) (name : String) (c : Cursor) (r : GraphRecord) :
    Except Error Reply × Session :=
  let (outcome, progress) := c.next r.edges
  (outcome.map .edge, { s with cursors := s.cursors.insert name { c with progress } })

/-- Does what a command says. -/
def step (s : Session) : Command → Except Error Reply × Session
  | .create none _ => (.error .noKind, s)
  | .create (some kind) name =>
    let (g, s) := s.newGraph kind name
    (.ok (.number g), s)
  | .subgraph g name =>
    match s.record g with
    | .error e => (.error e, s)
    | .ok r =>
      let (child, s) := s.newSubgraph g r name
      (.ok (.number child), s)
  | .edit g change =>
    match s.record g with
    | .error e => (.error e, s)
    | .ok r =>
      let (outcome, s) := s.edit g r change
      (outcome.map fun attrs => attrs.elim .done .attributes, s)
  | .ask g query =>
    match s.tree? g with
    | some t => (t.answer query, s)
    | none => (.error (.unknownGraph g), s)
  | .contents g => ((s.record g).map fun r => .contents (s.view r) (s.subgraphs g), s)
  | .subgraphs g => ((s.record g).map fun _ => .numbers (s.subgraphs g), s)
  | .graphStore g name =>
    match s.record g with
    | .error e => (.error e, s)
    | .ok r => (.ok (.attributes (s.store r.attrs)), s.keep name r.attrs)
  | .newStore name attrs =>
    let attrs := Table.ofList attrs.entries
    let (id, s) := s.newStore attrs
    (.ok (.attributes attrs), s.keep (some name) id)
  | .editStore name change =>
    match s.handle name with
    | .error e => (.error e, s)
    | .ok id => s.editStore id change
  | .askStore name query => ((s.handle name).bind fun id => (s.store id).answer query, s)
  | .compareStores name other =>
    ((s.handle name).bind fun id => (s.handle other).map fun id' =>
      .truth ((s.store id).sameEntries (s.store id')), s)
  | .openCursor name g side node =>
    match (s.record g).bind fun r => r.kind.allows side with
    | .error e => (.error e, s)
    | .ok () => (.ok .done, { s with cursors := s.cursors.insert name { graph := g, side, node } })
  | .advance name =>
    match s.cursors.get? name with
    | none => (.error (.unknownName name), s)
    | some c =>
      match s.record c.graph with
      | .error e => (.error e, s)
      | .ok r => s.advance name c r

/-- Carries out commands in a row: the replies, and the session afterwards. -/
def run (s : Session) : List Command → List (Except Error Reply) × Session
  | [] => ([], s)
  | c :: cs =>
    let (reply, s) := s.step c
    let (replies, s) := s.run cs
    (reply :: replies, s)

end Session

end GraphScript
