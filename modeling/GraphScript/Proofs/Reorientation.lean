import GraphScript.Proofs.Networks
import GraphScript.Proofs.Walks

/-!
# Runs with edges written from other ends

Two runs give the same commands in turn, except that edges that are named in them may be equal
without being written alike. Then the sessions stay alike (`Session.Alike`), command by command, and
so do the answers: the spelling of an edge shows where edges are shown, in the order in which nodes
are listed, and nowhere else.

* `Session.Alike.step` is one command, and `Session.run_alike` is a whole run.
* Without directions every edge equals the one with its ends swapped, so which end comes first in a
  command makes no difference, also where edges go and come back.
-/

namespace GraphScript

/-! ### Commands and answers that are alike -/

/-- Two changes that differ at most in how an equal edge is written. -/
inductive GraphEdit.Alike : GraphEdit → GraphEdit → Prop
  | refl (change : GraphEdit) : Alike change change
  | addEdge {x y : Item} (h : (x == y) = true) (mentions : Mentions) (keep : Option String) :
    Alike (.addEdge x mentions keep) (.addEdge y mentions keep)
  | setEdgeAttr {x y : Item} (h : (x == y) = true) (key value : String) :
    Alike (.setEdgeAttr x key value) (.setEdgeAttr y key value)
  | setItem {x y : Item} (h : (x == y) = true) (value : String) :
    Alike (.setItem x value) (.setItem y value)
  | eraseEdge {x y : Item} (h : (x == y) = true) : Alike (.eraseEdge x) (.eraseEdge y)

/-- Two questions that differ at most in how an equal edge is written. -/
inductive GraphQuery.Alike : GraphQuery → GraphQuery → Prop
  | refl (query : GraphQuery) : Alike query query
  | edgeAttr {x y : Item} (h : (x == y) = true) (key : String) :
    Alike (.edgeAttr x key) (.edgeAttr y key)
  | item {x y : Item} (h : (x == y) = true) : Alike (.item x) (.item y)
  | hasEdge {x y : Item} (h : (x == y) = true) : Alike (.hasEdge x) (.hasEdge y)
  | holds {x y : Item} (h : (x == y) = true) : Alike (.holds x) (.holds y)

/-- Two commands that differ at most in how an equal edge is written. -/
inductive Command.Alike : Command → Command → Prop
  | refl (c : Command) : Alike c c
  | edit (g : Nat) {change change' : GraphEdit} (h : change.Alike change') :
    Alike (.edit g change) (.edit g change')
  | ask (g : Nat) {query query' : GraphQuery} (h : query.Alike query') :
    Alike (.ask g query) (.ask g query')

/-- The same came of two renderings, and the same program was run with the same arguments. -/
structure Render.Report.Alike (r r' : Render.Report) : Prop where
  outcome : r.outcome = r'.outcome
  log : r.log = r'.log
  run : r.run.map (fun run => (run.program, run.arguments, run.input.isSome)) =
    r'.run.map fun run => (run.program, run.arguments, run.input.isSome)

/-- Two replies that differ at most in how equal edges are written, and in the order in which nodes
are named. -/
inductive Reply.Alike : Reply → Reply → Prop
  | refl (r : Reply) : Alike r r
  | names {names names' : List String} (h : names.Perm names') :
    Alike (.names names) (.names names')
  | edge {e f : Edge} (h : (e == f) = true) : Alike (.edge e) (.edge f)
  | edges {es es' : List Edge} (h : List.Forall₂ (fun e f : Edge => (e == f) = true) es es') :
    Alike (.edges es) (.edges es')
  | contents {g g' : Graph} (h : g.Alike g') (subgraphs : List Nat) :
    Alike (.contents g subgraphs) (.contents g' subgraphs)
  | network {net net' : Network} (h : net.Alike net') : Alike (.network net) (.network net')
  | report {r r' : Render.Report} (h : r.Alike r') : Alike (.report r) (.report r')

/-- The answers to a command are alike. If the command asks for a script, they are those of trees
that are alike. -/
inductive Command.AnswersAlike : Command → Except Error Reply → Except Error Reply → Prop
  | alike (c : Command) {a a' : Except Error Reply} (h : Outcome.Alike Reply.Alike a a') :
    AnswersAlike c a a'
  | script (g : Nat) (part : Script.Part) {t t' : GraphTree} (h : t.Alike t') :
    AnswersAlike (.ask g (.script part)) (.ok (.text (t.part part))) (.ok (.text (t'.part part)))

/-! ### Sessions that are alike -/

/-- What is held about two graphs is the same, except that equal edges may be written
differently. -/
structure GraphRecord.Alike (r r' : GraphRecord) : Prop where
  kind : r.kind = r'.kind
  name : r.name = r'.name
  attrs : r.attrs = r'.attrs
  nodes : r.nodes = r'.nodes
  edges : r.edges.Alike r'.edges
  subgraphs : r.subgraphs = r'.subgraphs

/-- Two sessions with the same stores, the same names and graphs that are alike. -/
structure Session.Alike (s s' : Session) : Prop where
  graphs : List.Forall₂ GraphRecord.Alike s.graphs s'.graphs
  stores : s.stores = s'.stores
  handles : s.handles = s'.handles
  cursors : s.cursors = s'.cursors

/-- Two outcomes that are the same or errors that are alike, and the sessions after them. -/
def Session.AlikeAfter {α : Type} (x x' : Except Error α × Session) : Prop :=
  Outcome.Alike Eq x.1 x'.1 ∧ x.2.Alike x'.2

section Rows

variable {α β : Type} {R : α → β → Prop} {l : List α} {l' : List β}

theorem getElem?_rel (h : List.Forall₂ R l l') (i : Nat) : Option.Rel R l[i]? l'[i]? := by
  induction h generalizing i with
  | nil => exact .none
  | cons hxy _ ih =>
    cases i with
    | zero => exact .some hxy
    | succ i => exact ih i

theorem forall₂_modify (h : List.Forall₂ R l l') {f : α → α} {f' : β → β}
    (hf : ∀ x y, R x y → R (f x) (f' y)) (i : Nat) :
    List.Forall₂ R (l.modify i f) (l'.modify i f') := by
  induction h generalizing i with
  | nil => cases i <;> exact .nil
  | cons hxy hrest ih =>
    cases i with
    | zero => exact .cons (hf _ _ hxy) hrest
    | succ i => exact .cons hxy (ih i)

theorem forall₂_filterMap_of_rel {ι : Type} {f : ι → Option α} {f' : ι → Option β}
    (h : ∀ i, Option.Rel R (f i) (f' i)) (is : List ι) :
    List.Forall₂ R (is.filterMap f) (is.filterMap f') :=
  List.rel_filterMap (R := Eq) (fun i _ hij => hij ▸ h i) (List.forall₂_same.mpr fun _ _ => rfl)

end Rows

namespace Session.Alike

variable {s s' : Session} {r r' : GraphRecord}

theorem store_eq (h : s.Alike s') : s.store = s'.store := by
  funext id
  rw [store, store, h.stores]

theorem view (h : s.Alike s') (hr : r.Alike r') : (s.view r).Alike (s'.view r') where
  kind := hr.kind
  name := hr.name
  attrs := by rw [Session.view, Session.view, hr.attrs, h.store_eq]
  nodes := by rw [Session.view, Session.view, hr.nodes, h.store_eq]
  edges := by
    rw [Session.view, Session.view, h.store_eq]
    exact hr.edges.table.map s'.store

theorem record (h : s.Alike s') (g : Nat) :
    Outcome.Alike GraphRecord.Alike (s.record g) (s'.record g) := by
  have hr := getElem?_rel h.graphs g
  rw [Session.record, Session.record]
  generalize s.graphs[g]? = r?, s'.graphs[g]? = r'? at hr
  cases hr with
  | none => exact .error (.refl _)
  | some hr => exact .ok hr

theorem subgraphs_eq (h : s.Alike s') (g : Nat) : s.subgraphs g = s'.subgraphs g := by
  have hr := getElem?_rel h.graphs g
  rw [Session.subgraphs, Session.subgraphs]
  generalize s.graphs[g]? = r?, s'.graphs[g]? = r'? at hr
  cases hr with
  | none => rfl
  | some hr => exact hr.subgraphs

theorem graph? (h : s.Alike s') (g : Nat) : Option.Rel Graph.Alike (s.graph? g) (s'.graph? g) := by
  have hr := getElem?_rel h.graphs g
  rw [Session.graph?, Session.graph?]
  generalize s.graphs[g]? = r?, s'.graphs[g]? = r'? at hr
  cases hr with
  | none => exact .none
  | some hr => exact .some (h.view hr)

theorem treesFrom (h : s.Alike s') (first : Nat) {rs rs' : List GraphRecord}
    (hrs : List.Forall₂ GraphRecord.Alike rs rs') :
    List.Forall₂ GraphTree.Alike (s.treesFrom first rs) (s'.treesFrom first rs') := by
  induction hrs generalizing first with
  | nil => exact .nil
  | cons hr _ ih =>
    have hlater := ih (first + 1)
    rw [Session.treesFrom, Session.treesFrom, hr.subgraphs]
    refine .cons ⟨h.view hr, GraphTree.alikeAll_of_forall₂ ?_⟩ hlater
    refine forall₂_filterMap_of_rel (fun i => ?_) _
    split
    · exact getElem?_rel hlater _
    · exact .none

theorem tree? (h : s.Alike s') (g : Nat) :
    Option.Rel GraphTree.Alike (s.tree? g) (s'.tree? g) :=
  getElem?_rel (h.treesFrom 0 h.graphs) g

/-! ### Changing sessions that are alike -/

theorem setStore (h : s.Alike s') (id : Nat) (attrs : Attributes) :
    (s.setStore id attrs).Alike (s'.setStore id attrs) where
  graphs := h.graphs
  stores := congrArg (·.set id attrs) h.stores
  handles := h.handles
  cursors := h.cursors

theorem newStore (h : s.Alike s') (attrs : Attributes) :
    (s.newStore attrs).2.Alike (s'.newStore attrs).2 where
  graphs := h.graphs
  stores := congrArg (· ++ [attrs]) h.stores
  handles := h.handles
  cursors := h.cursors

theorem keep (h : s.Alike s') (name : Option String) (id : Nat) :
    (s.keep name id).Alike (s'.keep name id) := by
  cases name with
  | none => exact h
  | some name => exact ⟨h.graphs, h.stores, congrArg (·.insert name id) h.handles, h.cursors⟩

theorem modifyGraph (h : s.Alike s') {f f' : GraphRecord → GraphRecord}
    (hf : ∀ r r', GraphRecord.Alike r r' → (f r).Alike (f' r')) (g : Nat) :
    (s.modifyGraph g f).Alike (s'.modifyGraph g f') :=
  ⟨forall₂_modify h.graphs hf g, h.stores, h.handles, h.cursors⟩

theorem newGraph (h : s.Alike s') (kind : Kind) (name : String) :
    (s.newGraph kind name).2.Alike (s'.newGraph kind name).2 where
  graphs := by
    have hid : s.stores.length = s'.stores.length := congrArg List.length h.stores
    exact List.rel_append h.graphs (.cons ⟨rfl, rfl, hid, rfl, .refl _, rfl⟩ .nil)
  stores := (h.newStore ∅).stores
  handles := h.handles
  cursors := h.cursors

theorem newSubgraph (h : s.Alike s') (g : Nat) (hr : r.Alike r') (name : String) :
    (s.newSubgraph g r name).1 = (s'.newSubgraph g r' name).1 ∧
      (s.newSubgraph g r name).2.Alike (s'.newSubgraph g r' name).2 := by
  have hchild : (s.newGraph r'.kind name).1 = (s'.newGraph r'.kind name).1 := h.graphs.length_eq
  rw [Session.newSubgraph, Session.newSubgraph, hr.kind]
  refine ⟨hchild, (h.newGraph r'.kind name).modifyGraph (fun r r' hr => ?_) g⟩
  exact ⟨hr.kind, hr.name, hr.attrs, hr.nodes, hr.edges, by rw [hr.subgraphs, hchild]⟩

theorem nodeStore (h : s.Alike s') (g : Nat) (hr : r.Alike r') (node : String) :
    (s.nodeStore g r node).1 = (s'.nodeStore g r' node).1 ∧
      (s.nodeStore g r node).2.Alike (s'.nodeStore g r' node).2 := by
  have hid : s.stores.length = s'.stores.length := congrArg List.length h.stores
  rw [Session.nodeStore, Session.nodeStore, hr.nodes]
  split
  · exact ⟨rfl, h⟩
  · refine ⟨hid, (h.newStore ∅).modifyGraph (fun r r' hr => ?_) g⟩
    refine ⟨hr.kind, hr.name, hr.attrs, ?_, hr.edges, hr.subgraphs⟩
    rw [Session.newStore, Session.newStore, hid, hr.nodes]

theorem edgeStore (h : s.Alike s') (g : Nat) (hr : r.Alike r') {e f : Edge}
    (hef : (e == f) = true) :
    (s.edgeStore g r e).1 = (s'.edgeStore g r' f).1 ∧
      (s.edgeStore g r e).2.Alike (s'.edgeStore g r' f).2 := by
  have hid : s.stores.length = s'.stores.length := congrArg List.length h.stores
  rw [Session.edgeStore, Session.edgeStore, hr.edges.table.get?_eq hef]
  split
  · exact ⟨rfl, h⟩
  · refine ⟨hid, (h.newStore ∅).modifyGraph (fun r r' hr => ?_) g⟩
    refine ⟨hr.kind, hr.name, hr.attrs, hr.nodes, ?_, hr.subgraphs⟩
    rw [Session.newStore, Session.newStore, hid]
    exact hr.edges.push hef _

theorem mergeStore (h : s.Alike s') {id id' : Nat} (hid : id = id') (mentions : Mentions)
    (name : Option String) :
    AlikeAfter (s.mergeStore id mentions name) (s'.mergeStore id' mentions name) := by
  subst hid
  have hset := h.setStore id ((s'.store id).merge mentions).2
  rw [Session.mergeStore, Session.mergeStore, h.store_eq]
  rw [Attributes.merge] at hset ⊢
  cases mentions.fault? with
  | none => exact ⟨.ok rfl, hset.keep name id⟩
  | some e => exact ⟨.error (.refl e), hset⟩

theorem setIn (h : s.Alike s') {id id' : Nat} (hid : id = id') (key value : String) :
    AlikeAfter (s.setIn id key value) (s'.setIn id' key value) := by
  subst hid
  rw [Session.setIn, Session.setIn, h.store_eq]
  exact ⟨.ok rfl, h.setStore id _⟩

theorem setAt (h : s.Alike s') (g : Nat) (hr : r.Alike r') (value : String) {a a' : Address}
    (ha : a.Alike a') : AlikeAfter (s.setAt g r value a) (s'.setAt g r' value a') := by
  cases ha with
  | @graph key key' hkey =>
    cases key with
    | text key =>
      obtain rfl := Item.eq_text_of_beq hkey
      exact h.setIn hr.attrs key value
    | _ => cases key' <;> first | exact ⟨.error (.notFound _ hkey), h⟩ | cases hkey
  | @node name key key' hkey =>
    cases key with
    | text key =>
      obtain rfl := Item.eq_text_of_beq hkey
      obtain ⟨hid, hstore⟩ := h.nodeStore g hr name
      exact hstore.setIn hid key value
    | _ => cases key' <;> first | exact ⟨.error (.notFound _ hkey), h⟩ | cases hkey
  | @edge target target' key key' htarget hkey =>
    have hedgeOf := Kind.edgeOf_alike r.kind htarget
    simp only [Session.setAt, ← hr.kind]
    generalize r.kind.edgeOf target = outcome, r.kind.edgeOf target' = outcome' at hedgeOf
    cases hedgeOf with
    | error he => exact ⟨.error he, h⟩
    | ok hef =>
      cases key with
      | text key =>
        obtain rfl := Item.eq_text_of_beq hkey
        obtain ⟨hid, hstore⟩ := h.edgeStore g hr hef
        exact hstore.setIn hid key value
      | _ => cases key' <;> first | exact ⟨.error (.notFound _ hkey), h⟩ | cases hkey

theorem addEdge (h : s.Alike s') (g : Nat) (hr : r.Alike r') {x y : Item} (hxy : (x == y) = true)
    (mentions : Mentions) (keep : Option String) :
    AlikeAfter (s.edit g r (.addEdge x mentions keep))
      (s'.edit g r' (.addEdge y mentions keep)) := by
  have hedgeOf := Kind.edgeOf_alike r.kind hxy
  simp only [Session.edit, ← hr.kind]
  generalize r.kind.edgeOf x = outcome, r.kind.edgeOf y = outcome' at hedgeOf
  cases hedgeOf with
  | error he => exact ⟨.error he, h⟩
  | ok hef =>
    obtain ⟨hid, hstore⟩ := h.edgeStore g hr hef
    exact hstore.mergeStore hid mentions keep

theorem setItem (h : s.Alike s') (g : Nat) (hr : r.Alike r') {x y : Item} (hxy : (x == y) = true)
    (value : String) :
    AlikeAfter (s.edit g r (.setItem x value)) (s'.edit g r' (.setItem y value)) := by
  have haddress := Address.ofItem_alike hxy
  simp only [Session.edit]
  generalize Address.ofItem x = outcome, Address.ofItem y = outcome' at haddress
  cases haddress with
  | error he => exact ⟨.error he, h⟩
  | ok ha => exact h.setAt g hr value ha

theorem eraseEdge (h : s.Alike s') (g : Nat) (hr : r.Alike r') {x y : Item}
    (hxy : (x == y) = true) :
    AlikeAfter (s.edit g r (.eraseEdge x)) (s'.edit g r' (.eraseEdge y)) := by
  have hedges := Item.edge?_rel hxy
  simp only [Session.edit]
  generalize x.edge? = e?, y.edge? = f? at hedges
  cases hedges with
  | none => exact ⟨.error (.absent hxy), h⟩
  | @some e f hef =>
    rw [Option.filter_some, Option.filter_some, hr.edges.table.contains_eq hef]
    cases r'.edges.table.contains f with
    | true =>
      refine ⟨.ok rfl, h.modifyGraph (fun r r' hr => ?_) g⟩
      exact ⟨hr.kind, hr.name, hr.attrs, hr.nodes, hr.edges.erase hef, hr.subgraphs⟩
    | false => exact ⟨.error (.absent hxy), h⟩

theorem edit (h : s.Alike s') (g : Nat) (hr : r.Alike r') {change change' : GraphEdit}
    (hc : change.Alike change') : AlikeAfter (s.edit g r change) (s'.edit g r' change') := by
  cases hc with
  | addEdge hxy mentions keep => exact h.addEdge g hr hxy mentions keep
  | setEdgeAttr hxy key value => exact h.setAt g hr value (.edge hxy BEq.rfl)
  | setItem hxy value => exact h.setItem g hr hxy value
  | eraseEdge hxy => exact h.eraseEdge g hr hxy
  | refl change =>
    -- where an edge is named in the same way, it is equal to itself
    cases change with
    | rename name =>
      refine ⟨.ok rfl, h.modifyGraph (fun r r' hr => ?_) g⟩
      exact ⟨hr.kind, rfl, hr.attrs, hr.nodes, hr.edges, hr.subgraphs⟩
    | addNode node mentions keep =>
      obtain ⟨hid, hstore⟩ := h.nodeStore g hr node
      exact hstore.mergeStore hid mentions keep
    | addEdge item mentions keep => exact h.addEdge g hr BEq.rfl mentions keep
    | setAttr key value => exact h.setAt g hr value (.graph BEq.rfl)
    | setNodeAttr node key value => exact h.setAt g hr value (.node node BEq.rfl)
    | setEdgeAttr edge key value => exact h.setAt g hr value (.edge BEq.rfl BEq.rfl)
    | setItem index value => exact h.setItem g hr BEq.rfl value
    | eraseNode node =>
      rw [Session.edit, Session.edit, hr.nodes]
      split
      · refine ⟨.ok rfl, h.modifyGraph (fun r r' hr => ?_) g⟩
        exact ⟨hr.kind, hr.name, hr.attrs, congrArg (·.erase node) hr.nodes, hr.edges, hr.subgraphs⟩
      · exact ⟨.error (.refl _), h⟩
    | eraseEdge item => exact h.eraseEdge g hr BEq.rfl

end Session.Alike

/-! ### Answers about trees that are alike -/

theorem Outcome.Alike.reply {α : Type} {x y : Except Error α} (h : Outcome.Alike Eq x y)
    (f : α → Reply) : Outcome.Alike Reply.Alike (x.map f) (y.map f) :=
  h.map fun _ b hab => hab ▸ .refl (f b)

theorem Outcome.Alike.of_refl (a : Except Error Reply) : Outcome.Alike Reply.Alike a a := by
  cases a with
  | error e => exact .error (.refl e)
  | ok reply => exact .ok (.refl reply)

/-- A script has no influence on what comes of rendering it, except that it is what the program is
given to read. -/
theorem Render.Request.render_alike (r : Request) (env : Environment) (script script' : String) :
    (r.render env script).Alike (r.render env script') := by
  rw [render, render]
  cases r.launch env with
  | error e => exact ⟨rfl, rfl, rfl⟩
  | ok found =>
    obtain ⟨name, p⟩ := found
    simp only [conclude]
    split <;> cases hreads : p.readsInput <;> exact ⟨rfl, rfl, rfl⟩

theorem GraphTree.Alike.answer {t t' : GraphTree} {kind : Kind} (h : t.Alike t')
    (ht : t.OfKind kind) (ht' : t'.OfKind kind) {query query' : GraphQuery}
    (hq : query.Alike query') (g : Nat) :
    (Command.ask g query).AnswersAlike (t.answer query) (t'.answer query') := by
  have hg := h.graph
  cases hq with
  | edgeAttr hxy key => exact .alike _ ((hg.edgeAttr hxy BEq.rfl).reply .text)
  | item hxy => exact .alike _ ((hg.getItem hxy).reply .text)
  | hasEdge hxy =>
    rw [GraphTree.answer, GraphTree.answer, hg.hasEdge_eq hxy]
    exact .alike _ (.ok (.refl _))
  | holds hxy =>
    rw [GraphTree.answer, GraphTree.answer, hg.holds_eq hxy]
    exact .alike _ (.ok (.refl _))
  | refl query =>
    cases query with
    | attr key =>
      rw [GraphTree.answer, GraphTree.answer, hg.attrs]
      exact .alike _ ((Attributes.lookup_alike _ BEq.rfl).reply .text)
    | nodeAttr node key => exact .alike _ ((hg.nodeAttr node BEq.rfl).reply .text)
    | edgeAttr edge key => exact .alike _ ((hg.edgeAttr BEq.rfl BEq.rfl).reply .text)
    | item index => exact .alike _ ((hg.getItem BEq.rfl).reply .text)
    | hasNode name =>
      rw [GraphTree.answer, GraphTree.answer, hg.hasNode_eq]
      exact .alike _ (.ok (.refl _))
    | hasEdge edge =>
      rw [GraphTree.answer, GraphTree.answer, hg.hasEdge_eq BEq.rfl]
      exact .alike _ (.ok (.refl _))
    | holds item =>
      rw [GraphTree.answer, GraphTree.answer, hg.holds_eq BEq.rfl]
      exact .alike _ (.ok (.refl _))
    | nodeNames => exact .alike _ (.ok (.names hg.nodeNames_perm))
    | walk side node =>
      have hkinds : ∀ e ∈ t.graph.edges.keys, e.kind = t.graph.kind := by
        rw [ht.kind_eq]
        refine ht.edges ?_
        rw [visited_eq]
        exact List.mem_append_right _ List.mem_cons_self
      exact .alike _ ((hg.walk hkinds side node).map fun _ _ hes => .edges hes)
    | script part => exact .script g part h
    | display =>
      rw [GraphTree.answer, GraphTree.answer, Graph.display, Graph.display, hg.kind, hg.name]
      exact .alike _ (.ok (.refl _))
    | network => exact .alike _ ((Network.ofTree?_alike h ht ht').map fun _ _ hnet => .network hnet)
    | render request env => exact .alike _ (.ok (.report (request.render_alike env _ _)))

/-! ### Walks -/

namespace Cursor

theorem scan_alike {side : Side} (node : String) (size : Nat)
    {places places' : List (Option (Edge × Nat))}
    (h : List.Forall₂ (fun p p' => (∀ x ∈ p, side = .either ∨ x.1.kind = .directed) ∧
      Option.Rel Table.SameEntry p p') places places') (place left : Nat) :
    Outcome.Alike (fun e f : Edge => (e == f) = true) (scan side node size place left places).1
        (scan side node size place left places').1 ∧
      (scan side node size place left places).2 = (scan side node size place left places').2 := by
  induction h generalizing place left with
  | nil => exact ⟨.error (.refl _), rfl⟩
  | cons hp _ ih =>
    obtain ⟨hside, hp⟩ := hp
    cases hp with
    | none => exact ih (place + 1) left
    | some hxy =>
      cases left with
      | zero => exact ⟨.error (.refl _), rfl⟩
      | succ left =>
        rw [scan, scan, Edge.meets_congr hxy.1 (hside _ rfl) node]
        split
        · exact ⟨.ok hxy.1, rfl⟩
        · exact ih (place + 1) left

/-- A walk comes to equal edges, and comes as far, on shelves that are alike. -/
theorem next_alike (c : Cursor) {edges edges' : Shelf Edge Nat} (h : edges.Alike edges')
    (hside : ∀ e ∈ edges.table.keys, c.side = .either ∨ e.kind = .directed) :
    Outcome.Alike (fun e f : Edge => (e == f) = true) (c.next edges).1 (c.next edges').1 ∧
      (c.next edges).2 = (c.next edges').2 := by
  have hplaces : List.Forall₂ (fun p p' => (∀ x ∈ p, c.side = .either ∨ x.1.kind = .directed) ∧
      Option.Rel Table.SameEntry p p') edges.places edges'.places := by
    refine (List.forall₂_and_left _ _).mpr ⟨fun p hp x hx => hside x.1 ?_, h.places⟩
    exact List.mem_map_of_mem (List.mem_filterMap.mpr ⟨p, hp, hx⟩)
  rw [next, next, h.size_eq]
  cases c.progress with
  | waiting => exact scan_alike c.node _ hplaces _ _
  | walking size place left =>
    dsimp only
    split
    · exact scan_alike c.node size (List.forall₂_drop place hplaces) place left
    · exact ⟨.error (.refl _), rfl⟩
  | finished => exact ⟨.error (.refl _), rfl⟩

end Cursor

namespace Session

variable {s s' : Session} {c c' : Command}

theorem WellFormed.ofKind_tree (hs : s.WellFormed) {g : Nat} {t : GraphTree}
    (ht : s.tree? g = some t) : t.OfKind t.graph.kind := by
  obtain ⟨r, hr⟩ := exists_record_of_tree? ht
  have hkind := hs.ofKind hr ht
  rwa [← hkind.kind_eq] at hkind

/-- Walks that are kept are walks over graphs that there are, at a side that these allow. -/
def SidesAllowed (s : Session) : Prop :=
  ∀ (name : String) (c : Cursor), s.cursors.get? name = some c →
    ∃ r, s.graphs[c.graph]? = some r ∧ r.kind.allows c.side = .ok ()

theorem Exclusive.sidesAllowed_step (hs : s.Exclusive) (h : s.SidesAllowed) (d : Command) :
    (s.step d).2.SidesAllowed := by
  -- a graph is there for good, and stays of its kind
  have hkept : ∀ {g : Nat} {side : Side},
      (∃ r, s.graphs[g]? = some r ∧ r.kind.allows side = .ok ()) →
        ∃ r, (s.step d).2.graphs[g]? = some r ∧ r.kind.allows side = .ok () := by
    intro g side hr
    refine (hs.moves_step d).keep
      (P := fun s => ∃ r, s.graphs[g]? = some r ∧ r.kind.allows side = .ok ()) ?_ hr
    rintro s₁ s₂ hm ⟨r, hr, hallows⟩
    obtain ⟨r', hr', hkind⟩ := hm.kind_eq hr
    exact ⟨r', hr', hkind ▸ hallows⟩
  intro name c hc
  refine hkept ?_
  by_cases hopens : d.opens name = true
  · cases d with
    | openCursor other g side node =>
      obtain rfl : other = name := eq_of_beq hopens
      rw [Session.step] at hc
      split at hc
      · exact h other c hc
      · next hallows =>
        obtain rfl := Option.some.inj ((Table.get?_insert_self _ _ _).symm.trans hc)
        cases hr : s.record g with
        | error e =>
          rw [hr] at hallows
          cases hallows
        | ok r =>
          rw [hr] at hallows
          exact ⟨r, record_eq_ok_iff.mp hr, hallows⟩
    | _ => cases hopens
  · by_cases hadvances : d.advances name = true
    · cases d with
      | advance other =>
        obtain rfl : other = name := eq_of_beq hadvances
        rw [Session.step] at hc
        split at hc
        · exact h other c hc
        · next c₀ hc₀ =>
          split at hc
          · exact h other c hc
          · obtain rfl := Option.some.inj ((Table.get?_insert_self _ _ _).symm.trans hc)
            exact h other c₀ hc₀
      | _ => cases hadvances
    · rw [get?_cursors_step (Bool.eq_false_iff.mpr hopens) (Bool.eq_false_iff.mpr hadvances)] at hc
      exact h name c hc

namespace Alike

theorem handle_eq (h : s.Alike s') : s.handle = s'.handle := by
  funext name
  rw [handle, handle, h.handles]

theorem step_edit (h : s.Alike s') (g : Nat) {change change' : GraphEdit}
    (hc : change.Alike change') :
    (Command.edit g change).AnswersAlike (s.step (.edit g change)).1
        (s'.step (.edit g change')).1 ∧
      (s.step (.edit g change)).2.Alike (s'.step (.edit g change')).2 := by
  have hrecord := h.record g
  rw [Session.step, Session.step]
  generalize s.record g = outcome, s'.record g = outcome' at hrecord
  cases hrecord with
  | error he => exact ⟨.alike _ (.error he), h⟩
  | ok hr =>
    obtain ⟨hanswer, hafter⟩ := h.edit g hr hc
    exact ⟨.alike _ (hanswer.reply _), hafter⟩

theorem step_ask (h : s.Alike s') (hwf : s.WellFormed) (hwf' : s'.WellFormed) (g : Nat)
    {query query' : GraphQuery} (hq : query.Alike query') :
    (Command.ask g query).AnswersAlike (s.step (.ask g query)).1 (s'.step (.ask g query')).1 ∧
      (s.step (.ask g query)).2.Alike (s'.step (.ask g query')).2 := by
  have htree := h.tree? g
  rw [Session.step, Session.step]
  generalize ht : s.tree? g = t?, ht' : s'.tree? g = t'? at htree
  cases htree with
  | none => exact ⟨.alike _ (.error (.refl _)), h⟩
  | some htrees =>
    have hkind := hwf'.ofKind_tree ht'
    rw [← htrees.graph.kind] at hkind
    exact ⟨htrees.answer (hwf.ofKind_tree ht) hkind hq g, h⟩

theorem step_advance (h : s.Alike s') (hwf : s.WellFormed) (hsides : s.SidesAllowed)
    (name : String) :
    Outcome.Alike Reply.Alike (s.step (.advance name)).1 (s'.step (.advance name)).1 ∧
      (s.step (.advance name)).2.Alike (s'.step (.advance name)).2 := by
  rw [Session.step, Session.step, ← h.cursors]
  cases hcursor : s.cursors.get? name with
  | none => exact ⟨.error (.refl _), h⟩
  | some c =>
    obtain ⟨r, hr, hallows⟩ := hsides name c hcursor
    have hrecord := h.record c.graph
    dsimp only
    rw [record_eq_ok_iff.mpr hr] at hrecord ⊢
    generalize s'.record c.graph = outcome' at hrecord
    cases hrecord with
    | @ok _ r' hrr' =>
      have hside : ∀ e ∈ r.edges.table.keys, c.side = .either ∨ e.kind = .directed := by
        intro e he
        rw [(hwf.graphs c.graph r hr).kinds e he]
        exact Kind.allows_eq_ok_iff.mp hallows
      obtain ⟨hanswer, hprogress⟩ := c.next_alike hrr'.edges hside
      refine ⟨hanswer.map fun _ _ hef => .edge hef, h.graphs, h.stores, h.handles, ?_⟩
      change s.cursors.insert name { c with progress := (c.next r.edges).2 } =
        s'.cursors.insert name { c with progress := (c.next r'.edges).2 }
      rw [hprogress, h.cursors]

theorem step_subgraph (h : s.Alike s') (g : Nat) (name : String) :
    Outcome.Alike Reply.Alike (s.step (.subgraph g name)).1 (s'.step (.subgraph g name)).1 ∧
      (s.step (.subgraph g name)).2.Alike (s'.step (.subgraph g name)).2 := by
  have hrecord := h.record g
  rw [Session.step, Session.step]
  generalize s.record g = outcome, s'.record g = outcome' at hrecord
  cases hrecord with
  | error he => exact ⟨.error he, h⟩
  | ok hr =>
    obtain ⟨hchild, hafter⟩ := h.newSubgraph g hr name
    dsimp only
    rw [hchild]
    exact ⟨.ok (.refl _), hafter⟩

theorem step_openCursor (h : s.Alike s') (name : String) (g : Nat) (side : Side) (node : String) :
    Outcome.Alike Reply.Alike (s.step (.openCursor name g side node)).1
        (s'.step (.openCursor name g side node)).1 ∧
      (s.step (.openCursor name g side node)).2.Alike
        (s'.step (.openCursor name g side node)).2 := by
  have hallows : Outcome.Alike Eq ((s.record g).bind fun r => r.kind.allows side)
      ((s'.record g).bind fun r => r.kind.allows side) :=
    (h.record g).bind fun r r' hr => .of_eq (congrArg (·.allows side) hr.kind)
  rw [Session.step, Session.step]
  generalize (s.record g).bind (fun r => r.kind.allows side) = outcome,
    (s'.record g).bind (fun r => r.kind.allows side) = outcome' at hallows
  cases hallows with
  | error he => exact ⟨.error he, h⟩
  | ok _ =>
    refine ⟨.ok (.refl _), h.graphs, h.stores, h.handles, ?_⟩
    change s.cursors.insert name _ = s'.cursors.insert name _
    rw [h.cursors]

/-- **A command on sessions that are alike** leaves sessions behind that are alike, and is answered
alike. -/
theorem step (h : s.Alike s') (hwf : s.WellFormed) (hwf' : s'.WellFormed)
    (hsides : s.SidesAllowed) (hc : c.Alike c') :
    c.AnswersAlike (s.step c).1 (s'.step c').1 ∧ (s.step c).2.Alike (s'.step c').2 := by
  cases hc with
  | edit g hc => exact h.step_edit g hc
  | ask g hq => exact h.step_ask hwf hwf' g hq
  | refl c =>
    cases c with
    | create kind name =>
      cases kind with
      | none => exact ⟨.alike _ (.error (.refl _)), h⟩
      | some kind =>
        have hnumber : s.graphs.length = s'.graphs.length := h.graphs.length_eq
        exact ⟨.alike _ (.ok (hnumber ▸ .refl _)), h.newGraph kind name⟩
    | subgraph g name =>
      obtain ⟨hanswer, hafter⟩ := h.step_subgraph g name
      exact ⟨.alike _ hanswer, hafter⟩
    | edit g change => exact h.step_edit g (.refl change)
    | ask g query => exact h.step_ask hwf hwf' g (.refl query)
    | contents g =>
      refine ⟨.alike _ ((h.record g).map fun r r' hr => ?_), h⟩
      rw [h.subgraphs_eq]
      exact .contents (h.view hr) _
    | subgraphs g =>
      refine ⟨.alike _ ((h.record g).map fun _ _ _ => ?_), h⟩
      rw [h.subgraphs_eq]
      exact .refl _
    | graphStore g name =>
      have hrecord := h.record g
      rw [Session.step, Session.step]
      generalize s.record g = outcome, s'.record g = outcome' at hrecord
      cases hrecord with
      | error he => exact ⟨.alike _ (.error he), h⟩
      | ok hr =>
        simp only [hr.attrs, h.store_eq]
        exact ⟨.alike _ (.ok (.refl _)), h.keep name _⟩
    | newStore name attrs =>
      have hid : s.stores.length = s'.stores.length := congrArg List.length h.stores
      refine ⟨.alike _ (.ok (.refl _)), ?_⟩
      rw [Session.step, Session.step, Session.newStore, Session.newStore, hid]
      exact (h.newStore _).keep (some name) _
    | editStore name change =>
      rw [Session.step, Session.step, h.handle_eq]
      split
      · exact ⟨.alike _ (.error (.refl _)), h⟩
      · next id _ =>
        rw [Session.editStore, Session.editStore, h.store_eq]
        exact ⟨.alike _ ((Outcome.Alike.of_eq rfl).reply _), h.setStore id _⟩
    | askStore name query =>
      rw [Session.step, Session.step, h.handle_eq, h.store_eq]
      exact ⟨.alike _ (.of_refl _), h⟩
    | compareStores name other =>
      rw [Session.step, Session.step, h.handle_eq, h.store_eq]
      exact ⟨.alike _ (.of_refl _), h⟩
    | openCursor name g side node =>
      obtain ⟨hanswer, hafter⟩ := h.step_openCursor name g side node
      exact ⟨.alike _ hanswer, hafter⟩
    | advance name =>
      obtain ⟨hanswer, hafter⟩ := h.step_advance hwf hsides name
      exact ⟨.alike _ hanswer, hafter⟩

end Alike

/-! ### Whole runs -/

/-- What holds in every session that commands lead to. -/
structure Sound (s : Session) : Prop where
  exclusive : s.Exclusive
  wellFormed : s.WellFormed
  sides : s.SidesAllowed

theorem sound_empty : ({} : Session).Sound :=
  ⟨exclusive_empty, wellFormed_empty, fun _ _ hc => by cases hc⟩

theorem Sound.step (hs : s.Sound) (d : Command) : (s.step d).2.Sound where
  exclusive := hs.exclusive.step d
  wellFormed := (hs.exclusive.moves_step d).keep Move.wellFormed hs.wellFormed
  sides := hs.exclusive.sidesAllowed_step hs.sides d

/-- Commands in a row on sessions that are alike. -/
theorem Alike.run (h : s.Alike s') (hs : s.Sound) (hs' : s'.Sound) {cs cs' : List Command}
    (hcs : List.Forall₂ Command.Alike cs cs') :
    List.Forall₂ (fun x a' => x.1.AnswersAlike x.2 a') (cs.zip (s.run cs).1) (s'.run cs').1 ∧
      (s.run cs).2.Alike (s'.run cs').2 ∧ (s.run cs).2.Sound ∧ (s'.run cs').2.Sound := by
  induction hcs generalizing s s' with
  | nil => exact ⟨.nil, h, hs, hs'⟩
  | cons hc _ ih =>
    obtain ⟨hanswer, hafter⟩ := h.step hs.wellFormed hs'.wellFormed hs.sides hc
    obtain ⟨hanswers, hend⟩ := ih hafter (hs.step _) (hs'.step _)
    exact ⟨.cons hanswer hanswers, hend⟩

/-- **Which end of an edge is written first makes no difference.** Let two runs give the same
commands, except that edges that are named in them may be equal without being written alike: without
directions, any of them may be written from the other end.

* The answers to the commands are alike: errors are of the same cause, what is read is the same,
  and where edges are shown, equal edges are shown in the same order.
* In the end all stores are the same and kept under the same names, and the graphs are the same but
  for the spelling of edges: equal edges stand in the same places.
* All that is asked of the graphs then is answered alike: walks meet equal edges in the same order,
  the names of all nodes are the same up to their order, and networks have the same nodes, edges and
  attributes. -/
theorem run_alike {cs cs' : List Command} (hcs : List.Forall₂ Command.Alike cs cs') :
    let s := (run {} cs).2
    let s' := (run {} cs').2
    List.Forall₂ (fun x a' => x.1.AnswersAlike x.2 a') (cs.zip (run {} cs).1) (run {} cs').1 ∧
    s.stores = s'.stores ∧ s.handles = s'.handles ∧
    (∀ g, Option.Rel Graph.Alike (s.graph? g) (s'.graph? g) ∧ s.subgraphs g = s'.subgraphs g) ∧
    ∀ (g : Nat) (query query' : GraphQuery), query.Alike query' →
      (Command.ask g query).AnswersAlike (s.step (.ask g query)).1 (s'.step (.ask g query')).1 := by
  intro s s'
  have hempty : ({} : Session).Alike {} := ⟨.nil, rfl, rfl, rfl⟩
  obtain ⟨hanswers, hend, hs, hs'⟩ := hempty.run sound_empty sound_empty hcs
  refine ⟨hanswers, hend.stores, hend.handles, fun g => ⟨hend.graph? g, hend.subgraphs_eq g⟩, ?_⟩
  intro g query query' hq
  exact (hend.step_ask hs.wellFormed hs'.wellFormed g hq).1

/-- An edge that goes and comes back, with its ends swapped in every command. The nodes are named in
another order, and the attributes and the network are the same. -/
theorem run_alike_swapped :
    let ab : Item := .edge ⟨.undirected, "a", "b"⟩
    let ba : Item := .edge ⟨.undirected, "b", "a"⟩
    let s (e f : Item) : Session := (run {} [.create (some .undirected) "",
      .edit 0 (.addEdge e ⟨[["k", "1"]], ∅⟩ none), .edit 0 (.eraseEdge f),
      .edit 0 (.addEdge f {} none), .edit 0 (.setItem (.tuple [e, .text "k"]) "2")]).2
    (s ab ba).stores = (s ba ab).stores ∧
      (Command.ask 0 .network).AnswersAlike ((s ab ba).step (.ask 0 .network)).1
        ((s ba ab).step (.ask 0 .network)).1 ∧
      ((s ab ba).step (.ask 0 .nodeNames)).1 = .ok (.names ["b", "a"]) ∧
      ((s ba ab).step (.ask 0 .nodeNames)).1 = .ok (.names ["a", "b"]) := by
  intro ab ba s
  have hab : (ab == ba) = true := by decide
  have hba : (ba == ab) = true := by decide
  have hindex : (Item.tuple [ab, .text "k"] == Item.tuple [ba, .text "k"]) = true := by decide
  obtain ⟨-, hstores, -, -, hask⟩ := run_alike (.cons (.refl (.create (some .undirected) ""))
    (.cons (.edit 0 (.addEdge hab ⟨[["k", "1"]], ∅⟩ none)) (.cons (.edit 0 (.eraseEdge hba))
      (.cons (.edit 0 (.addEdge hba {} none)) (.cons (.edit 0 (.setItem hindex "2")) .nil)))))
  exact ⟨hstores, hask 0 _ _ (.refl .network), by rfl, by rfl⟩

end Session

end GraphScript
