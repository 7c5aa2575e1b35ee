import GraphScript.Proofs.Walks
import GraphScript.Proofs.Ports

/-!
# Changes to graphs as plain values

A session holds the attributes of a graph in stores. This module says what a change does to the
graph as a plain value (`Graph.edit`), without stores, and that the session shows just this
(`Session.Exclusive.realizes_edit`): the answer is the same, and so is the graph then. All other
graphs, and what is inside of what, stay as they were (`Session.Exclusive.frame_edit`).

An entry that is written to is made if need be, in whichever of the three ways: `Graph.put`.
-/

namespace GraphScript

/-! ### Changes without stores -/

namespace Graph

/-- The attributes at a place. There are none at a place that there is not. -/
def attrsAt (g : Graph) (slot : Slot) : Attributes := (g.attrs? slot).getD ∅

/-- The graph with other attributes at a place, which is made if need be. -/
def put (g : Graph) (attrs : Attributes) : Slot → Graph
  | .graph => { g with attrs := attrs }
  | .node name => { g with nodes := g.nodes.insert name attrs }
  | .edge e => { g with edges := g.edges.insert e attrs }

/-- Gives an attribute at a place a value. -/
def setIn (g : Graph) (slot : Slot) (key value : String) :
    Except Error (Option Attributes) × Graph :=
  (.ok none, g.put ((g.attrsAt slot).insert key value) slot)

/-- Takes the attributes mentioned at a place, and answers what is there then. -/
def mergeIn (g : Graph) (slot : Slot) (mentions : Mentions) :
    Except Error (Option Attributes) × Graph :=
  let (outcome, attrs) := (g.attrsAt slot).merge mentions
  (outcome.map fun _ => some attrs, g.put attrs slot)

/-- Gives the attribute at an address a value. Only texts are keys, as in `Session.setAt`. -/
def setAt (g : Graph) (value : String) : Address → Except Error (Option Attributes) × Graph
  | .graph (.text key) => g.setIn .graph key value
  | .node node (.text key) => g.setIn (.node node) key value
  | .edge target key =>
    match g.kind.edgeOf target, key with
    | .error e, _ => (.error e, g)
    | .ok edge, .text key => g.setIn (.edge edge) key value
    | .ok _, key => (.error (.notFound .attributeKey key), g)
  | .graph key | .node _ key => (.error (.notFound .attributeKey key), g)

/-- Makes a change. The answer is the attributes of what was added, if anything was to be added. -/
def edit (g : Graph) : GraphEdit → Except Error (Option Attributes) × Graph
  | .rename name => (.ok none, { g with name := name })
  | .addNode node mentions _ => g.mergeIn (.node node) mentions
  | .addEdge item mentions _ =>
    match g.kind.edgeOf item with
    | .error e => (.error e, g)
    | .ok edge => g.mergeIn (.edge edge) mentions
  | .setAttr key value => g.setAt value (.graph (.text key))
  | .setNodeAttr node key value => g.setAt value (.node node (.text key))
  | .setEdgeAttr edge key value => g.setAt value (.edge edge (.text key))
  | .setItem index value =>
    match Address.ofItem index with
    | .ok address => g.setAt value address
    | .error e => (.error e, g)
  | .eraseNode node =>
    if g.nodes.contains node then (.ok none, { g with nodes := g.nodes.erase node })
    else (.error (.absent (.text node)), g)
  | .eraseEdge item =>
    match item.edge?.filter g.edges.contains with
    | some edge => (.ok none, { g with edges := g.edges.erase edge })
    | none => (.error (.absent item), g)

end Graph

namespace Table

variable {κ α β : Type}

theorem map_push (f : α → β) (t : Table κ α) (k : κ) (v : α) :
    (t.push k v).map f = (t.map f).push k (f v) := by
  simp [push, map]

variable [BEq κ]

theorem map_erase (f : α → β) (t : Table κ α) (k : κ) :
    (t.erase k).map f = (t.map f).erase k := by
  simp only [erase, map, List.filter_map]
  rfl

theorem insert_of_contains {t : Table κ α} {k : κ} (h : t.contains k = true) (v : α) :
    t.insert k v = t.replace k v := by
  rw [insert, if_pos h]

theorem insert_of_not_contains {t : Table κ α} {k : κ} (h : t.contains k = false) (v : α) :
    t.insert k v = t.push k v := by
  rw [insert, h, if_neg Bool.false_ne_true]

end Table

/-- An entry that was written is found under every key that equals its own, and all other entries
are found as before. -/
theorem Table.get?_insert {κ α : Type} [BEq κ] [EquivBEq κ] (t : Table κ α) (k j : κ) (v : α) :
    (t.insert k v).get? j = if k == j then some v else t.get? j := by
  split
  · next h => rw [get?, ← find?_congr _ h, ← get?, get?_insert_self]
  · next h => exact get?_insert_of_ne t v (Bool.eq_false_iff.mpr h)

/-- An entry that has just been made is the one that is found. -/
theorem Table.get?_push_self {κ α : Type} [BEq κ] [EquivBEq κ] {t : Table κ α} {k : κ}
    (h : t.contains k = false) (v : α) : (t.push k v).get? k = some v := by
  rw [← Table.insert_of_not_contains h, Table.get?_insert_self]

/-- At a place that there is, putting attributes is writing them. -/
theorem Graph.put_eq_write {g : Graph} {slot : Slot} (h : (g.attrs? slot).isSome)
    (attrs : Attributes) : g.put attrs slot = g.write attrs slot := by
  cases slot with
  | graph => rfl
  | node name =>
    have hc : g.nodes.contains name = true := (Table.isSome_get? _ _).symm.trans h
    rw [put, write, Table.insert_of_contains hc]
  | edge e =>
    have hc : g.edges.contains e = true := (Table.isSome_get? _ _).symm.trans h
    rw [put, write, Table.insert_of_contains hc]

namespace Session

variable {s : Session} {g : Nat} {r : GraphRecord} {slot : Slot} {id : Nat}

/-! ### Stores of places -/

/-- A place of a graph in a session has a store, with the attributes at the place as a plain value,
and writing to it is putting attributes there. -/
structure Attached (s : Session) (g : Nat) (graph : Graph) (slot : Slot) (id : Nat) : Prop where
  store : s.store id = graph.attrsAt slot
  record : ∃ r, s.graphs[g]? = some r ∧ r.store? slot = some id ∧
    ∀ attrs, (s.view r).write attrs slot = graph.put attrs slot

/-- A place that there is has a store. -/
theorem attached_of_store? (hr : s.graphs[g]? = some r) (hslot : r.store? slot = some id) :
    s.Attached g (s.view r) slot id where
  store := by rw [Graph.attrsAt, attrs?_view, hslot, Option.map_some, Option.getD_some]
  record := by
    refine ⟨r, hr, hslot, fun attrs => (Graph.put_eq_write ?_ attrs).symm⟩
    rw [attrs?_view, hslot, Option.map_some, Option.isSome_some]

/-- A store that is made leaves the graphs as they are. -/
theorem Exclusive.view_newStore (hs : s.Exclusive) (hr : s.graphs[g]? = some r) :
    (s.newStore ∅).2.view r = s.view r := by
  have hm : Moves none s (s.newStore (Table.ofList [])).2 := (Move.free []).moves
  exact (hm.record_eq hs hr (Option.some_ne_none g).symm).2

theorem Exclusive.view_push_node (hs : s.Exclusive) (hr : s.graphs[g]? = some r) (node : String) :
    (s.newStore ∅).2.view { r with nodes := r.nodes.push node s.stores.length } =
      { s.view r with nodes := (s.view r).nodes.push node ∅ } := by
  have hnew : (s.newStore ∅).2.store s.stores.length = ∅ := store_newStore_self s ∅
  rw [← hs.view_newStore hr, view, view, Table.map_push, hnew]

theorem Exclusive.view_push_edge (hs : s.Exclusive) (hr : s.graphs[g]? = some r) (e : Edge) :
    (s.newStore ∅).2.view { r with edges := r.edges.push e s.stores.length } =
      { s.view r with edges := (s.view r).edges.push e ∅ } := by
  have hnew : (s.newStore ∅).2.store s.stores.length = ∅ := store_newStore_self s ∅
  rw [← hs.view_newStore hr, view, view, Shelf.table_push, Table.map_push, hnew]

theorem Exclusive.attached_nodeStore (hs : s.Exclusive) (hr : s.graphs[g]? = some r)
    (node : String) :
    (s.nodeStore g r node).2.Attached g (s.view r) (.node node) (s.nodeStore g r node).1 := by
  rw [nodeStore]
  split
  · next id hid => exact attached_of_store? hr hid
  · next hnone =>
    have hc := Table.get?_eq_none_iff.mp hnone
    have hc' : (s.view r).nodes.contains node = false := (Table.contains_map _ _ _).trans hc
    refine ⟨?_, _, getElem?_modifyGraph_self hr _, Table.get?_push_self hc _, fun attrs => ?_⟩
    · have hnew := store_newStore_self s ∅
      rwa [Graph.attrsAt, Graph.attrs?, Table.get?_eq_none_iff.mpr hc', Option.getD_none]
    · have hview := hs.view_push_node hr node
      change ((s.newStore ∅).2.view _).write attrs _ = _
      rw [hview, Graph.write, Graph.put, Table.insert_of_not_contains hc', Table.replace_push hc']

theorem Exclusive.attached_edgeStore (hs : s.Exclusive) (hr : s.graphs[g]? = some r) (e : Edge) :
    (s.edgeStore g r e).2.Attached g (s.view r) (.edge e) (s.edgeStore g r e).1 := by
  rw [edgeStore]
  split
  · next id hid => exact attached_of_store? hr hid
  · next hnone =>
    have hc := Table.get?_eq_none_iff.mp hnone
    have hc' : (s.view r).edges.contains e = false := (Table.contains_map _ _ _).trans hc
    refine ⟨?_, _, getElem?_modifyGraph_self hr _, ?_, fun attrs => ?_⟩
    · have hnew := store_newStore_self s ∅
      rwa [Graph.attrsAt, Graph.attrs?, Table.get?_eq_none_iff.mpr hc', Option.getD_none]
    · rw [GraphRecord.store?, Shelf.table_push, Table.get?_push_self hc]
      rfl
    · have hview := hs.view_push_edge hr e
      change ((s.newStore ∅).2.view _).write attrs _ = _
      rw [hview, Graph.write, Graph.put, Table.insert_of_not_contains hc', Table.replace_push hc']

/-! ### What a session shows of a change -/

/-- An outcome in a session, with what the session shows of a graph then, is an outcome with a plain
value. -/
def Realizes {α : Type} (g : Nat) (x : Except Error α × Session) (y : Except Error α × Graph) :
    Prop :=
  x.1 = y.1 ∧ x.2.graph? g = some y.2

theorem Attached.graph?_setStore {graph : Graph} (h : s.Attached g graph slot id)
    (hs : s.Exclusive) (hwf : s.WellFormed) (attrs : Attributes) :
    (s.setStore id attrs).graph? g = some (graph.put attrs slot) := by
  obtain ⟨r, hr, hid, hput⟩ := h.record
  have hr' : (s.setStore id attrs).graphs[g]? = some r := hr
  rw [graph?, hr', Option.map_some, hs.view_setStore hr (hwf.graphs g r hr) hid, hput]

theorem graph?_keep (s : Session) (name : Option String) (id g : Nat) :
    (s.keep name id).graph? g = s.graph? g := by
  cases name <;> rfl

theorem Attached.setIn {graph : Graph} (h : s.Attached g graph slot id) (hs : s.Exclusive)
    (hwf : s.WellFormed) (key value : String) :
    Realizes g (s.setIn id key value) (graph.setIn slot key value) := by
  refine ⟨rfl, ?_⟩
  rw [Session.setIn, Graph.setIn, h.store]
  exact h.graph?_setStore hs hwf _

theorem Attached.mergeStore {graph : Graph} (h : s.Attached g graph slot id) (hs : s.Exclusive)
    (hwf : s.WellFormed) (mentions : Mentions) (name : Option String) :
    Realizes g (s.mergeStore id mentions name) (graph.mergeIn slot mentions) := by
  have hgraph := h.graph?_setStore hs hwf ((graph.attrsAt slot).merge mentions).2
  rw [Session.mergeStore, Graph.mergeIn, h.store]
  rw [Attributes.merge] at hgraph ⊢
  cases mentions.fault? with
  | none => exact ⟨rfl, (graph?_keep _ name id g).trans hgraph⟩
  | some e => exact ⟨rfl, hgraph⟩

theorem Exclusive.realizes_setAt (hs : s.Exclusive) (hwf : s.WellFormed)
    (hr : s.graphs[g]? = some r) (value : String) (address : Address) :
    Realizes g (s.setAt g r value address) ((s.view r).setAt value address) := by
  have hgraph := graph?_eq hr
  cases address with
  | graph key =>
    cases key with
    | text key => exact (@attached_of_store? s g r .graph _ hr rfl).setIn hs hwf key value
    | _ => exact ⟨rfl, hgraph⟩
  | node node key =>
    cases key with
    | text key =>
      have hm := (moves_nodeStore hr node).1
      exact (hs.attached_nodeStore hr node).setIn (hm.keep Move.exclusive hs)
        (hm.keep Move.wellFormed hwf) key value
    | _ => exact ⟨rfl, hgraph⟩
  | edge target key =>
    have hkind : (s.view r).kind = r.kind := rfl
    simp only [setAt, Graph.setAt, hkind]
    cases hgiven : r.kind.edgeOf target with
    | error e => exact ⟨rfl, hgraph⟩
    | ok edge =>
      cases key with
      | text key =>
        have hm := (moves_edgeStore hr (Kind.edgeOf_eq_ok_iff.mp hgiven).2).1
        exact (hs.attached_edgeStore hr edge).setIn (hm.keep Move.exclusive hs)
          (hm.keep Move.wellFormed hwf) key value
      | _ => exact ⟨rfl, hgraph⟩

/-- **A change to a graph of a session is a change to it as a plain value.** -/
theorem Exclusive.realizes_edit (hs : s.Exclusive) (hwf : s.WellFormed)
    (hr : s.graphs[g]? = some r) (change : GraphEdit) :
    Realizes g (s.edit g r change) ((s.view r).edit change) := by
  have hgraph := graph?_eq hr
  have hkind : (s.view r).kind = r.kind := rfl
  have hmodified : ∀ f : GraphRecord → GraphRecord,
      (s.modifyGraph g f).graph? g = some (s.view (f r)) := fun f =>
    graph?_eq (getElem?_modifyGraph_self hr f)
  cases change with
  | rename name => exact ⟨rfl, hmodified _⟩
  | addNode node mentions keep =>
    have hm := (moves_nodeStore hr node).1
    exact (hs.attached_nodeStore hr node).mergeStore (hm.keep Move.exclusive hs)
      (hm.keep Move.wellFormed hwf) mentions keep
  | addEdge item mentions keep =>
    simp only [edit, Graph.edit, hkind]
    cases hgiven : r.kind.edgeOf item with
    | error e => exact ⟨rfl, hgraph⟩
    | ok edge =>
      have hm := (moves_edgeStore hr (Kind.edgeOf_eq_ok_iff.mp hgiven).2).1
      exact (hs.attached_edgeStore hr edge).mergeStore (hm.keep Move.exclusive hs)
        (hm.keep Move.wellFormed hwf) mentions keep
  | setAttr | setNodeAttr | setEdgeAttr => exact hs.realizes_setAt hwf hr _ _
  | setItem index value =>
    rw [edit, Graph.edit]
    cases Address.ofItem index with
    | error e => exact ⟨rfl, hgraph⟩
    | ok address => exact hs.realizes_setAt hwf hr value address
  | eraseNode node =>
    have hcontains : (s.view r).nodes.contains node = r.nodes.contains node :=
      Table.contains_map _ _ _
    rw [edit, Graph.edit, hcontains]
    split
    · refine ⟨rfl, (hmodified _).trans ?_⟩
      rw [view, Table.map_erase]
      rfl
    · exact ⟨rfl, hgraph⟩
  | eraseEdge item =>
    have hcontains : (s.view r).edges.contains = r.edges.table.contains :=
      funext fun e => Table.contains_map _ _ _
    rw [edit, Graph.edit, hcontains]
    cases item.edge?.filter r.edges.table.contains with
    | none => exact ⟨rfl, hgraph⟩
    | some edge =>
      refine ⟨rfl, (hmodified _).trans ?_⟩
      rw [view, Shelf.table_erase, Table.map_erase]
      rfl

/-! ### What a change leaves as it was -/

theorem length_graphs_nodeStore (s : Session) (g : Nat) (r : GraphRecord) (node : String) :
    (s.nodeStore g r node).2.graphs.length = s.graphs.length := by
  rw [nodeStore]
  split
  · rfl
  · exact List.length_modify _ _ _

theorem length_graphs_edgeStore (s : Session) (g : Nat) (r : GraphRecord) (e : Edge) :
    (s.edgeStore g r e).2.graphs.length = s.graphs.length := by
  rw [edgeStore]
  split
  · rfl
  · exact List.length_modify _ _ _

theorem length_graphs_setAt (s : Session) (g : Nat) (r : GraphRecord) (value : String)
    (address : Address) : (s.setAt g r value address).2.graphs.length = s.graphs.length := by
  unfold setAt
  split
  · rfl
  · exact length_graphs_nodeStore s g r _
  · split
    · rfl
    · exact length_graphs_edgeStore s g r _
    · rfl
  · rfl
  · rfl

theorem length_graphs_edit (s : Session) (g : Nat) (r : GraphRecord) (change : GraphEdit) :
    (s.edit g r change).2.graphs.length = s.graphs.length := by
  cases change with
  | rename name => exact List.length_modify _ _ _
  | addNode node mentions keep =>
    rw [edit, graphs_mergeStore]
    exact length_graphs_nodeStore s g r node
  | addEdge item mentions keep =>
    rw [edit]
    split
    · rfl
    · rw [graphs_mergeStore]
      exact length_graphs_edgeStore s g r _
  | setAttr | setNodeAttr | setEdgeAttr => exact length_graphs_setAt s g r _ _
  | setItem index value =>
    rw [edit]
    split
    · exact length_graphs_setAt s g r value _
    · rfl
  | eraseNode | eraseEdge =>
    rw [edit]
    split
    · exact List.length_modify _ _ _
    · rfl

/-- A change to a graph leaves all other graphs as they were, and what is inside of what. -/
theorem Exclusive.frame_edit (hs : s.Exclusive) (hr : s.graphs[g]? = some r) (change : GraphEdit)
    (h : Nat) :
    (h ≠ g → (s.edit g r change).2.graph? h = s.graph? h) ∧
      (s.edit g r change).2.subgraphs h = s.subgraphs h := by
  have hlength := length_graphs_edit s g r change
  cases hh : s.graphs[h]? with
  | none =>
    have hh' : (s.edit g r change).2.graphs[h]? = none := by
      rw [List.getElem?_eq_none_iff] at hh ⊢
      omega
    rw [graph?, graph?, subgraphs, subgraphs, hh, hh']
    exact ⟨fun _ => rfl, rfl⟩
  | some q =>
    by_cases hne : h = g
    · subst hne
      obtain rfl := Option.some.inj (hr.symm.trans hh)
      obtain ⟨name, hr'⟩ := exists_getElem?_edit hr change
      rw [subgraphs_eq hr', subgraphs_eq hr]
      exact ⟨fun hne => absurd rfl hne, rfl⟩
    · have hw : some g ≠ some h := fun heq => hne (Option.some.inj heq).symm
      obtain ⟨hh', hview⟩ := (hs.moves_edit hr change).record_eq hs hh hw
      rw [graph?_eq hh, graph?_eq hh', hview, subgraphs_eq hh, subgraphs_eq hh']
      exact ⟨fun _ => rfl, rfl⟩

end Session

end GraphScript
