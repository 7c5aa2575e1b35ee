import GraphScript.Proofs.Documents

/-!
# Live stores

A caller may keep the attributes of a graph, a node or an edge under a name and write to them later.
This module says where such a write shows.

* **Slots**: a store is in at most one place of one graph, which `GraphRecord.store?` finds by its
  `Slot`. A write through an *attached* store changes this place and nothing else
  (`Session.Exclusive.view_setStore`).
* **Frame** (`Session.Moves.tree?_eq`): what commands do to one graph shows in the contents of this
  graph alone, and in the trees of this graph and of those around it.
* **Detached stores** (`Session.Detached`): a store that was made on its own, or whose node or edge
  was removed, is in no place of any graph, and no command ever puts it into one again
  (`Session.Move.detached`). So nobody can see what is written to it, except by its name.
-/

namespace GraphScript

/-! ### Tables of stores -/

namespace Table

variable {κ α β : Type} [BEq κ] {t : Table κ α} {k : κ} {v : α}

theorem get?_map (f : α → β) (t : Table κ α) (k : κ) : (t.map f).get? k = (t.get? k).map f := by
  rw [get?, get?, find?, find?, map, List.find?_map, Option.map_map, Option.map_map]
  rfl

theorem exists_entry_of_get? (h : t.get? k = some v) :
    ∃ j, (j, v) ∈ t.entries ∧ (j == k) = true := by
  obtain ⟨⟨j, x⟩, he, rfl⟩ := Option.map_eq_some_iff.mp h
  have hfound := List.find?_some he
  exact ⟨j, List.mem_of_find?_eq_some he, hfound⟩

theorem Distinct.nodup_keys [EquivBEq κ] (ht : t.Distinct) : t.keys.Nodup := by
  refine ((distinct_iff_keys t).mp ht).imp fun {i j} hne heq => ?_
  rw [heq, BEq.rfl] at hne
  exact absurd hne Bool.noConfusion

/-- Where neither a key nor a value stands twice, an entry has the one exactly if it has the
other. -/
theorem Distinct.beq_iff_eq_of_get? [EquivBEq κ] (ht : t.Distinct) (hv : t.values.Nodup)
    (h : t.get? k = some v) {e : κ × α} (he : e ∈ t.entries) : (e.1 == k) = true ↔ e.2 = v := by
  obtain ⟨j, hj, hjk⟩ := exists_entry_of_get? h
  constructor
  · intro hek
    have hkeys : e.1 = j := ht.eq_of_beq (List.mem_map_of_mem he) (List.mem_map_of_mem hj)
      (BEq.trans hek (BEq.symm hjk))
    exact congrArg Prod.snd (List.inj_on_of_nodup_map ht.nodup_keys he hj hkeys)
  · intro hev
    have hentry := List.inj_on_of_nodup_map hv he hj hev
    rw [hentry]
    exact hjk

/-- A change in what one value stands for is a change at one key. -/
theorem Distinct.map_eq_replace [EquivBEq κ] (ht : t.Distinct) (hv : t.values.Nodup)
    (h : t.get? k = some v) {f f' : α → β} (hf : ∀ x, x ≠ v → f' x = f x) :
    t.map f' = (t.map f).replace k (f' v) := by
  rw [map, map, replace, List.map_map]
  refine congrArg Table.mk (List.map_congr_left fun e he => ?_)
  have hiff := ht.beq_iff_eq_of_get? hv h he
  rw [Function.comp_apply]
  split
  · next hek => rw [hiff.mp hek]
  · next hek => rw [hf e.2 (mt hiff.mpr hek)]

/-- What stood under a key that was erased stands nowhere. -/
theorem Distinct.not_mem_values_erase [EquivBEq κ] (ht : t.Distinct) (hv : t.values.Nodup)
    (h : t.get? k = some v) : v ∉ (t.erase k).values := by
  intro hmem
  obtain ⟨e, he, rfl⟩ := List.mem_map.mp hmem
  obtain ⟨he, hek⟩ := List.mem_filter.mp he
  rw [(ht.beq_iff_eq_of_get? hv h he).mpr rfl] at hek
  exact absurd hek Bool.noConfusion

end Table

/-! ### Slots -/

/-- A place in a graph where attributes are. -/
inductive Slot where
  /-- The attributes of the graph itself. -/
  | graph
  /-- The attributes of a node. -/
  | node (name : String)
  /-- The attributes of an edge, which may be written from either end if it has no direction. -/
  | edge (e : Edge)

namespace Slot

/-- The question for an attribute at a place. -/
def query (key : String) : Slot → GraphQuery
  | graph => .attr key
  | node name => .nodeAttr name key
  | edge e => .edgeAttr (.edge e) key

end Slot

/-- The attributes at a place, if there is such a place. -/
def Graph.attrs? (g : Graph) : Slot → Option Attributes
  | .graph => some g.attrs
  | .node name => g.nodes.get? name
  | .edge e => g.edges.get? e

/-- The graph with other attributes at a place. -/
def Graph.write (g : Graph) (attrs : Attributes) : Slot → Graph
  | .graph => { g with attrs := attrs }
  | .node name => { g with nodes := g.nodes.replace name attrs }
  | .edge e => { g with edges := g.edges.replace e attrs }

/-- What a question for an attribute at a place answers. -/
theorem GraphTree.answer_query {t : GraphTree} {slot : Slot} {attrs : Attributes}
    (h : t.graph.attrs? slot = some attrs) (key : String) :
    t.answer (slot.query key) = (attrs.lookup (.text key)).map .text := by
  cases slot with
  | graph =>
    obtain rfl := Option.some.inj h
    rfl
  | node name =>
    have hfound : t.graph.nodes.get? name = some attrs := h
    rw [Slot.query, answer, Graph.nodeAttr, hfound]
  | edge e =>
    have hfound : t.graph.edges.get? e = some attrs := h
    rw [Slot.query, answer, Graph.edgeAttr, Item.edge?, Option.bind_some, hfound]

namespace GraphRecord

/-- The store at a place. -/
def store? (r : GraphRecord) : Slot → Option Nat
  | .graph => some r.attrs
  | .node name => r.nodes.get? name
  | .edge e => r.edges.table.get? e

variable {r : GraphRecord} {slot : Slot} {id : Nat}

theorem mem_stores_of_store? (h : r.store? slot = some id) : id ∈ r.stores := by
  cases slot with
  | graph =>
    obtain rfl := Option.some.inj h
    exact List.mem_cons_self
  | node name =>
    exact List.mem_cons_of_mem _ (List.mem_append_left _ (Table.mem_values_of_get? h))
  | edge e =>
    exact List.mem_cons_of_mem _ (List.mem_append_right _ (Table.mem_values_of_get? h))

/-- The places of a graph share no store. -/
theorem nodup_stores_iff : r.stores.Nodup ↔
    r.nodes.values.Nodup ∧ r.edges.table.values.Nodup ∧ r.attrs ∉ r.nodes.values ∧
      r.attrs ∉ r.edges.table.values ∧ ∀ i ∈ r.nodes.values, i ∉ r.edges.table.values := by
  rw [stores, List.nodup_cons, List.nodup_append', List.mem_append, not_or]
  constructor
  · rintro ⟨⟨hnode, hedge⟩, hnodes, hedges, hdisjoint⟩
    exact ⟨hnodes, hedges, hnode, hedge, fun _ hi hi' => hdisjoint hi hi'⟩
  · rintro ⟨hnodes, hedges, hnode, hedge, hdisjoint⟩
    exact ⟨⟨hnode, hedge⟩, hnodes, hedges, fun i hi hi' => hdisjoint i hi hi'⟩

/-- The store of a node that is removed is in no other place of the graph. -/
theorem not_mem_stores_eraseNode (hwf : r.WellFormed) (hr : r.stores.Nodup) {node : String}
    (h : r.nodes.get? node = some id) : id ∉ { r with nodes := r.nodes.erase node }.stores := by
  obtain ⟨hnodes, -, hattrs, -, hdisjoint⟩ := nodup_stores_iff.mp hr
  have hin := Table.mem_values_of_get? h
  intro hmem
  rcases List.mem_cons.mp hmem with rfl | hmem
  · exact hattrs hin
  · rcases List.mem_append.mp hmem with hmem | hmem
    · exact hwf.nodes.not_mem_values_erase hnodes h hmem
    · exact hdisjoint id hin hmem

/-- The store of an edge that is removed is in no other place of the graph. -/
theorem not_mem_stores_eraseEdge (hwf : r.WellFormed) (hr : r.stores.Nodup) {e : Edge}
    (h : r.edges.table.get? e = some id) : id ∉ { r with edges := r.edges.erase e }.stores := by
  obtain ⟨-, hedges, -, hattrs, hdisjoint⟩ := nodup_stores_iff.mp hr
  have hin := Table.mem_values_of_get? h
  intro hmem
  rcases List.mem_cons.mp hmem with rfl | hmem
  · exact hattrs hin
  · rcases List.mem_append.mp hmem with hmem | hmem
    · exact hdisjoint id hmem hin
    · rw [Shelf.table_erase] at hmem
      exact hwf.edges.not_mem_values_erase hedges h hmem

end GraphRecord

namespace Session

variable {s s' : Session} {w : Option Nat} {g h id : Nat} {r : GraphRecord} {slot : Slot}

/-! ### Writing to an attached store -/

theorem holds_of_store? (hr : s.graphs[g]? = some r) (hslot : r.store? slot = some id) :
    s.Holds g id :=
  ⟨r, hr, GraphRecord.mem_stores_of_store? hslot⟩

theorem attrs?_view (s : Session) (r : GraphRecord) (slot : Slot) :
    (s.view r).attrs? slot = (r.store? slot).map s.store := by
  cases slot with
  | graph => rfl
  | node name => exact Table.get?_map s.store r.nodes name
  | edge e => exact Table.get?_map s.store r.edges.table e

/-- **A write to an attached store changes one place of one graph.** -/
theorem Exclusive.view_setStore (hs : s.Exclusive) (hr : s.graphs[g]? = some r)
    (hwf : r.WellFormed) (hslot : r.store? slot = some id) (attrs : Attributes) :
    (s.setStore id attrs).view r = (s.view r).write attrs slot := by
  have hid : id < s.stores.length := hs.made g id (holds_of_store? hr hslot)
  have hself := store_setStore_self hid attrs
  have hother : ∀ i, i ≠ id → (s.setStore id attrs).store i = s.store i := fun i hi =>
    store_setStore_of_ne hi.symm attrs
  -- a table in which the store is not stays as it was
  have hsame : ∀ {κ : Type} {t : Table κ Nat}, id ∉ t.values →
      t.map (s.setStore id attrs).store = t.map s.store := by
    intro κ t hnot
    refine congrArg Table.mk (List.map_congr_left fun e he => ?_)
    rw [hother e.2 fun heq => hnot (heq ▸ List.mem_map_of_mem he)]
  obtain ⟨hnodes, hedges, hattrs, hattrs', hdisjoint⟩ :=
    GraphRecord.nodup_stores_iff.mp (hs.nodup g r hr)
  cases slot with
  | graph =>
    obtain rfl := Option.some.inj hslot
    rw [view, Graph.write, hself, hsame hattrs, hsame hattrs']
    rfl
  | node name =>
    have hmem := Table.mem_values_of_get? hslot
    have hne : r.attrs ≠ id := fun heq => hattrs (heq ▸ hmem)
    rw [view, Graph.write, hother _ hne, hsame (hdisjoint id hmem),
      hwf.nodes.map_eq_replace hnodes hslot hother, hself]
    rfl
  | edge e =>
    have hmem := Table.mem_values_of_get? hslot
    have hne : r.attrs ≠ id := fun heq => hattrs' (heq ▸ hmem)
    rw [view, Graph.write, hother _ hne, hsame fun hn => hdisjoint id hn hmem,
      hwf.edges.map_eq_replace hedges hslot hother, hself]
    rfl

/-- What was written at a place is found there. -/
theorem Exclusive.attrs?_write (hs : s.Exclusive) (hwf : s.WellFormed) (hr : s.graphs[g]? = some r)
    (hslot : r.store? slot = some id) (attrs : Attributes) :
    ((s.view r).write attrs slot).attrs? slot = some attrs := by
  have hid : id < s.stores.length := hs.made g id (holds_of_store? hr hslot)
  rw [← hs.view_setStore hr (hwf.graphs g r hr) hslot, attrs?_view, hslot, Option.map_some,
    store_setStore_self hid]

/-! ### What commands leave as it was -/

/-- Moves leave all graphs as they were that they do not touch. -/
theorem Moves.record_eq (hm : Moves w s s') (hs : s.Exclusive) (hr : s.graphs[h]? = some r)
    (hw : w ≠ some h) : s'.graphs[h]? = some r ∧ s'.view r = s.view r := by
  have hkept : s'.Exclusive ∧ s'.graphs[h]? = some r ∧ s'.view r = s.view r := by
    refine hm.keep (P := fun s' => s'.Exclusive ∧ s'.graphs[h]? = some r ∧ s'.view r = s.view r)
      (fun {s₁ s₂} hm ⟨hs₁, hr₁, hv₁⟩ => ⟨hm.exclusive hs₁, ?_, ?_⟩) ⟨hs, hr, rfl⟩
    · rw [hm.getElem?_eq (List.getElem?_eq_some_iff.mp hr₁).1 hw, hr₁]
    · rw [← hv₁]
      -- its record is the same, so it is enough that the stores it holds are not written to
      have hstore : ∀ i ∈ r.stores, s₂.store i = s₁.store i := fun i hi =>
        hm.store_eq (hs₁.made h i ⟨r, hr₁, hi⟩) ⟨r, hr₁, hi⟩ hw
      have htable : ∀ {κ : Type} (t : Table κ Nat), (∀ i ∈ t.values, i ∈ r.stores) →
          t.map s₂.store = t.map s₁.store := by
        intro κ t ht
        refine congrArg Table.mk (List.map_congr_left fun e he => ?_)
        rw [hstore e.2 (ht e.2 (List.mem_map_of_mem he))]
      rw [view, view, hstore _ List.mem_cons_self,
        htable r.nodes fun i hi => List.mem_cons_of_mem _ (List.mem_append_left _ hi),
        htable r.edges.table fun i hi => List.mem_cons_of_mem _ (List.mem_append_right _ hi)]
  exact hkept.2

/-- A graph is inside another one, at any depth, or is that graph itself. -/
def IsInside (s : Session) : Nat → Nat → Prop := Relation.ReflTransGen s.IsSubgraph

theorem Forest.le_of_isInside (hf : s.Forest) (hi : s.IsInside g h) : h ≤ g := by
  induction hi with
  | refl => exact Nat.le_refl _
  | tail _ hsub ih => exact Nat.le_trans (Nat.le_of_lt (hf.older _ _ hsub)) ih

/-- **Moves show in the trees of the graph that they touch and of those around it, and in no
other.** -/
theorem Moves.tree?_eq (hm : Moves w s s') (hs : s.Exclusive) (hwf : s.WellFormed)
    (hh : h < s.graphs.length) (hw : ∀ g, w = some g → ¬ s.IsInside g h) :
    s'.tree? h = s.tree? h := by
  have hwf' : s'.WellFormed := hm.keep Move.wellFormed hwf
  -- from the inside out, as a graph around the one that is touched shows what is in it
  induction h using hwf.forest.wellFounded.induction with
  | _ h ih =>
    have hr := List.getElem?_eq_getElem hh
    obtain ⟨hr', hview⟩ := hm.record_eq hs hr fun heq => hw h heq Relation.ReflTransGen.refl
    rw [Session.tree?_eq hwf.forest.ordered hr, Session.tree?_eq hwf'.forest.ordered hr', hview]
    refine congrArg (fun ts => some (GraphTree.node (s.view s.graphs[h]) ts))
      (List.filterMap_congr fun i hi => ?_)
    have hsub : s.IsSubgraph i h := isSubgraph_iff.mpr ⟨_, hr, hi⟩
    exact ih i hsub (hwf.forest.lt_length hsub) fun g hg hin => hw g hg (hin.tail hsub)

/-! ### Detached stores -/

/-- A store that was made and that is in no graph. -/
def Detached (s : Session) (id : Nat) : Prop := id < s.stores.length ∧ ∀ g, ¬ s.Holds g id

/-- A detached store stays detached. -/
theorem Move.detached (hm : Move w s s') (hd : s.Detached id) : s'.Detached id :=
  ⟨Nat.lt_of_lt_of_le hd.1 hm.length_stores_le, hm.not_holds hd.1 hd.2⟩

/-- Commands that leave a store detached: making one, and removing the node or the edge that it
belongs to. -/
inductive Detaches (s : Session) : Command → Nat → Prop where
  | newStore {name : String} {attrs : Attributes} {id : Nat}
      (hid : (s.step (.newStore name attrs)).2.handles.get? name = some id) :
    Detaches s (.newStore name attrs) id
  | eraseNode {g : Nat} {r : GraphRecord} {node : String} {id : Nat}
      (hr : s.graphs[g]? = some r) (hid : r.nodes.get? node = some id) :
    Detaches s (.edit g (.eraseNode node)) id
  | eraseEdge {g : Nat} {r : GraphRecord} {e : Edge} {id : Nat}
      (hr : s.graphs[g]? = some r) (hid : r.edges.table.get? e = some id) :
    Detaches s (.edit g (.eraseEdge (.edge e))) id

/-- A store that its graph gives up is detached. -/
theorem Exclusive.detached_of_change (hs : s.Exclusive) (hr : s.graphs[g]? = some r)
    (hid : id ∈ r.stores) {f : GraphRecord → GraphRecord} (hnot : id ∉ (f r).stores) :
    (s.modifyGraph g f).Detached id := by
  have hholds : s.Holds g id := ⟨r, hr, hid⟩
  refine ⟨hs.made g id hholds, fun h hh => ?_⟩
  obtain ⟨r', hr', hid'⟩ := hh
  rcases modifyGraph_cases hr' with ⟨hne, hr'⟩ | ⟨rfl, r₁, hr₁, rfl⟩
  · exact hne (hs.unique g h id hholds ⟨r', hr', hid'⟩)
  · obtain rfl := Option.some.inj (hr.symm.trans hr₁)
    exact hnot hid'

theorem Detaches.detached {c : Command} (hd : s.Detaches c id) (hs : s.Exclusive)
    (hwf : s.WellFormed) : (s.step c).2.Detached id := by
  cases hd with
  | @newStore name attrs _ hid =>
    change (s.handles.insert name s.stores.length).get? name = some id at hid
    rw [Table.get?_insert_self] at hid
    obtain rfl := Option.some.inj hid
    -- the new store has a number that no graph can hold yet
    refine ⟨?_, fun g hh => Nat.lt_irrefl _ (hs.made g _ hh)⟩
    change s.stores.length < (s.stores ++ [Table.ofList attrs.entries]).length
    rw [List.length_append, List.length_singleton]
    omega
  | @eraseNode g r node _ hr hid =>
    have hcontains : r.nodes.contains node = true := by
      rw [← Table.isSome_get?, hid, Option.isSome_some]
    have hstep : (s.step (.edit g (.eraseNode node))).2 =
        s.modifyGraph g fun r => { r with nodes := r.nodes.erase node } := by
      rw [step, record_eq_ok_iff.mpr hr]
      simp only [edit, if_pos hcontains]
    rw [hstep]
    exact hs.detached_of_change hr (@GraphRecord.mem_stores_of_store? r (.node node) id hid)
      (GraphRecord.not_mem_stores_eraseNode (hwf.graphs g r hr) (hs.nodup g r hr) hid)
  | @eraseEdge g r e _ hr hid =>
    have hcontains : r.edges.table.contains e = true := by
      rw [← Table.isSome_get?, hid, Option.isSome_some]
    have hstep : (s.step (.edit g (.eraseEdge (.edge e)))).2 =
        s.modifyGraph g fun r => { r with edges := r.edges.erase e } := by
      rw [step, record_eq_ok_iff.mpr hr]
      simp [edit, Item.edge?, Option.filter, hcontains]
    rw [hstep]
    exact hs.detached_of_change hr (@GraphRecord.mem_stores_of_store? r (.edge e) id hid)
      (GraphRecord.not_mem_stores_eraseEdge (hwf.graphs g r hr) (hs.nodup g r hr) hid)

/-! ### The whole session -/

/-- Which store is where, and where a write to it shows. -/
structure LiveStores (s : Session) : Prop where
  /-- No store is in two places, of one graph or of two. -/
  exclusive : s.Exclusive
  /-- A command leaves the contents of all graphs but one as they were. -/
  contents_eq (c : Command) (h : Nat) (hh : h < s.graphs.length) (hw : s.target c ≠ some h) :
    ((s.step c).2.step (.contents h)).1 = (s.step (.contents h)).1
  /-- Nor is any answer about a graph another one, its document included, unless the command is
  about this graph or about one inside it. -/
  answer_eq (c : Command) (h : Nat) (hh : h < s.graphs.length)
    (hw : ∀ g, s.target c = some g → ¬ s.IsInside g h) (query : GraphQuery) :
    ((s.step c).2.step (.ask h query)).1 = (s.step (.ask h query)).1
  /-- A change to a store at a place of a graph is seen at this place of this graph and at no other.
  So the document of the graph is another one, unless the store holds what it held before. -/
  attached (name : String) (change : Attributes.Edit) (id g : Nat) (r : GraphRecord) (slot : Slot)
    (hname : s.handles.get? name = some id) (hr : s.graphs[g]? = some r)
    (hslot : r.store? slot = some id) :
    let attrs := ((s.store id).edit change).2
    let s' := (s.step (.editStore name change)).2
    (∀ key, (s'.step (.ask g (slot.query key))).1 = (attrs.lookup (.text key)).map .text) ∧
      (∃ graph ts, s.tree? g = some (.node graph ts) ∧
        s'.tree? g = some (.node (graph.write attrs slot) ts)) ∧
      ((s'.step (.ask g (.script .document))).1 = (s.step (.ask g (.script .document))).1 ↔
        attrs = s.store id)
  /-- A change to a store that a command has left detached is seen in no graph, whatever other
  commands come in between. -/
  detached (c : Command) (id : Nat) (hc : s.Detaches c id) (cs : List Command) (name : String)
    (change : Attributes.Edit) :
    let s' := ((s.step c).2.run cs).2
    let s'' := (s'.step (.editStore name change)).2
    s'.handles.get? name = some id →
      s''.graphs = s'.graphs ∧ ∀ h, s''.graph? h = s'.graph? h ∧ s''.tree? h = s'.tree? h

theorem step_ask {t : GraphTree} (ht : s.tree? g = some t) (query : GraphQuery) :
    (s.step (.ask g query)).1 = t.answer query := by
  rw [step, ht]

theorem step_editStore {name : String} (hname : s.handles.get? name = some id)
    (change : Attributes.Edit) :
    (s.step (.editStore name change)).2 = s.setStore id ((s.store id).edit change).2 := by
  rw [step, handle_eq_ok_iff.mpr hname]
  rfl

theorem setStore_self (hid : id < s.stores.length) : s.setStore id (s.store id) = s := by
  have hstore : s.store id = s.stores[id] := by
    rw [store, List.getElem?_eq_getElem hid]
    rfl
  rw [setStore, hstore, List.set_getElem_self]

/-- What an attached store is changed to is seen where it is attached. -/
theorem tree?_setStore (hs : s.Exclusive) (hwf : s.WellFormed) (hr : s.graphs[g]? = some r)
    (hslot : r.store? slot = some id) (change : Attributes.Edit) :
    ∃ ts, s.tree? g = some (.node (s.view r) ts) ∧
      (s.setStore id ((s.store id).edit change).2).tree? g =
        some (.node ((s.view r).write ((s.store id).edit change).2 slot) ts) := by
  have hm := hs.move_write (holds_of_store? hr hslot) change
  have hwf' := hm.wellFormed hwf
  refine ⟨_, tree?_eq hwf.forest.ordered hr, ?_⟩
  have hr' : (s.setStore id ((s.store id).edit change).2).graphs[g]? = some r := hr
  rw [tree?_eq hwf'.forest.ordered hr', hs.view_setStore hr (hwf.graphs g r hr) hslot]
  refine congrArg (fun ts => some (GraphTree.node _ ts)) (List.filterMap_congr fun i hi => ?_)
  have hsub : s.IsSubgraph i g := isSubgraph_iff.mpr ⟨r, hr, hi⟩
  refine hm.moves.tree?_eq hs hwf (hwf.forest.lt_length hsub) fun g' hg' hin => ?_
  -- a graph is not inside its own subgraphs
  obtain rfl := Option.some.inj hg'
  exact Nat.lt_irrefl _ (Nat.lt_of_lt_of_le (hwf.forest.older i g hsub)
    (hwf.forest.le_of_isInside hin))

/-- The document of a graph is another one after a change to a store at one of its places, unless
the store holds what it held before. -/
theorem document_setStore_iff (hs : s.Exclusive) (hwf : s.WellFormed) (hr : s.graphs[g]? = some r)
    (hslot : r.store? slot = some id) (change : Attributes.Edit) {t t' : GraphTree}
    (ht : s.tree? g = some t)
    (ht' : (s.setStore id ((s.store id).edit change).2).tree? g = some t') :
    t'.document = t.document ↔ ((s.store id).edit change).2 = s.store id := by
  have hholds := holds_of_store? hr hslot
  have hwf' := (hs.move_write hholds change).wellFormed hwf
  constructor
  · intro hdoc
    -- documents lose nothing, so the two trees are equal also at the place of the store
    have hsame := (hwf'.ofKind hr ht').eq_of_document_eq (hwf.ofKind hr ht) hdoc
    obtain ⟨ts, hnode, hnode'⟩ := tree?_setStore hs hwf hr hslot change
    obtain rfl := Option.some.inj (ht.symm.trans hnode)
    obtain rfl := Option.some.inj (ht'.symm.trans hnode')
    have hattrs := congrArg (Graph.attrs? · slot) (GraphTree.node.inj hsame).1
    simp only [hs.attrs?_write hwf hr hslot, attrs?_view, hslot, Option.map_some] at hattrs
    exact Option.some.inj hattrs
  · intro hstore
    rw [hstore, setStore_self (hs.made g id hholds), ht] at ht'
    rw [Option.some.inj ht']

/-- A change to a detached store is seen in no graph. -/
theorem Detached.setStore_eq (hd : s.Detached id) (hs : s.Exclusive) (hwf : s.WellFormed)
    (change : Attributes.Edit) (h : Nat) :
    (s.setStore id ((s.store id).edit change).2).graph? h = s.graph? h ∧
      (s.setStore id ((s.store id).edit change).2).tree? h = s.tree? h := by
  have hm : Moves none s (s.setStore id ((s.store id).edit change).2) :=
    (Move.write id change fun g hg => absurd hg (hd.2 g)).moves
  cases hr : s.graphs[h]? with
  | none =>
    have hr' : (s.setStore id ((s.store id).edit change).2).graphs[h]? = none := hr
    have hnone := isSome_tree? s h
    have hnone' := isSome_tree? (s.setStore id ((s.store id).edit change).2) h
    rw [hr, Option.isSome_none, Option.isSome_eq_false_iff, Option.isNone_iff_eq_none] at hnone
    rw [hr', Option.isSome_none, Option.isSome_eq_false_iff, Option.isNone_iff_eq_none] at hnone'
    rw [graph?, graph?, hr, hr', hnone, hnone']
    exact ⟨rfl, rfl⟩
  | some r =>
    obtain ⟨hr', hview⟩ := hm.record_eq hs hr nofun
    refine ⟨?_, hm.tree?_eq hs hwf (List.getElem?_eq_some_iff.mp hr).1 nofun⟩
    rw [graph?, graph?, hr, hr', Option.map_some, Option.map_some, hview]

theorem liveStores (hs : s.Exclusive) (hwf : s.WellFormed) : s.LiveStores where
  exclusive := hs
  contents_eq c h hh hw := by
    have hr := List.getElem?_eq_getElem hh
    obtain ⟨hr', hview⟩ := (hs.moves_step c).record_eq hs hr hw
    rw [step, step, record_eq_ok_iff.mpr hr, record_eq_ok_iff.mpr hr', subgraphs_eq hr,
      subgraphs_eq hr', Except.map, Except.map, hview]
  answer_eq c h hh hw query := by
    have htree := (hs.moves_step c).tree?_eq hs hwf hh hw
    obtain ⟨ts, ht, -⟩ := hwf.forest.tree?_eq_node (List.getElem?_eq_getElem hh)
    rw [step_ask ht, step_ask (htree.trans ht)]
  attached name change id g r slot hname hr hslot := by
    obtain ⟨ts, ht, ht'⟩ := tree?_setStore hs hwf hr hslot change
    have hfound := hs.attrs?_write hwf hr hslot ((s.store id).edit change).2
    rw [step_editStore hname]
    refine ⟨fun key => ?_, ⟨_, ts, ht, ht'⟩, ?_⟩
    · rw [step_ask ht']
      refine GraphTree.answer_query ?_ key
      exact hfound
    · rw [step_ask ht, step_ask ht', ← document_setStore_iff hs hwf hr hslot change ht ht']
      simp only [GraphTree.answer, GraphTree.part, Except.ok.injEq, Reply.text.injEq]
  detached c id hc cs name change := by
    have hm := hs.moves_step c
    -- an entry that is made again gets a store of its own, so this one stays detached
    obtain ⟨hs', hd', hwf'⟩ := run_induction (P := fun s => s.Detached id ∧ s.WellFormed)
      (fun hm h => ⟨hm.detached h.1, hm.wellFormed h.2⟩) cs (hm.keep Move.exclusive hs)
      ⟨hc.detached hs hwf, hm.keep Move.wellFormed hwf⟩
    intro s' s'' hname
    have hs'' : s'' = s'.setStore id ((s'.store id).edit change).2 := step_editStore hname change
    rw [hs'']
    exact ⟨rfl, hd'.setStore_eq hs' hwf' change⟩

/-- **Stores are live where they are attached and nowhere else**, in every session that commands
lead to. -/
theorem liveStores_run (cs : List Command) : (run {} cs).2.LiveStores := by
  obtain ⟨hs, hwf⟩ := run_induction Move.wellFormed cs exclusive_empty wellFormed_empty
  exact liveStores hs hwf

/-- A store that is kept of a node is live: what is written to it shows at the node and in the
document. Then the node is removed and added again. It has a store of its own now, and what is
written to the one that was kept shows nowhere. -/
theorem liveStores_readded :
    let cs : List Command := [.create (some .undirected) "",
      .edit 0 (.addNode "a" {} (some "kept"))]
    let red : Command := .editStore "kept" (.set "color" "red")
    let blue : Command := .editStore "kept" (.set "color" "blue")
    let s := (run {} cs).2
    let written := (s.step red).2
    let readded := ((written.step (.edit 0 (.eraseNode "a"))).2.run
      [.edit 0 (.addNode "a" {} none)]).2
    let document : Command := .ask 0 (.script .document)
    ((written.step (.ask 0 (.nodeAttr "a" "color"))).1 = .ok (.text "red") ∧
        (written.step document).1 ≠ (s.step document).1) ∧
      readded.graph? 0 = some { kind := .undirected, nodes := ⟨[("a", ∅)]⟩ } ∧
      readded.store 1 = ⟨[("color", "red")]⟩ ∧
      (readded.step blue).2.store 1 = ⟨[("color", "blue")]⟩ ∧
      (readded.step blue).2.tree? 0 = readded.tree? 0 := by
  intro cs red blue s written readded document
  let r : GraphRecord := { kind := .undirected, name := "", attrs := 0, nodes := ⟨[("a", 1)]⟩ }
  have hr : s.graphs[0]? = some r := by rfl
  have hkept : s.handles.get? "kept" = some 1 := by rfl
  refine ⟨?_, by rfl, by rfl, by rfl, ?_⟩
  · obtain ⟨hseen, -, hdocument⟩ := (liveStores_run cs).attached "kept" (.set "color" "red") 1 0 r
      (.node "a") hkept hr rfl
    refine ⟨hseen "color", fun hsame => ?_⟩
    have hred := hdocument.mp hsame
    cases hred
  · have hlive : written.LiveStores := liveStores_run (cs ++ [red])
    have hremoved : written.Detaches (.edit 0 (.eraseNode "a")) 1 := .eraseNode hr rfl
    exact ((hlive.detached _ 1 hremoved _ "kept" (.set "color" "blue") rfl).2 0).2

end Session

end GraphScript
