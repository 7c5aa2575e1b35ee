import GraphScript.Proofs.LiveStores
import GraphScript.Session.History
import Mathlib.Data.List.Induction

/-!
# Tables and their histories

The keys of a table are what its history says, and nothing else: neither merged attributes, nor
questions, nor what happens to other entries can change their order or their spelling.

* **One command** (`Session.Exclusive.tables_step`): it does to the tables of a graph what its event
  does, and leaves them as they are if it has none. This is an equation for the whole table of nodes
  and the whole shelf of edges, so that a walk over a shelf can be followed with it too.
* **A run** (`Session.keys_run`): the keys are those that stand in the end (`Event.standing`). As an
  event happens only when it can, what the last events of the keys say is what all events do one
  after the other.
-/

namespace GraphScript

namespace Event

variable {κ α : Type} [BEq κ]

/-! ### What an event does -/

/-- What an event does to the keys of a table. -/
def shift (keys : List κ) : Event κ → List κ
  | created k => keys ++ [k]
  | removed k => keys.filter fun j => !(j == k)

/-- What an event does to a table. A key that comes is given a value. -/
def act (value : α) (t : Table κ α) : Event κ → Table κ α
  | created k => t.push k value
  | removed k => t.erase k

/-- What an event does to a shelf. A key that comes is given a value. -/
def place (value : α) (s : Shelf κ α) : Event κ → Shelf κ α
  | created k => s.push k value
  | removed k => s.erase k

theorem keys_act (ev : Event κ) (value : α) (t : Table κ α) :
    (ev.act value t).keys = ev.shift t.keys := by
  cases ev with
  | created k => exact Table.keys_push t k value
  | removed k => exact Table.keys_erase t k

theorem table_place (ev : Event κ) (value : α) (s : Shelf κ α) :
    (ev.place value s).table = ev.act value s.table := by
  cases ev with
  | created k => exact Shelf.table_push s k value
  | removed k => exact Shelf.table_erase s k

/-- Of the key that comes at an event, only the key of the event can be equal to it. -/
theorem filter_coming (e : Event κ) (k : κ) :
    (e.coming.filter fun j => !(j == k)) = if e.key == k then [] else e.coming := by
  cases e with
  | created j =>
    rw [coming, key, List.filter_singleton]
    cases j == k <;> rfl
  | removed j => exact (ite_self _).symm

theorem happens_map {β : Type} (f : α → β) (t : Table κ α) (ev : Event κ) :
    ev.happens (t.map f) = ev.happens t := by
  cases ev with
  | created k => rw [happens, happens, Table.contains_map]
  | removed k => rw [happens, happens, Table.contains_map]

/-- The last event of a history decides about its own key and leaves the others as they stand. -/
theorem standing_concat [PartialEquivBEq κ] (es : List (Event κ)) (ev : Event κ) :
    standing (es ++ [ev]) = ((standing es).filter fun j => !(j == ev.key)) ++ ev.coming := by
  induction es with
  | nil => exact List.append_nil _
  | cons e es ih =>
    rw [List.cons_append, standing_cons, standing_cons, List.any_append, List.any_cons,
      List.any_nil, Bool.or_false, BEq.comm (a := ev.key), ih]
    cases hlater : es.any (·.key == e.key) with
    | true => rw [Bool.true_or, if_pos rfl, if_pos rfl]
    | false =>
      rw [Bool.false_or, if_neg Bool.false_ne_true, List.filter_append, filter_coming]
      split
      · rfl
      · rw [List.append_assoc]

/-- An event that can happen to the keys that stand does to them what it does. -/
theorem standing_concat_of_happens [PartialEquivBEq κ] {es : List (Event κ)} {ev : Event κ}
    {t : Table κ α} (ht : t.keys = standing es) (h : ev.happens t = true) :
    standing (es ++ [ev]) = ev.shift (standing es) := by
  rw [standing_concat]
  cases ev with
  | created k =>
    -- as no equal key is there, there is nothing to be taken out in front of the new one
    refine congrArg (· ++ [k]) (List.filter_eq_self.mpr fun j hj => ?_)
    rw [← ht] at hj
    obtain ⟨e, he, rfl⟩ := List.mem_map.mp hj
    rw [happens, Bool.not_eq_true', Table.contains, List.any_eq_false] at h
    rw [key, Bool.eq_false_iff.mpr (h e he), Bool.not_false]
  | removed k => exact List.append_nil _

theorem keys_elim_act (ev? : Option (Event κ)) (value : α) (t : Table κ α) :
    (ev?.elim t (·.act value t)).keys = ev?.elim t.keys (·.shift t.keys) := by
  cases ev? with
  | none => rfl
  | some ev => exact keys_act ev value t

theorem table_elim_place (ev? : Option (Event κ)) (value : α) (s : Shelf κ α) :
    (ev?.elim s (·.place value s)).table = ev?.elim s.table (·.act value s.table) := by
  cases ev? with
  | none => rfl
  | some ev => exact table_place ev value s

/-- Where a key comes if it can, it is there afterwards. -/
theorem contains_elim_act_created [ReflBEq κ] (t : Table κ α) (k : κ) (value : α) :
    (((some (created k)).filter (·.happens t)).elim t (·.act value t)).contains k = true := by
  rw [Option.filter_some, happens]
  cases hc : t.contains k with
  | true => exact hc
  | false =>
    have hcomes : (t.push k value).contains k = true := by
      rw [Table.contains_push, BEq.rfl, Bool.or_true]
    exact hcomes

/-- After an event that can happen, if there is one, the keys are still those that stand. -/
theorem keys_elim_act_eq_standing [PartialEquivBEq κ] {es : List (Event κ)} {t : Table κ α}
    (ht : t.keys = standing es) {ev? : Option (Event κ)}
    (h : ∀ ev, ev? = some ev → ev.happens t = true) (value : α) :
    (ev?.elim t (·.act value t)).keys = standing (es ++ ev?.toList) := by
  rw [keys_elim_act, ht]
  cases ev? with
  | none => exact congrArg standing (List.append_nil es).symm
  | some ev => exact (standing_concat_of_happens ht (h ev rfl)).symm

end Event

namespace Session

variable {s : Session} {g : Nat} {r : GraphRecord}

/-! ### The tables of a graph -/

/-- The table of nodes of a graph. -/
def nodeTable (s : Session) (g : Nat) : Table String Nat := (s.graphs[g]?.map (·.nodes)).getD ∅

/-- The shelf of edges of a graph. -/
def edgeShelf (s : Session) (g : Nat) : Shelf Edge Nat := (s.graphs[g]?.map (·.edges)).getD ∅

theorem nodeTable_eq (hr : s.graphs[g]? = some r) : s.nodeTable g = r.nodes := by
  rw [nodeTable, hr]
  rfl

theorem edgeShelf_eq (hr : s.graphs[g]? = some r) : s.edgeShelf g = r.edges := by
  rw [edgeShelf, hr]
  rfl

theorem graph?_eq (hr : s.graphs[g]? = some r) : s.graph? g = some (s.view r) := by
  rw [graph?, hr, Option.map_some]

end Session

/-! ### One command -/

namespace GraphRecord

variable {r : GraphRecord}

/-- A graph after the events of a change, as far as they can happen. What comes is given a store. -/
def after (r : GraphRecord) (id : Nat) (nodeEvent? : Option (Event String))
    (edgeEvent? : Option (Event Edge)) : GraphRecord where
  kind := r.kind
  name := r.name
  attrs := r.attrs
  nodes := (nodeEvent?.filter (·.happens r.nodes)).elim r.nodes (·.act id r.nodes)
  edges := (edgeEvent?.filter (·.happens r.edges.table)).elim r.edges (·.place id r.edges)
  subgraphs := r.subgraphs

theorem after_node_of_happens (ev : Event String) (h : ev.happens r.nodes = true) (id : Nat) :
    r.after id (some ev) none = { r with nodes := ev.act id r.nodes } := by
  rw [after, Option.filter_some, if_pos h]
  rfl

theorem after_node_of_not_happens (ev : Event String) (h : ev.happens r.nodes = false) (id : Nat) :
    r.after id (some ev) none = r := by
  rw [after, Option.filter_some, if_neg (Bool.eq_false_iff.mp h)]
  rfl

theorem after_edge_of_happens (ev : Event Edge) (h : ev.happens r.edges.table = true) (id : Nat) :
    r.after id none (some ev) = { r with edges := ev.place id r.edges } := by
  rw [after, Option.filter_some, if_pos h]
  rfl

theorem after_edge_of_not_happens (ev : Event Edge) (h : ev.happens r.edges.table = false)
    (id : Nat) : r.after id none (some ev) = r := by
  rw [after, Option.filter_some, if_neg (Bool.eq_false_iff.mp h)]
  rfl

end GraphRecord

theorem Kind.creation?_of_ok {kind : Kind} {item : Item} {edge : Edge}
    (h : kind.edgeOf item = .ok edge) : kind.creation? item = some (.created edge) := by
  rw [Kind.creation?, h]

theorem Kind.creation?_of_error {kind : Kind} {item : Item} {e : Error}
    (h : kind.edgeOf item = .error e) : kind.creation? item = none := by
  rw [Kind.creation?, h]

namespace Session

variable {s : Session} {g : Nat} {r : GraphRecord}

theorem getElem?_nodeStore (hr : s.graphs[g]? = some r) (node : String) :
    (s.nodeStore g r node).2.graphs[g]? =
      some (r.after s.stores.length (some (.created node)) none) := by
  rw [nodeStore]
  split
  · next id hid =>
    have hc : r.nodes.contains node = true := by rw [← Table.isSome_get?, hid, Option.isSome_some]
    rw [GraphRecord.after_node_of_not_happens _ (by rw [Event.happens, hc, Bool.not_true]), hr]
  · next hnone =>
    have hc := Table.get?_eq_none_iff.mp hnone
    rw [GraphRecord.after_node_of_happens _ (by rw [Event.happens, hc, Bool.not_false])]
    exact getElem?_modifyGraph_self hr _

theorem getElem?_edgeStore (hr : s.graphs[g]? = some r) (edge : Edge) :
    (s.edgeStore g r edge).2.graphs[g]? =
      some (r.after s.stores.length none (some (.created edge))) := by
  rw [edgeStore]
  split
  · next id hid =>
    have hc : r.edges.table.contains edge = true := by
      rw [← Table.isSome_get?, hid, Option.isSome_some]
    rw [GraphRecord.after_edge_of_not_happens _ (by rw [Event.happens, hc, Bool.not_true]), hr]
  · next hnone =>
    have hc := Table.get?_eq_none_iff.mp hnone
    rw [GraphRecord.after_edge_of_happens _ (by rw [Event.happens, hc, Bool.not_false])]
    exact getElem?_modifyGraph_self hr _

/-- Merging into a store is no event. -/
theorem graphs_mergeStore (s : Session) (id : Nat) (mentions : Mentions) (keep : Option String) :
    (s.mergeStore id mentions keep).2.graphs = s.graphs := by
  rw [mergeStore, Attributes.merge]
  cases mentions.fault? <;> cases keep <;> rfl

theorem getElem?_setAt (hr : s.graphs[g]? = some r) (value : String) (address : Address) :
    (s.setAt g r value address).2.graphs[g]? =
      some (r.after s.stores.length (address.wantedNode?.map .created)
        (address.wantedEdge?.bind r.kind.creation?)) := by
  cases address with
  | graph key => cases key <;> exact hr
  | node node key =>
    cases key with
    | text key => exact getElem?_nodeStore hr node
    | _ => exact hr
  | edge target key =>
    cases hgiven : r.kind.edgeOf target with
    | error e =>
      have hnone : (Address.edge target key).wantedEdge?.bind r.kind.creation? = none := by
        cases key with
        | text key => exact Kind.creation?_of_error hgiven
        | _ => rfl
      rw [hnone]
      simp only [setAt, hgiven]
      exact hr
    | ok edge =>
      cases key with
      | text key =>
        rw [Address.wantedEdge?, Option.bind_some, Kind.creation?_of_ok hgiven]
        simp only [setAt, hgiven]
        exact getElem?_edgeStore hr edge
      | _ =>
        simp only [setAt, hgiven]
        exact hr

/-- **A change to a graph does to it what its events do**, apart from its name. -/
theorem exists_getElem?_edit (hr : s.graphs[g]? = some r) (change : GraphEdit) :
    ∃ name, (s.edit g r change).2.graphs[g]? = some (GraphRecord.after { r with name := name }
      s.stores.length change.nodeEvent? (change.edgeEvent? r.kind)) := by
  cases change with
  | rename name => exact ⟨name, getElem?_modifyGraph_self hr _⟩
  | addNode node mentions keep =>
    refine ⟨r.name, ?_⟩
    rw [edit, graphs_mergeStore]
    exact getElem?_nodeStore hr node
  | addEdge item mentions keep =>
    refine ⟨r.name, ?_⟩
    have hev : (GraphEdit.addEdge item mentions keep).edgeEvent? r.kind =
        r.kind.creation? item := rfl
    rw [hev, edit]
    cases hgiven : r.kind.edgeOf item with
    | error e =>
      rw [Kind.creation?_of_error hgiven]
      exact hr
    | ok edge =>
      rw [Kind.creation?_of_ok hgiven, graphs_mergeStore]
      exact getElem?_edgeStore hr edge
  | setAttr key value => exact ⟨r.name, hr⟩
  | setNodeAttr node key value => exact ⟨r.name, getElem?_setAt hr value (.node node (.text key))⟩
  | setEdgeAttr edge key value => exact ⟨r.name, getElem?_setAt hr value (.edge edge (.text key))⟩
  | setItem index value =>
    refine ⟨r.name, ?_⟩
    have hnode : (GraphEdit.setItem index value).nodeEvent? =
        ((Address.ofItem index).toOption.bind (·.wantedNode?)).map .created := rfl
    have hedge : (GraphEdit.setItem index value).edgeEvent? r.kind =
        ((Address.ofItem index).toOption.bind (·.wantedEdge?)).bind r.kind.creation? := rfl
    rw [hnode, hedge, edit]
    cases Address.ofItem index with
    | error e => exact hr
    | ok address => exact getElem?_setAt hr value address
  | eraseNode node =>
    refine ⟨r.name, ?_⟩
    have hev : (GraphEdit.eraseNode node).nodeEvent? = some (.removed node) := rfl
    have hnone : (GraphEdit.eraseNode node).edgeEvent? r.kind = none := rfl
    rw [hev, hnone, edit]
    cases hc : r.nodes.contains node with
    | true =>
      rw [if_pos rfl, GraphRecord.after_node_of_happens (.removed node) hc]
      exact getElem?_modifyGraph_self hr _
    | false =>
      rw [if_neg Bool.false_ne_true, GraphRecord.after_node_of_not_happens (.removed node) hc]
      exact hr
  | eraseEdge item =>
    refine ⟨r.name, ?_⟩
    have hev : (GraphEdit.eraseEdge item).edgeEvent? r.kind = item.edge?.map .removed := rfl
    have hnone : (GraphEdit.eraseEdge item).nodeEvent? = none := rfl
    rw [hev, hnone, edit]
    cases item.edge? with
    | none => exact hr
    | some edge =>
      rw [Option.filter_some, Option.map_some]
      cases hc : r.edges.table.contains edge with
      | true =>
        rw [if_pos rfl, GraphRecord.after_edge_of_happens (.removed edge) hc]
        exact getElem?_modifyGraph_self hr _
      | false =>
        rw [if_neg Bool.false_ne_true, GraphRecord.after_edge_of_not_happens (.removed edge) hc]
        exact hr

section TableEvent

variable {κ : Type} [BEq κ] {table : Graph → Table κ Attributes}
  {event? : Kind → GraphEdit → Option (Event κ)}

theorem tableEvent?_edit {graph : Graph} (hg : s.graph? g = some graph) (change : GraphEdit) :
    s.tableEvent? table event? g (.edit g change) =
      (event? graph.kind change).filter (·.happens (table graph)) := by
  rw [tableEvent?, if_pos rfl, hg, Option.bind_some]

/-- Only a change to a graph is an event of its tables. -/
theorem tableEvent?_of_ne {c : Command} (hc : ∀ change, c ≠ .edit g change) :
    s.tableEvent? table event? g c = none := by
  cases c with
  | edit h change =>
    have hne : h ≠ g := fun he => hc change (he ▸ rfl)
    rw [tableEvent?, if_neg hne]
  | _ => rfl

/-- An event of a command is one that can happen. -/
theorem happens_of_tableEvent? {c : Command} {ev : Event κ}
    (h : s.tableEvent? table event? g c = some ev) :
    ∃ graph, s.graph? g = some graph ∧ ev.happens (table graph) = true := by
  by_cases hc : ∃ change, c = .edit g change
  · obtain ⟨change, rfl⟩ := hc
    rw [tableEvent?, if_pos rfl] at h
    obtain ⟨graph, hg, hev⟩ := Option.bind_eq_some_iff.mp h
    exact ⟨graph, hg, (Option.filter_eq_some_iff.mp hev).2⟩
  · rw [tableEvent?_of_ne fun change he => hc ⟨change, he⟩] at h
    cases h

end TableEvent

/-- A graph that is not touched keeps its tables, and a new graph has empty ones. -/
theorem Move.tables_eq {w : Option Nat} {s' : Session} (hm : Move w s s') (hw : w ≠ some g) :
    s'.nodeTable g = s.nodeTable g ∧ s'.edgeShelf g = s.edgeShelf g := by
  cases hr' : s'.graphs[g]? with
  | none =>
    have hr : s.graphs[g]? = none := by
      rw [List.getElem?_eq_none_iff] at hr' ⊢
      exact Nat.le_trans hm.length_graphs_le hr'
    rw [nodeTable, nodeTable, edgeShelf, edgeShelf, hr, hr']
    exact ⟨rfl, rfl⟩
  | some r' =>
    rcases hm.record_cases hr' with hr | ⟨hg, -⟩ | ⟨hg, kind, name, rfl⟩
    · rw [nodeTable_eq hr, nodeTable_eq hr', edgeShelf_eq hr, edgeShelf_eq hr']
      exact ⟨rfl, rfl⟩
    · exact absurd hg hw
    · have hr : s.graphs[g]? = none := List.getElem?_eq_none_iff.mpr (Nat.le_of_eq hg.symm)
      rw [nodeTable_eq hr', edgeShelf_eq hr', nodeTable, edgeShelf, hr]
      exact ⟨rfl, rfl⟩

/-- Taking up a subgraph leaves the tables of a graph as they are. -/
theorem tables_modifyGraph {h : Nat} {f : GraphRecord → GraphRecord}
    (hf : ∀ r, (f r).nodes = r.nodes ∧ (f r).edges = r.edges) :
    (s.modifyGraph h f).nodeTable g = s.nodeTable g ∧
      (s.modifyGraph h f).edgeShelf g = s.edgeShelf g := by
  rw [nodeTable, nodeTable, edgeShelf, edgeShelf, getElem?_modifyGraph, Option.map_map,
    Option.map_map]
  cases s.graphs[g]? with
  | none => exact ⟨rfl, rfl⟩
  | some r =>
    by_cases he : h = g
    · simp [he, hf r]
    · simp [he]

/-- A command that is no change to a graph leaves its tables as they are. -/
theorem Exclusive.tables_step_of_ne (hs : s.Exclusive) {c : Command}
    (hc : ∀ change, c ≠ .edit g change) :
    (s.step c).2.nodeTable g = s.nodeTable g ∧ (s.step c).2.edgeShelf g = s.edgeShelf g := by
  by_cases hw : s.target c = some g
  · -- the commands about a graph that are no change to it make a subgraph or write to a store
    cases c with
    | subgraph h name =>
      obtain rfl := Option.some.inj hw
      rw [step]
      cases hr : s.record h with
      | error e => exact ⟨rfl, rfl⟩
      | ok r =>
        -- the new graph goes behind all others, and then this one takes it up
        have hnew : Move none s (s.newGraph r.kind name).2 := .create r.kind name
        obtain ⟨hn, he⟩ := hnew.tables_eq (g := h) (Option.some_ne_none h).symm
        obtain ⟨hn', he'⟩ := tables_modifyGraph (s := (s.newGraph r.kind name).2) (g := h) (h := h)
          (f := fun r => { r with subgraphs := r.subgraphs ++ [(s.newGraph r.kind name).1] })
          fun _ => ⟨rfl, rfl⟩
        exact ⟨hn'.trans hn, he'.trans he⟩
    | edit h change =>
      obtain rfl := Option.some.inj hw
      exact absurd rfl (hc change)
    | editStore name change =>
      rw [step]
      cases s.handle name with
      | error e => exact ⟨rfl, rfl⟩
      | ok id => exact ⟨rfl, rfl⟩
    | _ => cases hw
  · refine (hs.moves_step c).keep
      (P := fun s' => s'.nodeTable g = s.nodeTable g ∧ s'.edgeShelf g = s.edgeShelf g)
      (fun hm h => ?_) ⟨rfl, rfl⟩
    obtain ⟨hn, he⟩ := hm.tables_eq hw
    exact ⟨hn.trans h.1, he.trans h.2⟩

/-- **What a command does to the tables of a graph is what its events do.** -/
theorem Exclusive.tables_step (hs : s.Exclusive) (g : Nat) (c : Command) :
    (s.step c).2.nodeTable g =
        (s.nodeEvent? g c).elim (s.nodeTable g) (·.act s.stores.length (s.nodeTable g)) ∧
      (s.step c).2.edgeShelf g =
        (s.edgeEvent? g c).elim (s.edgeShelf g) (·.place s.stores.length (s.edgeShelf g)) := by
  by_cases hc : ∃ change, c = .edit g change
  · obtain ⟨change, rfl⟩ := hc
    cases hr : s.graphs[g]? with
    | none =>
      have hgraph : s.graph? g = none := by rw [graph?, hr, Option.map_none]
      rw [nodeEvent?, edgeEvent?, tableEvent?, tableEvent?, if_pos rfl, if_pos rfl, hgraph, step,
        record, hr]
      exact ⟨rfl, rfl⟩
    | some r =>
      obtain ⟨name, hr'⟩ := exists_getElem?_edit hr change
      have hstep : (s.step (.edit g change)).2 = (s.edit g r change).2 := by
        rw [step, record_eq_ok_iff.mpr hr]
      rw [hstep, nodeTable_eq hr', edgeShelf_eq hr', nodeTable_eq hr, edgeShelf_eq hr, nodeEvent?,
        edgeEvent?, tableEvent?_edit (graph?_eq hr), tableEvent?_edit (graph?_eq hr)]
      simp only [view, Event.happens_map]
      exact ⟨rfl, rfl⟩
  · have hc : ∀ change, c ≠ .edit g change := fun change h => hc ⟨change, h⟩
    rw [nodeEvent?, edgeEvent?, tableEvent?_of_ne hc, tableEvent?_of_ne hc]
    exact hs.tables_step_of_ne hc

theorem happens_of_nodeEvent? {c : Command} {ev : Event String} (h : s.nodeEvent? g c = some ev) :
    ev.happens (s.nodeTable g) = true := by
  obtain ⟨graph, hg, hev⟩ := happens_of_tableEvent? h
  obtain ⟨r, hr, rfl⟩ := Option.map_eq_some_iff.mp hg
  rwa [nodeTable_eq hr, ← Event.happens_map s.store]

theorem happens_of_edgeEvent? {c : Command} {ev : Event Edge} (h : s.edgeEvent? g c = some ev) :
    ev.happens (s.edgeShelf g).table = true := by
  obtain ⟨graph, hg, hev⟩ := happens_of_tableEvent? h
  obtain ⟨r, hr, rfl⟩ := Option.map_eq_some_iff.mp hg
  rwa [edgeShelf_eq hr, ← Event.happens_map s.store]

/-! ### A run -/

theorem run_append (s : Session) (cs cs' : List Command) :
    (s.run (cs ++ cs')).2 = ((s.run cs).2.run cs').2 := by
  induction cs generalizing s with
  | nil => rfl
  | cons c cs ih => exact ih (s.step c).2

theorem history_append {κ : Type} (event? : Session → Command → Option (Event κ)) (s : Session)
    (cs cs' : List Command) :
    s.history event? (cs ++ cs') = s.history event? cs ++ (s.run cs).2.history event? cs' := by
  induction cs generalizing s with
  | nil => rfl
  | cons c cs ih =>
    rw [List.cons_append, history, history, ih, List.append_assoc]
    rfl

/-- **The keys of the tables of a graph are those that stand at the end of their histories.** -/
theorem keys_run (cs : List Command) (g : Nat) :
    ((run {} cs).2.nodeTable g).keys = Event.standing (nodeHistory {} g cs) ∧
      ((run {} cs).2.edgeShelf g).table.keys = Event.standing (edgeHistory {} g cs) := by
  induction cs using List.reverseRecOn with
  | nil => exact ⟨rfl, rfl⟩
  | append_singleton cs c ih =>
    have hs : (run {} cs).2.Exclusive :=
      (run_induction (P := fun _ => True) (fun _ _ => trivial) cs exclusive_empty trivial).1
    obtain ⟨hnodes, hedges⟩ := hs.tables_step g c
    have hrun : (run {} (cs ++ [c])).2 = ((run {} cs).2.step c).2 := run_append {} cs [c]
    have hhistory : ∀ {κ : Type} (event? : Session → Command → Option (Event κ)),
        history event? {} (cs ++ [c]) =
          history event? {} cs ++ (event? (run {} cs).2 c).toList := by
      intro κ event?
      rw [history_append, history, history, List.append_nil]
    rw [hrun, hnodes, hedges, nodeHistory, edgeHistory, hhistory, hhistory]
    refine ⟨Event.keys_elim_act_eq_standing ih.1 (fun _ => happens_of_nodeEvent?) _, ?_⟩
    rw [Event.table_elim_place]
    exact Event.keys_elim_act_eq_standing ih.2 (fun _ => happens_of_edgeEvent?) _

/-! ### What is read off the tables -/

/-- A graph has the keys of its tables. -/
theorem keys_graph? {graph : Graph} (hg : s.graph? g = some graph) :
    graph.nodes.keys = (s.nodeTable g).keys ∧ graph.edges.keys = (s.edgeShelf g).table.keys := by
  obtain ⟨r, hr, rfl⟩ := Option.map_eq_some_iff.mp hg
  rw [nodeTable_eq hr, edgeShelf_eq hr]
  exact ⟨Table.keys_map _ _, Table.keys_map _ _⟩

/-- Graphs never go away. -/
theorem Exclusive.exists_graph?_step (hs : s.Exclusive) {graph : Graph}
    (hg : s.graph? g = some graph) (c : Command) :
    ∃ graph', (s.step c).2.graph? g = some graph' := by
  obtain ⟨r, hr, rfl⟩ := Option.map_eq_some_iff.mp hg
  obtain ⟨r', hr'⟩ := (hs.moves_step c).keep (P := fun s' => ∃ r', s'.graphs[g]? = some r')
    (fun hm ⟨r, hr⟩ => (hm.kind_eq hr).imp fun _ h => h.1) ⟨r, hr⟩
  exact ⟨_, graph?_eq hr'⟩

/-- **What a command does to the keys of a graph is what its events do.** -/
theorem Exclusive.keys_step (hs : s.Exclusive) {graph : Graph} (hg : s.graph? g = some graph)
    (c : Command) : ∃ graph', (s.step c).2.graph? g = some graph' ∧
      graph'.nodes.keys =
        (s.nodeEvent? g c).elim graph.nodes.keys (·.shift graph.nodes.keys) ∧
      graph'.edges.keys =
        (s.edgeEvent? g c).elim graph.edges.keys (·.shift graph.edges.keys) := by
  obtain ⟨graph', hg'⟩ := hs.exists_graph?_step hg c
  obtain ⟨hnodes, hedges⟩ := keys_graph? hg
  obtain ⟨hnodes', hedges'⟩ := keys_graph? hg'
  obtain ⟨hnodeTable, hedgeShelf⟩ := hs.tables_step g c
  refine ⟨graph', hg', ?_, ?_⟩
  · rw [hnodes', hnodeTable, Event.keys_elim_act, hnodes]
  · rw [hedges', hedgeShelf, Event.table_elim_place, Event.keys_elim_act, hedges]

end Session

theorem Kind.allows_either (kind : Kind) : kind.allows .either = .ok () :=
  if_neg fun h => h.2 rfl

/-- The statements about nodes and about edges follow the tables. -/
theorem Script.keys_ofTree (t : GraphTree) :
    ((Script.ofTree t).body.filterMap Statement.node?).map (·.1) = t.graph.nodes.keys ∧
      ((Script.ofTree t).body.filterMap Statement.edge?).map (·.1) = t.graph.edges.keys := by
  have hcollect := Statement.collect_statements t
  exact ⟨congrArg (·.nodes.keys) hcollect, congrArg (·.edges.keys) hcollect⟩

namespace Session

/-- **The tables of a graph are determined by the history of what came and went.** After any
commands, those that fail or break off included:

* the nodes and the edges are those that came last and did not go since, in the order in which they
  came and as they were written then;
* so the names of all nodes, the edges that meet a node and the order of the statements in the
  document are functions of the two histories;
* one more command changes the keys by its event at most: one that has none leaves them as they
  are, and the removal of one entry leaves the others in their order and spelling. -/
theorem tables_run (cs : List Command) (g : Nat) {graph : Graph}
    (hg : (run {} cs).2.graph? g = some graph) :
    let s := (run {} cs).2
    let nodes := Event.standing (nodeHistory {} g cs)
    let edges := Event.standing (edgeHistory {} g cs)
    graph.nodes.keys = nodes ∧ graph.edges.keys = edges ∧
    (s.step (.ask g .nodeNames)).1 =
      .ok (.names (nodes ++ edges.flatMap fun e => [e.tail, e.head]).eraseDups) ∧
    (∀ node, (s.step (.ask g (.walk .either node))).1 =
      .ok (.edges (edges.filter (·.touches node)))) ∧
    (∃ t, s.tree? g = some t ∧
      (s.step (.ask g (.script .document))).1 = .ok (.text (Script.ofTree t).text) ∧
      ((Script.ofTree t).body.filterMap Statement.node?).map (·.1) = nodes ∧
      ((Script.ofTree t).body.filterMap Statement.edge?).map (·.1) = edges) ∧
    ∀ c, ∃ graph', (s.step c).2.graph? g = some graph' ∧
      graph'.nodes.keys = (s.nodeEvent? g c).elim nodes (·.shift nodes) ∧
      graph'.edges.keys = (s.edgeEvent? g c).elim edges (·.shift edges) := by
  intro s nodes edges
  obtain ⟨hs, hwf⟩ := run_induction Move.wellFormed cs exclusive_empty wellFormed_empty
  obtain ⟨r, hr, rfl⟩ := Option.map_eq_some_iff.mp hg
  obtain ⟨ts, ht, -⟩ := hwf.forest.tree?_eq_node hr
  obtain ⟨hnodeKeys, hedgeKeys⟩ := keys_run cs g
  obtain ⟨hnodes, hedges⟩ := keys_graph? hg
  rw [hnodeKeys] at hnodes
  rw [hedgeKeys] at hedges
  refine ⟨hnodes, hedges, ?_, fun node => ?_, ⟨_, ht, step_ask ht _, ?_⟩, fun c => ?_⟩
  · rw [step_ask ht, GraphTree.answer, Graph.nodeNames, GraphTree.graph, hnodes, hedges]
  · rw [step_ask ht, GraphTree.answer, Graph.walk, Kind.allows_either, GraphTree.graph,
      Graph.edgesAt, hedges]
    rfl
  · rw [(Script.keys_ofTree _).1, (Script.keys_ofTree _).2]
    exact ⟨hnodes, hedges⟩
  · obtain ⟨graph', hg', hnodes', hedges'⟩ := hs.keys_step hg c
    rw [hnodes] at hnodes'
    rw [hedges] at hedges'
    exact ⟨graph', hg', hnodes', hedges'⟩

/-- An edge that went and came back stands last and as it was written when it came back, although
the command that brought it back broke off at a malformed pair, and whichever way it is written
later. -/
theorem tables_run_readded :
    let cs : List Command := [.create (some .undirected) "",
      .edit 0 (.addEdge (.edge ⟨.undirected, "a", "b"⟩) {} none),
      .edit 0 (.addEdge (.edge ⟨.undirected, "b", "c"⟩) {} none),
      .edit 0 (.eraseEdge (.edge ⟨.undirected, "b", "a"⟩)),
      .edit 0 (.addEdge (.edge ⟨.undirected, "b", "a"⟩) ⟨[["k"]], ∅⟩ none),
      .edit 0 (.setEdgeAttr (.edge ⟨.undirected, "a", "b"⟩) "k" "v"),
      .edit 0 (.setNodeAttr "y" "k" "v")]
    ∃ graph, (run {} cs).2.graph? 0 = some graph ∧ graph.nodes.keys = ["y"] ∧
      graph.edges.keys = [⟨.undirected, "b", "c"⟩, ⟨.undirected, "b", "a"⟩] := by
  intro cs
  let graph : Graph :=
    { kind := .undirected
      nodes := ⟨[("y", ⟨[("k", "v")]⟩)]⟩
      edges := ⟨[(⟨.undirected, "b", "c"⟩, ∅), (⟨.undirected, "b", "a"⟩, ⟨[("k", "v")]⟩)]⟩ }
  have hg : (run {} cs).2.graph? 0 = some graph := by rfl
  have hnodes : Event.standing (nodeHistory {} 0 cs) = ["y"] := by rfl
  have hedges : Event.standing (edgeHistory {} 0 cs) =
      [⟨.undirected, "b", "c"⟩, ⟨.undirected, "b", "a"⟩] := by rfl
  obtain ⟨hkeys, hkeys', -⟩ := tables_run cs 0 hg
  exact ⟨graph, hg, hkeys.trans hnodes, hkeys'.trans hedges⟩

end Session

end GraphScript
