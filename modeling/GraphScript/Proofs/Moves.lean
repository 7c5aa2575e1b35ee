import GraphScript.Session.Step
import Mathlib.Data.List.Nodup
import Mathlib.Logic.Relation

/-!
# Moves of a session

A command changes a session in a few *moves*, each of which does one thing: names are set, a store
or a graph is made, what is in a store is changed, or one graph takes up or gives up an entry.
What every command keeps is therefore shown move by move and never command by command.

* **`GraphRecord.Change`** and **`GraphRecord.Growth`** say what can happen to what a session holds
  about one graph. A change takes up no store, and growth takes up exactly one.
* **`Session.Move`** is one move. It carries the number of the only graph that it may touch, so
  that whoever knows this number knows that all other graphs are as they were.
* **`Session.Exclusive`** says that no store is held twice. It is kept by moves, and it is what
  makes a write through a store a move that touches one graph.
* `Session.moves_step`: a command is a row of moves that touch at most `Session.target`, the graph
  that it is about.
-/

namespace GraphScript

/-! ### What can happen to one graph -/

namespace GraphRecord

/-- The numbers of the stores that a graph holds: its own, then those of its nodes and of its
edges. -/
def stores (r : GraphRecord) : List Nat := r.attrs :: (r.nodes.values ++ r.edges.table.values)

/-- A graph is given another name, or gives up an entry. -/
inductive Change (r : GraphRecord) : GraphRecord → Prop where
  | rename (name : String) : Change r { r with name := name }
  | eraseNode (node : String) : Change r { r with nodes := r.nodes.erase node }
  | eraseEdge (edge : Edge) : Change r { r with edges := r.edges.erase edge }

/-- A graph takes up an entry that it does not have, with a store for it. -/
inductive Growth (r : GraphRecord) (id : Nat) : GraphRecord → Prop where
  | node (node : String) (h : r.nodes.contains node = false) :
    Growth r id { r with nodes := r.nodes.push node id }
  | edge (edge : Edge) (hk : edge.kind = r.kind) (h : r.edges.table.contains edge = false) :
    Growth r id { r with edges := r.edges.push edge id }

variable {r r' : GraphRecord} {id : Nat}

theorem Change.kind_eq (h : r.Change r') : r'.kind = r.kind := by cases h <;> rfl

theorem Change.subgraphs_eq (h : r.Change r') : r'.subgraphs = r.subgraphs := by cases h <;> rfl

theorem Growth.kind_eq (h : r.Growth id r') : r'.kind = r.kind := by cases h <;> rfl

theorem Growth.subgraphs_eq (h : r.Growth id r') : r'.subgraphs = r.subgraphs := by
  cases h <;> rfl

/-- A change gives up stores and takes up none. -/
theorem Change.stores_sublist (h : r.Change r') : r'.stores.Sublist r.stores := by
  cases h with
  | rename name => exact List.Sublist.refl _
  | eraseNode node =>
    exact ((Table.values_erase_sublist _ _).append (List.Sublist.refl _)).cons_cons _
  | eraseEdge edge =>
    refine List.Sublist.cons_cons _ ((List.Sublist.refl _).append ?_)
    rw [Shelf.table_erase]
    exact Table.values_erase_sublist _ _

/-- Growth takes up one store and gives up none. -/
theorem Growth.stores_perm (h : r.Growth id r') : r'.stores.Perm (id :: r.stores) := by
  cases h with
  | node node h =>
    rw [stores, stores, Table.values_push, List.append_assoc]
    exact (List.perm_middle.cons _).trans (List.Perm.swap _ _ _)
  | edge edge hk h =>
    rw [stores, stores, Shelf.table_push, Table.values_push, ← List.append_assoc]
    exact ((List.perm_append_singleton _ _).cons _).trans (List.Perm.swap _ _ _)

end GraphRecord

namespace Session

/-! ### Stores and their holders -/

/-- A graph holds a store. -/
def Holds (s : Session) (g id : Nat) : Prop := ∃ r, s.graphs[g]? = some r ∧ id ∈ r.stores

/-- No store is held twice, neither by two graphs nor by two entries of one graph, and all stores
that are held or kept under names have been made. -/
structure Exclusive (s : Session) : Prop where
  nodup : ∀ (g : Nat) (r : GraphRecord), s.graphs[g]? = some r → r.stores.Nodup
  unique : ∀ g h id : Nat, s.Holds g id → s.Holds h id → g = h
  made : ∀ g id : Nat, s.Holds g id → id < s.stores.length
  handles : ∀ id ∈ s.handles.values, id < s.stores.length

/-- The graph that holds a store, if one does. -/
def holder? (s : Session) (id : Nat) : Option Nat := s.graphs.findIdx? (·.stores.contains id)

theorem holds_of_holder? {s : Session} {g id : Nat} (h : s.holder? id = some g) :
    s.Holds g id := by
  obtain ⟨hg, hc, -⟩ := List.findIdx?_eq_some_iff_getElem.mp h
  exact ⟨s.graphs[g], List.getElem?_eq_getElem hg, by simpa using hc⟩

theorem not_holds_of_holder? {s : Session} {id : Nat} (h : s.holder? id = none) (g : Nat) :
    ¬ s.Holds g id := by
  rintro ⟨r, hr, hid⟩
  have := List.findIdx?_eq_none_iff.mp h r (List.mem_of_getElem? hr)
  simp [hid] at this

/-- As no store is held twice, whoever holds it is the one that is found. -/
theorem Exclusive.holder?_eq {s : Session} (hs : s.Exclusive) {g id : Nat} (h : s.Holds g id) :
    s.holder? id = some g := by
  cases hh : s.holder? id with
  | none => exact absurd h (not_holds_of_holder? hh g)
  | some g' => rw [hs.unique g' g id (holds_of_holder? hh) h]

/-! ### Moves -/

/-- One move, and the only graph that it may touch. -/
inductive Move : Option Nat → Session → Session → Prop where
  /-- Names of stores and of walks are set. -/
  | note {w : Option Nat} {s : Session} (handles : Table String Nat)
      (cursors : Table String Cursor)
      (h : ∀ id ∈ handles.values, id ∈ s.handles.values ∨ id < s.stores.length) :
    Move w s { s with handles := handles, cursors := cursors }
  /-- A store is made that no graph holds. -/
  | free {w : Option Nat} {s : Session} (entries : List (String × String)) :
    Move w s (s.newStore (Table.ofList entries)).2
  /-- What is in a store is changed. -/
  | write {w : Option Nat} {s : Session} (id : Nat) (e : Attributes.Edit)
      (h : ∀ g, s.Holds g id → w = some g) :
    Move w s (s.setStore id ((s.store id).edit e).2)
  /-- A graph is made. -/
  | create {w : Option Nat} {s : Session} (kind : Kind) (name : String) :
    Move w s (s.newGraph kind name).2
  /-- A graph is made inside another one. -/
  | nest {s : Session} {g : Nat} {r : GraphRecord} (hr : s.graphs[g]? = some r) (name : String) :
    Move (some g) s (s.newSubgraph g r name).2
  /-- A graph is renamed or gives up an entry. -/
  | change {s : Session} {g : Nat} {r : GraphRecord} (hr : s.graphs[g]? = some r)
      {f : GraphRecord → GraphRecord} (hf : r.Change (f r)) :
    Move (some g) s (s.modifyGraph g f)
  /-- A graph takes up an entry with a new store. -/
  | grow {s : Session} {g : Nat} {r : GraphRecord} (hr : s.graphs[g]? = some r)
      {f : GraphRecord → GraphRecord} (hf : r.Growth s.stores.length (f r)) :
    Move (some g) s ((s.newStore ∅).2.modifyGraph g f)

/-- Moves in a row, all of which touch at most one graph. -/
def Moves (w : Option Nat) : Session → Session → Prop := Relation.ReflTransGen (Move w)

variable {w : Option Nat} {s s' s'' : Session}

theorem Moves.refl (w : Option Nat) (s : Session) : Moves w s s := Relation.ReflTransGen.refl

theorem Move.moves (h : Move w s s') : Moves w s s' := Relation.ReflTransGen.single h

theorem Moves.trans (h : Moves w s s') (h' : Moves w s' s'') : Moves w s s'' :=
  Relation.ReflTransGen.trans h h'

/-- What every move keeps is kept by moves in a row. -/
theorem Moves.keep {P : Session → Prop} (hP : ∀ {s s'}, Move w s s' → P s → P s')
    (h : Moves w s s') (hs : P s) : P s' := by
  induction h with
  | refl => exact hs
  | tail _ hm ih => exact hP hm ih

/-! ### What a move does to the graphs -/

theorem getElem?_modifyGraph (s : Session) (g h : Nat) (f : GraphRecord → GraphRecord) :
    (s.modifyGraph g f).graphs[h]? = s.graphs[h]?.map fun r => if g = h then f r else r :=
  List.getElem?_modify f g s.graphs h

theorem getElem?_modifyGraph_self {g : Nat} {r : GraphRecord} (hr : s.graphs[g]? = some r)
    (f : GraphRecord → GraphRecord) : (s.modifyGraph g f).graphs[g]? = some (f r) := by
  rw [getElem?_modifyGraph, hr, Option.map_some, if_pos rfl]

/-- Only one graph is modified. -/
theorem modifyGraph_cases {g h : Nat} {f : GraphRecord → GraphRecord} {r' : GraphRecord}
    (hr' : (s.modifyGraph g f).graphs[h]? = some r') :
    (g ≠ h ∧ s.graphs[h]? = some r') ∨ (g = h ∧ ∃ r, s.graphs[h]? = some r ∧ r' = f r) := by
  rw [getElem?_modifyGraph] at hr'
  obtain ⟨r, hr, rfl⟩ := Option.map_eq_some_iff.mp hr'
  by_cases he : g = h
  · exact .inr ⟨he, r, hr, if_pos he⟩
  · rw [if_neg he]
    exact .inl ⟨he, hr⟩

/-- A new graph goes behind all others and holds a new store. -/
theorem newGraph_cases {kind : Kind} {name : String} {h : Nat} {r' : GraphRecord}
    (hr' : (s.newGraph kind name).2.graphs[h]? = some r') :
    s.graphs[h]? = some r' ∨
      (h = s.graphs.length ∧ r' = { kind, name, attrs := s.stores.length }) := by
  change (s.graphs ++ [({ kind, name, attrs := s.stores.length } : GraphRecord)])[h]? = _ at hr'
  rw [List.getElem?_append] at hr'
  split at hr'
  · exact .inl hr'
  · obtain ⟨h0, hr⟩ := List.getElem?_eq_some_iff.mp hr'
    rw [List.length_singleton] at h0
    exact .inr ⟨by omega, by simpa using hr.symm⟩

/-- What a session holds about a graph after a move is what it held before, or the move touched
this graph, or the graph is new. -/
theorem Move.record_cases (hm : Move w s s') {g : Nat} {r' : GraphRecord}
    (h : s'.graphs[g]? = some r') :
    s.graphs[g]? = some r' ∨
      (w = some g ∧ ∃ r, s.graphs[g]? = some r ∧
        (r.Change r' ∨ r.Growth s.stores.length r' ∨
          r' = { r with subgraphs := r.subgraphs ++ [s.graphs.length] })) ∨
      (g = s.graphs.length ∧ ∃ kind name, r' = { kind, name, attrs := s.stores.length }) := by
  cases hm with
  | note | free | write => exact .inl h
  | create kind name =>
    rcases newGraph_cases h with h | ⟨hg, hr⟩
    · exact .inl h
    · exact .inr (.inr ⟨hg, kind, name, hr⟩)
  | @nest _ g₀ r hr name =>
    rcases modifyGraph_cases h with ⟨-, h⟩ | ⟨rfl, r₁, h₁, rfl⟩
    · rcases newGraph_cases h with h | ⟨hg, hr'⟩
      · exact .inl h
      · exact .inr (.inr ⟨hg, r.kind, name, hr'⟩)
    · have hg := (List.getElem?_eq_some_iff.mp hr).1
      rcases newGraph_cases h₁ with h₁ | ⟨hg', -⟩
      · exact .inr (.inl ⟨rfl, r₁, h₁, .inr (.inr rfl)⟩)
      · omega
  | @change _ g₀ r hr f hf =>
    rcases modifyGraph_cases h with ⟨-, h⟩ | ⟨rfl, r₁, h₁, rfl⟩
    · exact .inl h
    · obtain rfl := Option.some.inj (hr.symm.trans h₁)
      exact .inr (.inl ⟨rfl, r, hr, .inl hf⟩)
  | @grow _ g₀ r hr f hf =>
    rcases modifyGraph_cases h with ⟨-, h⟩ | ⟨rfl, r₁, h₁, rfl⟩
    · exact .inl h
    · obtain rfl := Option.some.inj (hr.symm.trans h₁)
      exact .inr (.inl ⟨rfl, r, hr, .inr (.inl hf)⟩)

/-- Graphs are made and never go away. -/
theorem Move.length_graphs_le (hm : Move w s s') : s.graphs.length ≤ s'.graphs.length := by
  cases hm <;> simp [newStore, setStore, newGraph, newSubgraph, modifyGraph]

/-- Stores are made and never go away. -/
theorem Move.length_stores_le (hm : Move w s s') : s.stores.length ≤ s'.stores.length := by
  cases hm <;> simp [newStore, setStore, newGraph, newSubgraph, modifyGraph]

/-- A graph that a move does not touch stays as it was. -/
theorem Move.getElem?_eq (hm : Move w s s') {g : Nat} (hg : g < s.graphs.length)
    (hw : w ≠ some g) : s'.graphs[g]? = s.graphs[g]? := by
  have hg' : g < s'.graphs.length := Nat.lt_of_lt_of_le hg hm.length_graphs_le
  rcases hm.record_cases (List.getElem?_eq_getElem hg') with h | ⟨h, -⟩ | ⟨h, -⟩
  · rw [List.getElem?_eq_getElem hg', h]
  · exact absurd h hw
  · omega

/-- What is in a store of a graph that a move does not touch stays as it was. -/
theorem Move.store_eq (hm : Move w s s') {g id : Nat} (hid : id < s.stores.length)
    (hg : s.Holds g id) (hw : w ≠ some g) : s'.store id = s.store id := by
  cases hm with
  | note | change => rfl
  | free | create | nest | grow => exact store_newStore_of_lt hid _
  | write id' e h =>
    have hne : id' ≠ id := fun he => hw (h g (he ▸ hg))
    exact store_setStore_of_ne hne _

/-- **At most one graph takes up a store in a move, and this store is new.** -/
theorem Move.holds_cases (hm : Move w s s') : ∃ g₀, ∀ g id, s'.Holds g id →
    s.Holds g id ∨ (g = g₀ ∧ id = s.stores.length ∧ id < s'.stores.length) := by
  have hnew : ∀ (kind : Kind) (name : String) (g id : Nat), (s.newGraph kind name).2.Holds g id →
      s.Holds g id ∨ (g = s.graphs.length ∧ id = s.stores.length) := by
    rintro kind name g id ⟨r, hr, hid⟩
    rcases newGraph_cases hr with hr | ⟨hg, rfl⟩
    · exact .inl ⟨r, hr, hid⟩
    · exact .inr ⟨hg, by simpa [GraphRecord.stores, Table.values] using hid⟩
  cases hm with
  | note | free | write => exact ⟨0, fun g id h => .inl h⟩
  | create kind name =>
    refine ⟨s.graphs.length, fun g id h => (hnew kind name g id h).imp_right fun h => ?_⟩
    exact ⟨h.1, h.2, by simp [newGraph, newStore, h.2]⟩
  | @nest _ g₀ r hr name =>
    refine ⟨s.graphs.length, fun g id h => ?_⟩
    -- taking up a subgraph leaves the stores of a graph as they are
    have h' : (s.newGraph r.kind name).2.Holds g id := by
      obtain ⟨r', hr', hid⟩ := h
      rcases modifyGraph_cases hr' with ⟨-, hr'⟩ | ⟨-, r₁, hr₁, rfl⟩
      · exact ⟨r', hr', hid⟩
      · exact ⟨r₁, hr₁, hid⟩
    refine (hnew r.kind name g id h').imp_right fun h => ⟨h.1, h.2, ?_⟩
    simp [newSubgraph, modifyGraph, newGraph, newStore, h.2]
  | @change _ g₀ r hr f hf =>
    refine ⟨0, fun g id h => .inl ?_⟩
    obtain ⟨r', hr', hid⟩ := h
    rcases modifyGraph_cases hr' with ⟨-, hr'⟩ | ⟨rfl, r₁, hr₁, rfl⟩
    · exact ⟨r', hr', hid⟩
    · obtain rfl := Option.some.inj (hr.symm.trans hr₁)
      exact ⟨r, hr, hf.stores_sublist.subset hid⟩
  | @grow _ g₀ r hr f hf =>
    refine ⟨g₀, fun g id h => ?_⟩
    obtain ⟨r', hr', hid⟩ := h
    rcases modifyGraph_cases hr' with ⟨-, hr'⟩ | ⟨rfl, r₁, hr₁, rfl⟩
    · exact .inl ⟨r', hr', hid⟩
    · obtain rfl := Option.some.inj (hr.symm.trans hr₁)
      rcases List.mem_cons.mp (hf.stores_perm.mem_iff.mp hid) with rfl | hid
      · exact .inr ⟨rfl, rfl, by simp [modifyGraph, newStore]⟩
      · exact .inl ⟨r, hr, hid⟩

/-- No store gets a second holder in a move. -/
theorem Move.exclusive (hm : Move w s s') (hs : s.Exclusive) : s'.Exclusive := by
  obtain ⟨g₀, hcases⟩ := hm.holds_cases
  -- a store that is held was made before, so the new one is not among them
  have hnew : ∀ g, ¬ s.Holds g s.stores.length := fun g h =>
    Nat.lt_irrefl _ (hs.made g _ h)
  refine ⟨fun g r' hr' => ?_, fun g h id hg hh => ?_, fun g id hg => ?_, fun id hid => ?_⟩
  · rcases hm.record_cases hr' with hr | ⟨-, r, hr, hc | hgr | rfl⟩ | ⟨-, kind, name, rfl⟩
    · exact hs.nodup g r' hr
    · exact (hs.nodup g r hr).sublist hc.stores_sublist
    · refine hgr.stores_perm.nodup_iff.mpr (List.nodup_cons.mpr ⟨fun hmem => ?_, hs.nodup g r hr⟩)
      exact hnew g ⟨r, hr, hmem⟩
    · exact hs.nodup g r hr
    · exact List.nodup_singleton _
  · rcases hcases g id hg with hg | ⟨rfl, rfl, -⟩
    · rcases hcases h id hh with hh | ⟨-, rfl, -⟩
      · exact hs.unique g h id hg hh
      · exact absurd hg (hnew g)
    · rcases hcases h _ hh with hh | ⟨rfl, -, -⟩
      · exact absurd hh (hnew h)
      · rfl
  · rcases hcases g id hg with hg | ⟨-, -, hlt⟩
    · exact Nat.lt_of_lt_of_le (hs.made g id hg) hm.length_stores_le
    · exact hlt
  · have hkept : id ∈ s.handles.values ∨ id < s.stores.length := by
      cases hm with
      | note handles cursors h => exact h id hid
      | _ => exact .inl hid
    exact Nat.lt_of_lt_of_le (hkept.elim (hs.handles id) fun h => h) hm.length_stores_le

/-- A store that was made and that no graph holds is never taken up again. -/
theorem Move.not_holds (hm : Move w s s') {id : Nat} (hid : id < s.stores.length)
    (h : ∀ g, ¬ s.Holds g id) (g : Nat) : ¬ s'.Holds g id := by
  obtain ⟨g₀, hcases⟩ := hm.holds_cases
  intro hg
  rcases hcases g id hg with hg | ⟨-, he, -⟩
  · exact h g hg
  · omega

/-! ### Commands as moves -/

/-- The graph that a command is about, if it changes one: the one named in it, or the holder of the
store named in it. -/
def target (s : Session) : Command → Option Nat
  | .subgraph g _ | .edit g _ => some g
  | .editStore name _ => (s.handles.get? name).bind s.holder?
  | _ => none

/-- Naming a store is a move. -/
theorem moves_keep (w : Option Nat) {id : Nat} (hid : id < s.stores.length)
    (name : Option String) : Moves w s (s.keep name id) := by
  cases name with
  | none => exact Moves.refl w s
  | some name =>
    refine (Move.note (s.handles.insert name id) s.cursors fun i hi => ?_).moves
    rcases Table.mem_values_insert hi with h | rfl
    · exact .inl h
    · exact .inr hid

/-- Setting a walk is a move. -/
theorem moves_cursor (w : Option Nat) (s : Session) (name : String) (c : Cursor) :
    Moves w s { s with cursors := s.cursors.insert name c } :=
  (Move.note s.handles (s.cursors.insert name c) fun _ => .inl).moves

section Edit

variable {g : Nat} {r : GraphRecord}

/-- The store of a node is reached by moves on its graph, and the graph holds it then. -/
theorem moves_nodeStore (hr : s.graphs[g]? = some r) (node : String) :
    Moves (some g) s (s.nodeStore g r node).2 ∧
      (s.nodeStore g r node).2.Holds g (s.nodeStore g r node).1 := by
  rw [nodeStore]
  split
  · next id hid =>
    refine ⟨Moves.refl _ s, r, hr, ?_⟩
    exact List.mem_cons_of_mem _ (List.mem_append_left _ (Table.mem_values_of_get? hid))
  · next hnone =>
    have hgrowth : r.Growth s.stores.length { r with nodes := r.nodes.push node s.stores.length } :=
      .node node (Table.get?_eq_none_iff.mp hnone)
    exact ⟨(Move.grow hr hgrowth).moves, _, getElem?_modifyGraph_self hr _,
      hgrowth.stores_perm.mem_iff.mpr List.mem_cons_self⟩

/-- The store of an edge is reached by moves on its graph, and the graph holds it then. -/
theorem moves_edgeStore (hr : s.graphs[g]? = some r) {edge : Edge} (hk : edge.kind = r.kind) :
    Moves (some g) s (s.edgeStore g r edge).2 ∧
      (s.edgeStore g r edge).2.Holds g (s.edgeStore g r edge).1 := by
  rw [edgeStore]
  split
  · next id hid =>
    refine ⟨Moves.refl _ s, r, hr, ?_⟩
    exact List.mem_cons_of_mem _ (List.mem_append_right _ (Table.mem_values_of_get? hid))
  · next hnone =>
    have hgrowth : r.Growth s.stores.length { r with edges := r.edges.push edge s.stores.length } :=
      .edge edge hk (Table.get?_eq_none_iff.mp hnone)
    exact ⟨(Move.grow hr hgrowth).moves, _, getElem?_modifyGraph_self hr _,
      hgrowth.stores_perm.mem_iff.mpr List.mem_cons_self⟩

/-- As a store is held by one graph only, a write through it is a move on this graph. -/
theorem Exclusive.move_write (hs : s.Exclusive) {id : Nat} (h : s.Holds g id)
    (e : Attributes.Edit) : Move (some g) s (s.setStore id ((s.store id).edit e).2) :=
  .write id e fun g' h' => by rw [hs.unique g g' id h h']

theorem Exclusive.moves_mergeStore (hs : s.Exclusive) {id : Nat} (h : s.Holds g id)
    (mentions : Mentions) (name : Option String) :
    Moves (some g) s (s.mergeStore id mentions name).2 := by
  have hm := (hs.move_write h (.merge mentions)).moves
  have hid : id < (s.setStore id ((s.store id).edit (.merge mentions)).2).stores.length := by
    rw [setStore, List.length_set]
    exact hs.made g id h
  have hkeep := hm.trans (moves_keep (some g) hid name)
  -- what stands in front of a malformed pair is written all the same
  rw [mergeStore, Attributes.merge]
  cases mentions.fault? with
  | none => exact hkeep
  | some e => exact hm

theorem Exclusive.moves_setIn (hs : s.Exclusive) {id : Nat} (h : s.Holds g id)
    (key value : String) : Moves (some g) s (s.setIn id key value).2 :=
  (hs.move_write h (.set key value)).moves

/-- Giving the attribute at an address a value. -/
theorem Exclusive.moves_setAt (hs : s.Exclusive) (hr : s.graphs[g]? = some r) (value : String)
    (address : Address) : Moves (some g) s (s.setAt g r value address).2 := by
  unfold setAt
  split
  · exact hs.moves_setIn ⟨r, hr, List.mem_cons_self⟩ _ value
  -- a node or an edge that is not there is made first, and its store is then held by the graph
  · next node key =>
    obtain ⟨hm, hh⟩ := moves_nodeStore hr node
    exact hm.trans ((hm.keep Move.exclusive hs).moves_setIn hh key value)
  · split
    · exact Moves.refl _ s
    · next _ _ edge key hedgeOf =>
      obtain ⟨hm, hh⟩ := moves_edgeStore hr (Kind.edgeOf_eq_ok_iff.mp hedgeOf).2
      exact hm.trans ((hm.keep Move.exclusive hs).moves_setIn hh key value)
    · exact Moves.refl _ s
  · exact Moves.refl _ s
  · exact Moves.refl _ s

/-- A change to a graph is made by moves on this graph. -/
theorem Exclusive.moves_edit (hs : s.Exclusive) (hr : s.graphs[g]? = some r)
    (change : GraphEdit) : Moves (some g) s (s.edit g r change).2 := by
  cases change with
  | rename name =>
    exact (Move.change (f := fun r => { r with name := name }) hr (.rename name)).moves
  | addNode node mentions keep =>
    obtain ⟨hm, hh⟩ := moves_nodeStore hr node
    exact hm.trans ((hm.keep Move.exclusive hs).moves_mergeStore hh mentions keep)
  | addEdge item mentions keep =>
    rw [edit]
    split
    · exact Moves.refl _ s
    · next edge hedgeOf =>
      obtain ⟨hm, hh⟩ := moves_edgeStore hr (Kind.edgeOf_eq_ok_iff.mp hedgeOf).2
      exact hm.trans ((hm.keep Move.exclusive hs).moves_mergeStore hh mentions keep)
  | setAttr | setNodeAttr | setEdgeAttr => exact hs.moves_setAt hr _ _
  | setItem index value =>
    rw [edit]
    split
    · exact hs.moves_setAt hr value _
    · exact Moves.refl _ s
  | eraseNode node =>
    rw [edit]
    split
    · exact (Move.change (f := fun r => { r with nodes := r.nodes.erase node }) hr
        (.eraseNode node)).moves
    · exact Moves.refl _ s
  | eraseEdge item =>
    rw [edit]
    split
    · next edge _ =>
      exact (Move.change (f := fun r => { r with edges := r.edges.erase edge }) hr
        (.eraseEdge edge)).moves
    · exact Moves.refl _ s

end Edit

theorem record_eq_ok_iff {g : Nat} {r : GraphRecord} :
    s.record g = .ok r ↔ s.graphs[g]? = some r := by
  rw [record]
  split <;> simp_all

theorem handle_eq_ok_iff {name : String} {id : Nat} :
    s.handle name = .ok id ↔ s.handles.get? name = some id := by
  rw [handle]
  split <;> simp_all

/-- **A command is a row of moves on the graph that it is about.** -/
theorem Exclusive.moves_step (hs : s.Exclusive) (c : Command) :
    Moves (s.target c) s (s.step c).2 := by
  cases c with
  | create kind name =>
    cases kind with
    | none => exact Moves.refl _ s
    | some kind => exact (Move.create kind name).moves
  | subgraph g name =>
    rw [step]
    split
    · exact Moves.refl _ s
    · next r hr => exact (Move.nest (record_eq_ok_iff.mp hr) name).moves
  | edit g change =>
    rw [step]
    split
    · exact Moves.refl _ s
    · next r hr => exact hs.moves_edit (record_eq_ok_iff.mp hr) change
  | ask g query =>
    rw [step]
    split <;> exact Moves.refl _ s
  | contents | subgraphs | askStore | compareStores => exact Moves.refl _ s
  | graphStore g name =>
    rw [step]
    split
    · exact Moves.refl _ s
    · next r hr =>
      exact moves_keep _ (hs.made g _ ⟨r, record_eq_ok_iff.mp hr, List.mem_cons_self⟩) name
  | newStore name attrs =>
    refine (Move.free attrs.entries).moves.trans (moves_keep _ ?_ (some name))
    simp [newStore]
  | editStore name change =>
    rw [step]
    split
    · exact Moves.refl _ s
    · next id hid =>
      rw [handle_eq_ok_iff] at hid
      refine (Move.write id change fun g hg => ?_).moves
      rw [target, hid, Option.bind_some, hs.holder?_eq hg]
  | openCursor name g side node =>
    rw [step]
    split
    · exact Moves.refl _ s
    · exact moves_cursor _ s name _
  | advance name =>
    rw [step]
    split
    · exact Moves.refl _ s
    · split
      · exact Moves.refl _ s
      · exact moves_cursor _ s name _

end Session

end GraphScript
