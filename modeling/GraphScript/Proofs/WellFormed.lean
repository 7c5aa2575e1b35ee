import GraphScript.Proofs.Moves
import GraphScript.Proofs.Trees

/-!
# Well-formed sessions

No sequence of commands leads to a session that is not well formed. Three things make it so.

* **Graphs** (`GraphRecord.WellFormed`): no name stands twice among the nodes of a graph, no two
  of its edges are equal, from whichever end they were written, and all of them are of the kind of
  the graph.
* **Stores**: no key stands twice in one.
* **Nesting** (`Session.Forest`): a graph is directly inside at most one other graph and only once,
  and the graph that it is in is older and of its own kind. So nesting has no cycles
  (`Session.Forest.wellFounded`), and there is a finite tree for every graph, with all its
  subgraphs in it (`Session.Forest.tree?_eq_node`).

Moves keep each of the three, also those of a command that breaks off.
-/

namespace GraphScript

/-- Names of nodes are distinct, edges are distinct under their own equality, and all edges are of
the kind of the graph. -/
structure GraphRecord.WellFormed (r : GraphRecord) : Prop where
  nodes : r.nodes.Distinct
  edges : r.edges.table.Distinct
  kinds : ∀ e ∈ r.edges.table.keys, e.kind = r.kind

/-- The same for a graph as a plain value, together with its attributes: no key stands twice among
those of the graph, of a node or of an edge. -/
structure Graph.WellFormed (g : Graph) : Prop where
  attrs : g.attrs.Distinct
  nodes : g.nodes.Distinct
  nodeAttrs : ∀ a ∈ g.nodes.values, a.Distinct
  edges : g.edges.Distinct
  edgeAttrs : ∀ a ∈ g.edges.values, a.Distinct
  kinds : ∀ e ∈ g.edges.keys, e.kind = g.kind

/-- In a well-formed graph without directions, an edge and the same edge written from its other end
are not both there, unless it is a loop. -/
theorem Graph.WellFormed.tail_eq_head {g : Graph} (hg : g.WellFormed)
    (hk : g.kind = .undirected) {e : Edge} (he : e ∈ g.edges.keys)
    (hswap : e.swap ∈ g.edges.keys) : e.tail = e.head := by
  have hbeq := Edge.swap_beq ((hg.kinds e he).trans hk)
  exact congrArg Edge.head (hg.edges.eq_of_beq hswap he hbeq)

namespace GraphRecord

variable {r r' : GraphRecord} {id : Nat}

theorem Change.wellFormed (h : r.Change r') (hr : r.WellFormed) : r'.WellFormed := by
  cases h with
  | rename name => exact ⟨hr.nodes, hr.edges, hr.kinds⟩
  | eraseNode node => exact ⟨hr.nodes.erase node, hr.edges, hr.kinds⟩
  | eraseEdge edge =>
    refine ⟨hr.nodes, ?_, fun e he => ?_⟩
    · rw [Shelf.table_erase]
      exact hr.edges.erase edge
    · rw [Shelf.table_erase, Table.keys_erase] at he
      exact hr.kinds e (List.mem_of_mem_filter he)

theorem Growth.wellFormed (h : r.Growth id r') (hr : r.WellFormed) : r'.WellFormed := by
  cases h with
  | node node h => exact ⟨hr.nodes.push h id, hr.edges, hr.kinds⟩
  | edge edge hk h =>
    refine ⟨hr.nodes, ?_, fun e he => ?_⟩
    · rw [Shelf.table_push]
      exact hr.edges.push h id
    · rw [Shelf.table_push, Table.keys_push, List.mem_append, List.mem_singleton] at he
      rcases he with he | rfl
      · exact hr.kinds e he
      · exact hk

end GraphRecord

namespace Session

/-! ### Nesting -/

/-- A graph is directly inside another one. -/
def IsSubgraph (s : Session) (i g : Nat) : Prop := i ∈ s.subgraphs g

/-- Nesting is a forest: a graph is directly inside at most one graph and only once, and this graph
is older and of the same kind. -/
structure Forest (s : Session) : Prop where
  once : ∀ g, (s.subgraphs g).Nodup
  unique : ∀ i g h, s.IsSubgraph i g → s.IsSubgraph i h → g = h
  older : ∀ i g, s.IsSubgraph i g → g < i
  kind : ∀ i g, s.IsSubgraph i g →
    ∃ r r', s.graphs[g]? = some r ∧ s.graphs[i]? = some r' ∧ r'.kind = r.kind

variable {w : Option Nat} {s s' : Session} {g : Nat} {r : GraphRecord}

theorem subgraphs_eq (hr : s.graphs[g]? = some r) : s.subgraphs g = r.subgraphs := by
  rw [subgraphs, hr]
  rfl

theorem isSubgraph_iff {i : Nat} :
    s.IsSubgraph i g ↔ ∃ r, s.graphs[g]? = some r ∧ i ∈ r.subgraphs := by
  rw [IsSubgraph, subgraphs]
  cases s.graphs[g]? <;> simp

theorem Forest.lt_length (h : s.Forest) {i : Nat} (hi : s.IsSubgraph i g) :
    i < s.graphs.length := by
  obtain ⟨-, r', -, hr', -⟩ := h.kind i g hi
  exact (List.getElem?_eq_some_iff.mp hr').1

theorem Forest.ordered (h : s.Forest) : s.Ordered :=
  fun _ _ hr _ hi => h.older _ _ (isSubgraph_iff.mpr ⟨_, hr, hi⟩)

/-- **Nesting has no cycles**, and nothing is nested without end. -/
theorem Forest.wellFounded (h : s.Forest) : WellFounded s.IsSubgraph := by
  -- what is nested is newer, and there are no more graphs than the session has
  refine Subrelation.wf (fun {i g} hi => ?_) (measure fun i => s.graphs.length - i).wf
  have := h.older i g hi
  have := h.lt_length hi
  change s.graphs.length - i < s.graphs.length - g
  omega

/-- The tree of a graph is the graph with the trees of all its subgraphs. -/
theorem Forest.tree?_eq_node (h : s.Forest) (hr : s.graphs[g]? = some r) :
    ∃ ts, s.tree? g = some (.node (s.view r) ts) ∧ ts.map some = (s.subgraphs g).map s.tree? := by
  refine ⟨_, tree?_eq h.ordered hr, ?_⟩
  rw [subgraphs_eq hr]
  have hall : ∀ i ∈ r.subgraphs, (s.tree? i).isSome := fun i hi => by
    obtain ⟨-, r', -, hr', -⟩ := h.kind i g (isSubgraph_iff.mpr ⟨r, hr, hi⟩)
    rw [isSome_tree?, hr', Option.isSome_some]
  generalize r.subgraphs = is at hall
  induction is with
  | nil => rfl
  | cons i is ih =>
    obtain ⟨t, ht⟩ := Option.isSome_iff_exists.mp (hall i List.mem_cons_self)
    rw [List.filterMap_cons, ht, List.map_cons, List.map_cons, ht,
      ih fun j hj => hall j (List.mem_cons_of_mem _ hj)]

/-- A graph keeps its kind, whatever happens to it. -/
theorem Move.kind_eq (hm : Move w s s') (hr : s.graphs[g]? = some r) :
    ∃ r', s'.graphs[g]? = some r' ∧ r'.kind = r.kind := by
  have hg : g < s.graphs.length := (List.getElem?_eq_some_iff.mp hr).1
  have hg' : g < s'.graphs.length := Nat.lt_of_lt_of_le hg hm.length_graphs_le
  refine ⟨s'.graphs[g], List.getElem?_eq_getElem hg', ?_⟩
  rcases hm.record_cases (List.getElem?_eq_getElem hg') with h | ⟨-, r₁, hr₁, h⟩ | ⟨h, -⟩
  · rw [Option.some.inj (h.symm.trans hr)]
  · obtain rfl := Option.some.inj (hr₁.symm.trans hr)
    rcases h with h | h | h
    · exact h.kind_eq
    · exact h.kind_eq
    · rw [h]
  · omega

/-- **At most one graph takes up a subgraph in a move, and the subgraph is new and of its kind.** -/
theorem Move.isSubgraph_cases (hm : Move w s s') : ∃ g₀, ∀ i g, s'.IsSubgraph i g →
    s.IsSubgraph i g ∨ (g = g₀ ∧ i = s.graphs.length ∧ g < i ∧
      ∃ r r', s'.graphs[g]? = some r ∧ s'.graphs[i]? = some r' ∧ r'.kind = r.kind) := by
  cases hm with
  | note | free | write => exact ⟨0, fun i g h => .inl h⟩
  | create kind name =>
    refine ⟨0, fun i g h => .inl ?_⟩
    obtain ⟨r', hr', hi⟩ := isSubgraph_iff.mp h
    rcases newGraph_cases hr' with hr | ⟨-, rfl⟩
    · exact isSubgraph_iff.mpr ⟨r', hr, hi⟩
    · exact absurd hi List.not_mem_nil
  | @nest _ g₀ r hr name =>
    have hg₀ : g₀ < s.graphs.length := (List.getElem?_eq_some_iff.mp hr).1
    -- the new graph is not touched again when the graph around it takes it up
    have hlater : ∀ f, (s.newGraph r.kind name).2.modifyGraph g₀ f |>.graphs[s.graphs.length]? =
        some { kind := r.kind, name, attrs := s.stores.length } := fun f => by
      rw [getElem?_modifyGraph, newGraph, newStore, List.getElem?_concat_length, Option.map_some,
        if_neg (by omega)]
    refine ⟨g₀, fun i g h => ?_⟩
    obtain ⟨r', hr', hi⟩ := isSubgraph_iff.mp h
    have hr'' := hr'
    rcases modifyGraph_cases hr' with ⟨-, h⟩ | ⟨rfl, r₁, h₁, rfl⟩
    · rcases newGraph_cases h with h | ⟨-, rfl⟩
      · exact .inl (isSubgraph_iff.mpr ⟨r', h, hi⟩)
      · exact absurd hi List.not_mem_nil
    · rcases newGraph_cases h₁ with h₁ | ⟨hg, -⟩
      · obtain rfl := Option.some.inj (hr.symm.trans h₁)
        rcases List.mem_append.mp hi with hi | hi
        · exact .inl (isSubgraph_iff.mpr ⟨r, hr, hi⟩)
        · obtain rfl := List.mem_singleton.mp hi
          exact .inr ⟨rfl, rfl, hg₀, _, _, hr'', hlater _, rfl⟩
      · omega
  | @change _ g₀ r hr f hf =>
    refine ⟨0, fun i g h => .inl ?_⟩
    obtain ⟨r', hr', hi⟩ := isSubgraph_iff.mp h
    rcases modifyGraph_cases hr' with ⟨-, h⟩ | ⟨rfl, r₁, h₁, rfl⟩
    · exact isSubgraph_iff.mpr ⟨r', h, hi⟩
    · obtain rfl := Option.some.inj (hr.symm.trans h₁)
      exact isSubgraph_iff.mpr ⟨r, hr, hf.subgraphs_eq ▸ hi⟩
  | @grow _ g₀ r hr f hf =>
    refine ⟨0, fun i g h => .inl ?_⟩
    obtain ⟨r', hr', hi⟩ := isSubgraph_iff.mp h
    rcases modifyGraph_cases hr' with ⟨-, h⟩ | ⟨rfl, r₁, h₁, rfl⟩
    · exact isSubgraph_iff.mpr ⟨r', h, hi⟩
    · obtain rfl := Option.some.inj (hr.symm.trans h₁)
      exact isSubgraph_iff.mpr ⟨r, hr, hf.subgraphs_eq ▸ hi⟩

/-- Nesting stays a forest. -/
theorem Move.forest (hm : Move w s s') (hs : s.Forest) : s'.Forest := by
  obtain ⟨g₀, hcases⟩ := hm.isSubgraph_cases
  -- every subgraph there was before is older than the one that a move may make
  have hold : ∀ {i g}, s.IsSubgraph i g → i ≠ s.graphs.length := fun hi =>
    Nat.ne_of_lt (hs.lt_length hi)
  refine ⟨fun g => ?_, fun i g h hg hh => ?_, fun i g hi => ?_, fun i g hi => ?_⟩
  · cases hr' : s'.graphs[g]? with
    | none => simp [subgraphs, hr']
    | some r' =>
      rw [subgraphs_eq hr']
      rcases hm.record_cases hr' with hr | ⟨-, r, hr, hc⟩ | ⟨-, kind, name, rfl⟩
      · exact subgraphs_eq hr ▸ hs.once g
      · have honce : r.subgraphs.Nodup := subgraphs_eq hr ▸ hs.once g
        rcases hc with hc | hgr | rfl
        · rwa [hc.subgraphs_eq]
        · rwa [hgr.subgraphs_eq]
        · refine honce.append (List.nodup_singleton _) ?_
          rw [List.disjoint_singleton]
          exact fun hmem => hold (isSubgraph_iff.mpr ⟨r, hr, hmem⟩) rfl
      · exact List.nodup_nil
  · rcases hcases i g hg with hg | ⟨rfl, rfl, -⟩
    · rcases hcases i h hh with hh | ⟨-, hi, -⟩
      · exact hs.unique i g h hg hh
      · exact absurd hi (hold hg)
    · rcases hcases _ h hh with hh | ⟨rfl, -⟩
      · exact absurd rfl (hold hh)
      · rfl
  · rcases hcases i g hi with hi | ⟨-, -, hlt, -⟩
    · exact hs.older i g hi
    · exact hlt
  · rcases hcases i g hi with hi | ⟨-, -, -, h⟩
    · obtain ⟨r, r', hr, hr', hk⟩ := hs.kind i g hi
      obtain ⟨q, hq, hqk⟩ := hm.kind_eq hr
      obtain ⟨q', hq', hqk'⟩ := hm.kind_eq hr'
      exact ⟨q, q', hq, hq', by rw [hqk', hk, hqk]⟩
    · exact h

/-! ### The whole session -/

/-- Graphs are well formed, no key stands twice in a store, whether or not a graph holds it, and
nesting is a forest. -/
structure WellFormed (s : Session) : Prop where
  graphs : ∀ (g : Nat) (r : GraphRecord), s.graphs[g]? = some r → r.WellFormed
  stores : ∀ a ∈ s.stores, a.Distinct
  forest : s.Forest

theorem WellFormed.store (hs : s.WellFormed) (id : Nat) : (s.store id).Distinct := by
  rw [Session.store]
  cases h : s.stores[id]? with
  | none => exact Table.distinct_empty
  | some a => exact hs.stores a (List.mem_of_getElem? h)

/-- What is in a store that holds no key twice after a move. -/
theorem Move.stores_distinct (hm : Move w s s') (hs : s.WellFormed) :
    ∀ a ∈ s'.stores, a.Distinct := by
  have hpush : ∀ b : Attributes, b.Distinct → ∀ a ∈ s.stores ++ [b], a.Distinct := by
    intro b hb a ha
    rcases List.mem_append.mp ha with ha | ha
    · exact hs.stores a ha
    · exact List.mem_singleton.mp ha ▸ hb
  cases hm with
  | note | change => exact hs.stores
  | free entries => exact hpush _ (Table.distinct_ofList entries)
  | create | nest | grow => exact hpush _ Table.distinct_empty
  | write id e =>
    intro a ha
    rcases List.mem_or_eq_of_mem_set ha with ha | rfl
    · exact hs.stores a ha
    · exact Attributes.distinct_edit (hs.store id) e

/-- A move keeps a session well formed. -/
theorem Move.wellFormed (hm : Move w s s') (hs : s.WellFormed) : s'.WellFormed := by
  refine ⟨fun g r' hr' => ?_, hm.stores_distinct hs, hm.forest hs.forest⟩
  rcases hm.record_cases hr' with hr | ⟨-, r, hr, hc | hgr | rfl⟩ | ⟨-, kind, name, rfl⟩
  · exact hs.graphs g r' hr
  · exact hc.wellFormed (hs.graphs g r hr)
  · exact hgr.wellFormed (hs.graphs g r hr)
  · have h := hs.graphs g r hr
    exact ⟨h.nodes, h.edges, h.kinds⟩
  · exact ⟨Table.distinct_empty, Table.distinct_empty, fun e he => absurd he List.not_mem_nil⟩

/-- A graph of a well-formed session is well formed as a plain value. -/
theorem WellFormed.view (hs : s.WellFormed) (hr : s.graphs[g]? = some r) :
    (s.view r).WellFormed := by
  obtain ⟨hn, he, hk⟩ := hs.graphs g r hr
  have hvalues : ∀ {κ : Type} (t : Table κ Nat), ∀ a ∈ (t.map s.store).values, a.Distinct := by
    intro κ t a ha
    obtain ⟨e, he, rfl⟩ := List.mem_map.mp ha
    obtain ⟨e, -, rfl⟩ := List.mem_map.mp he
    exact hs.store e.2
  refine ⟨hs.store r.attrs, Table.distinct_map.mpr hn, hvalues _, Table.distinct_map.mpr he,
    hvalues _, ?_⟩
  rw [Session.view, Table.keys_map]
  exact hk

/-! ### Sessions that can be reached -/

/-- What moves keep of a session in which no store is held twice holds after any run. -/
theorem run_induction {P : Session → Prop} (hP : ∀ {w s s'}, Move w s s' → P s → P s')
    (cs : List Command) (hs : s.Exclusive) (h : P s) :
    (s.run cs).2.Exclusive ∧ P (s.run cs).2 := by
  induction cs generalizing s with
  | nil => exact ⟨hs, h⟩
  | cons c cs ih =>
    have hm := hs.moves_step c
    exact ih (hm.keep Move.exclusive hs) (hm.keep hP h)

theorem exclusive_empty : ({} : Session).Exclusive :=
  ⟨fun g r h => by simp at h, fun g h id hg => by simp [Holds] at hg,
    fun g id hg => by simp [Holds] at hg, fun id h => absurd h List.not_mem_nil⟩

theorem wellFormed_empty : ({} : Session).WellFormed := by
  have hnone : ∀ i g, ¬ ({} : Session).IsSubgraph i g := fun i g h => by
    simp [IsSubgraph, subgraphs] at h
  exact ⟨fun g r h => by simp at h, fun a h => absurd h List.not_mem_nil,
    fun g => by simp [subgraphs], fun i g h hi => absurd hi (hnone i g),
    fun i g hi => absurd hi (hnone i g), fun i g hi => absurd hi (hnone i g)⟩

/-- **Every session that can be reached is well formed.** After any commands, those that fail or
break off included:

* in every graph, names of nodes are distinct, edges are distinct under their own equality and of
  the kind of the graph, and the keys of all attributes are distinct;
* so no graph without directions holds an edge in both orientations;
* the keys in every store are distinct, also in those that no graph holds;
* nesting is a forest, without cycles, and the tree of a graph has the trees of all its subgraphs
  in it, so whatever recurses into subgraphs comes to an end. -/
theorem wellFormed_run (cs : List Command) :
    let s := (run {} cs).2
    (∀ g graph, s.graph? g = some graph → graph.WellFormed ∧
      (graph.kind = .undirected → ∀ e ∈ graph.edges.keys, e.swap ∈ graph.edges.keys →
        e.tail = e.head)) ∧
    (∀ a ∈ s.stores, a.Distinct) ∧
    s.Forest ∧ WellFounded s.IsSubgraph ∧
    ∀ g graph, s.graph? g = some graph →
      ∃ ts, s.tree? g = some (.node graph ts) ∧ ts.map some = (s.subgraphs g).map s.tree? := by
  intro s
  have hs : s.WellFormed := (run_induction Move.wellFormed cs exclusive_empty wellFormed_empty).2
  refine ⟨fun g graph hg => ?_, hs.stores, hs.forest, hs.forest.wellFounded, fun g graph hg => ?_⟩
  · obtain ⟨r, hr, rfl⟩ := Option.map_eq_some_iff.mp hg
    exact ⟨hs.view hr, fun hk e he => (hs.view hr).tail_eq_head hk he⟩
  · obtain ⟨r, hr, rfl⟩ := Option.map_eq_some_iff.mp hg
    exact hs.forest.tree?_eq_node hr

end Session

end GraphScript
