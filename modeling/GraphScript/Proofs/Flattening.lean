import GraphScript.Proofs.Libraries
import GraphScript.Proofs.Merging

/-!
# What a network tells of a graph tree

A network is made step by step, by taking entries one after the other. This module says what comes
of it without steps (`GraphTree.Flattening`), in terms of the graphs of the tree in the order in
which they are visited:

* the nodes are those of all graphs, each where it is named first, and their attributes are merged;
* the edges are those of all graphs, each once, from whichever end, and their attributes are merged;
* each edge is listed from the end that is the first of the two among the nodes;
* the attributes of the network are those of the outermost graph, and its name.

`Session.flattening_run` says this of every graph that commands lead to and that has no attribute
under a reserved name, for networks here and in any library.
-/

namespace GraphScript

namespace Table

variable {κ α : Type} [BEq κ] [EquivBEq κ]

theorem get?_congr (t : Table κ α) {j k : κ} (h : (j == k) = true) : t.get? j = t.get? k := by
  rw [get?, get?, find?_congr t h]

theorem contains_insert (t : Table κ α) (k j : κ) (v : α) :
    (t.insert k v).contains j = (t.contains j || k == j) := by
  rw [← isSome_get?, get?_insert]
  cases k == j with
  | true => rw [if_pos rfl, Option.isSome_some, Bool.or_true]
  | false => rw [if_neg Bool.false_ne_true, isSome_get?, Bool.or_false]

/-- In a table with distinct keys, one value at most stands under a key. -/
theorem Distinct.filterMap_entries {t : Table κ α} (ht : t.Distinct) (k : κ) :
    t.entries.filterMap (fun e => if e.1 == k then some e.2 else none) = (t.get? k).toList := by
  obtain ⟨es⟩ := t
  induction es with
  | nil => rfl
  | cons e es ih =>
    have hrest := ih (List.pairwise_cons.mp ht).2
    rw [get?_cons, List.filterMap_cons]
    by_cases hk : (e.1 == k) = true
    · have hnone : get? (⟨es⟩ : Table κ α) k = none :=
        get?_eq_none_iff.mpr (ht.not_contains_of_cons hk)
      rw [hnone] at hrest
      rw [if_pos hk, if_pos hk, hrest]
      rfl
    · rw [if_neg hk, if_neg hk]
      exact hrest

/-- The value of an entry is found under every key that equals its own. -/
theorem Distinct.get?_of_mem {t : Table κ α} (ht : t.Distinct) {e : κ × α} (he : e ∈ t.entries)
    {k : κ} (hk : (e.1 == k) = true) : t.get? k = some e.2 := by
  have hmem : e.2 ∈ (t.get? k).toList := by
    rw [← ht.filterMap_entries k]
    exact List.mem_filterMap.mpr ⟨e, he, if_pos hk⟩
  exact Option.mem_toList.mp hmem

/-- What merging attributes into an entry does to the attributes under a key. -/
theorem getD_get?_merge (t : Table κ Attributes) (k j : κ) (attrs : Attributes) :
    ((t.insert k (((t.get? k).getD ∅).insertMany attrs.entries)).get? j).getD ∅ =
      Attributes.mergeAll ((t.get? j).getD ∅) (if k == j then some attrs else none).toList := by
  rw [get?_insert]
  split
  · next h =>
    rw [Option.getD_some, get?_congr t h]
    rfl
  · rfl

end Table

/-! ### What an entry tells -/

namespace NetworkEntry

/-- The nodes that an entry names. -/
def names : NetworkEntry → List String
  | node name _ => [name]
  | edge e _ => [e.tail, e.head]

/-- The attributes that an entry tells of a node. -/
def nodeAttrs? (name : String) : NetworkEntry → Option Attributes
  | node other attrs => if other == name then some attrs else none
  | edge _ _ => none

/-- The attributes that an entry tells of an edge. -/
def edgeAttrs? (e : Edge) : NetworkEntry → Option Attributes
  | node _ _ => none
  | edge f attrs => if f == e then some attrs else none

end NetworkEntry

namespace Graph

variable {g : Graph}

/-- The entries of a graph tell of a node what stands in its table. -/
theorem filterMap_nodeAttrs? (hg : g.nodes.Distinct) (name : String) :
    g.networkEntries.filterMap (NetworkEntry.nodeAttrs? name) = (g.nodes.get? name).toList := by
  rw [networkEntries, List.filterMap_append, List.filterMap_map, List.filterMap_map,
    ← hg.filterMap_entries]
  exact (congrArg _ (List.filterMap_eq_nil_iff.mpr fun _ _ => rfl)).trans (List.append_nil _)

/-- The entries of a graph tell of an edge what stands in its table. -/
theorem filterMap_edgeAttrs? (hg : g.edges.Distinct) (edge : Edge) :
    g.networkEntries.filterMap (NetworkEntry.edgeAttrs? edge) = (g.edges.get? edge).toList := by
  rw [networkEntries, List.filterMap_append, List.filterMap_map, List.filterMap_map,
    ← hg.filterMap_entries]
  exact congrArg (· ++ _) (List.filterMap_eq_nil_iff.mpr fun _ _ => rfl)

end Graph

namespace GraphTree

variable {t : GraphTree}

/-- The entries of a tree name the nodes of its graphs. -/
theorem eraseDups_names (t : GraphTree) :
    (t.networkEntries.flatMap NetworkEntry.names).eraseDups =
      (t.visited.flatMap Graph.nodeNames).eraseDups := by
  have hgraph : ∀ g : Graph, g.networkEntries.flatMap NetworkEntry.names =
      g.nodes.keys ++ g.edges.keys.flatMap fun e => [e.tail, e.head] := by
    intro g
    rw [Graph.networkEntries, List.flatMap_append, List.flatMap_map, List.flatMap_map, Table.keys,
      Table.keys, List.flatMap_map, ← List.flatMap_pure_eq_map]
    rfl
  rw [networkEntries, List.flatMap_assoc]
  refine eraseDups_flatMap_congr (fun g => ?_) t.visited
  rw [hgraph, Graph.nodeNames, eraseDups_eraseDups]

/-- What the entries of a tree tell, if it is known of each graph. -/
theorem filterMap_networkEntries {told? : NetworkEntry → Option Attributes}
    {stored : Graph → Option Attributes}
    (h : ∀ g ∈ t.visited, g.networkEntries.filterMap told? = (stored g).toList) :
    t.networkEntries.filterMap told? = t.visited.filterMap stored := by
  rw [networkEntries, List.filterMap_flatMap, List.filterMap_eq_flatMap_toList]
  exact List.flatMap_congr h

end GraphTree

/-! ### What taking entries leads to -/

namespace Network

variable {net : Network}

theorem attrs_take (net : Network) (x : NetworkEntry) : (net.take x).attrs = net.attrs := by
  cases x with
  | node name attrs => rfl
  | edge edge attrs => rw [take, mergeEdge, attrs_touch, attrs_touch]

theorem attrs_foldl_take (net : Network) (xs : List NetworkEntry) :
    (xs.foldl take net).attrs = net.attrs := by
  induction xs generalizing net with
  | nil => rfl
  | cons x xs ih => exact (ih (net.take x)).trans (attrs_take net x)

theorem keys_touch {l : List String} (h : net.nodes.keys = l.eraseDups) (name : String) :
    (net.touch name).nodes.keys = (l ++ [name]).eraseDups := by
  rw [← Table.keys_insert_of_eraseDups h name ∅, touch, Table.insert]
  split
  · rw [Table.keys_replace]
  · rfl

theorem keys_take {l : List String} (h : net.nodes.keys = l.eraseDups) (x : NetworkEntry) :
    (net.take x).nodes.keys = (l ++ x.names).eraseDups := by
  cases x with
  | node name attrs => exact Table.keys_insert_of_eraseDups h name _
  | edge edge attrs =>
    have hends := keys_touch (keys_touch h edge.tail) edge.head
    rw [List.append_assoc] at hends
    exact hends

/-- The nodes are those that the entries name, each where it is named first. -/
theorem keys_foldl_take {l : List String} (h : net.nodes.keys = l.eraseDups)
    (xs : List NetworkEntry) :
    (xs.foldl take net).nodes.keys = (l ++ xs.flatMap NetworkEntry.names).eraseDups := by
  induction xs generalizing net l with
  | nil =>
    rw [List.flatMap_nil, List.append_nil]
    exact h
  | cons x xs ih =>
    rw [List.foldl_cons, ih (keys_take h x), List.flatMap_cons, List.append_assoc]

theorem nodeAttrs_touch (net : Network) (name other : String) :
    ((net.touch name).nodes.get? other).getD ∅ = (net.nodes.get? other).getD ∅ := by
  rw [get?_touch]
  split
  · next h =>
    subst h
    rfl
  · rfl

theorem nodeAttrs_take (name : String) (net : Network) (x : NetworkEntry) :
    ((net.take x).nodes.get? name).getD ∅ =
      Attributes.mergeAll ((net.nodes.get? name).getD ∅) (x.nodeAttrs? name).toList := by
  cases x with
  | node other attrs => exact Table.getD_get?_merge _ _ _ _
  | edge edge attrs => exact (nodeAttrs_touch _ _ _).trans (nodeAttrs_touch _ _ _)

theorem edges_take_edge (net : Network) (edge : Edge) (attrs : Attributes) :
    (net.take (.edge edge attrs)).edges =
      net.edges.insert edge (((net.edges.get? edge).getD ∅).insertMany attrs.entries) := by
  rw [take, mergeEdge, edges_touch, edges_touch]

theorem edgeAttrs_take (e : Edge) (net : Network) (x : NetworkEntry) :
    ((net.take x).edges.get? e).getD ∅ =
      Attributes.mergeAll ((net.edges.get? e).getD ∅) (x.edgeAttrs? e).toList := by
  cases x with
  | node name attrs => rfl
  | edge edge attrs =>
    rw [edges_take_edge]
    exact Table.getD_get?_merge _ _ _ _

/-- What is read off a network that takes entries is what was there, merged with what the entries
tell. -/
theorem read_foldl_take (read : Network → Attributes) {told? : NetworkEntry → Option Attributes}
    (htake : ∀ net x, read (net.take x) = Attributes.mergeAll (read net) (told? x).toList)
    (net : Network) (xs : List NetworkEntry) :
    read (xs.foldl take net) = Attributes.mergeAll (read net) (xs.filterMap told?) := by
  induction xs generalizing net with
  | nil => rfl
  | cons x xs ih =>
    have hcons : (x :: xs).filterMap told? = (told? x).toList ++ xs.filterMap told? := by
      rw [List.filterMap_cons]
      cases told? x <;> rfl
    rw [List.foldl_cons, ih, htake, hcons, Attributes.mergeAll, Attributes.mergeAll,
      Attributes.mergeAll, List.foldl_append]

/-- The edges are those that the entries tell of. -/
theorem contains_foldl_take (e : Edge) (net : Network) (xs : List NetworkEntry) :
    (xs.foldl take net).edges.contains e = true ↔
      net.edges.contains e = true ∨ ∃ attrs, attrs ∈ xs.filterMap (NetworkEntry.edgeAttrs? e) := by
  induction xs generalizing net with
  | nil => simp
  | cons x xs ih =>
    have htake : (net.take x).edges.contains e = true ↔
        net.edges.contains e = true ∨ ∃ attrs, x.edgeAttrs? e = some attrs := by
      cases x with
      | node name attrs => simp [take, mergeNode, NetworkEntry.edgeAttrs?]
      | edge edge attrs =>
        rw [edges_take_edge, Table.contains_insert, Bool.or_eq_true]
        simp [NetworkEntry.edgeAttrs?]
    rw [List.foldl_cons, ih, htake]
    simp only [List.mem_filterMap, List.mem_cons, or_assoc, exists_eq_or_imp, exists_or]

end Network

/-! ### The edges as they are listed -/

namespace Network

variable {net : Network}

/-- A listed edge, written from the end that it is listed from. -/
def linkEdge (kind : Kind) (link : String × String × Attributes) : Edge :=
  ⟨kind, link.1, link.2.1⟩

theorem Lists.beq_linkEdge {e : Edge × Attributes} {link : String × String × Attributes}
    (h : Lists e link) {kind : Kind} (hkind : e.1.kind = kind) :
    (e.1 == linkEdge kind link) = true := by
  subst hkind
  exact Edge.from?_eq_some_iff.mp h.1

theorem exists_of_mem_linksFrom {edges : List (Edge × Attributes)} {nodes : List String}
    {link : String × String × Attributes} (h : link ∈ linksFrom edges nodes) :
    ∃ e ∈ edges, Lists e link := by
  induction nodes generalizing edges with
  | nil => exact absurd h List.not_mem_nil
  | cons node nodes ih =>
    rw [linksFrom, List.mem_append] at h
    rcases h with h | h
    · obtain ⟨e, he, hlink⟩ := List.mem_filterMap.mp h
      obtain ⟨other, hother, rfl⟩ := Option.map_eq_some_iff.mp hlink
      exact ⟨e, he, hother, rfl⟩
    · obtain ⟨e, he, hlists⟩ := ih h
      exact ⟨e, List.mem_of_mem_filter he, hlists⟩

/-- Without directions, an edge is listed from the end that comes first among the nodes. -/
theorem idxOf_le_of_mem_linksFrom {edges : List (Edge × Attributes)} {nodes : List String}
    (hkinds : ∀ e ∈ edges, e.1.kind = .undirected) {link : String × String × Attributes}
    (h : link ∈ linksFrom edges nodes) : nodes.idxOf link.1 ≤ nodes.idxOf link.2.1 := by
  induction nodes generalizing edges with
  | nil => exact Nat.le_refl _
  | cons node nodes ih =>
    rw [linksFrom, List.mem_append] at h
    rcases h with h | h
    · obtain ⟨e, -, hlink⟩ := List.mem_filterMap.mp h
      obtain ⟨other, -, rfl⟩ := Option.map_eq_some_iff.mp hlink
      rw [List.idxOf_cons_self]
      exact Nat.zero_le _
    · -- an edge that is left does not meet the first node
      obtain ⟨e, he, hlists⟩ := exists_of_mem_linksFrom h
      obtain ⟨hedge, hnone⟩ := List.mem_filter.mp he
      have hback := Edge.from?_symm (hkinds e hedge) hlists.1
      have hapart : ∀ {a b : String}, e.1.from? a = some b → node ≠ a := by
        rintro a b hab rfl
        rw [hab] at hnone
        cases hnone
      rw [List.idxOf_cons_ne _ (hapart hlists.1), List.idxOf_cons_ne _ (hapart hback)]
      exact Nat.succ_le_succ (ih (fun e he => hkinds e (List.mem_of_mem_filter he)) h)

/-- What stands in one of two rows that go together has something that it goes with. -/
theorem exists_of_forall₂ {α β : Type} {R : α → β → Prop} {l : List α} {m : List β}
    (h : List.Forall₂ R l m) {b : β} (hb : b ∈ m) : ∃ a ∈ l, R a b := by
  induction h with
  | nil => exact absurd hb List.not_mem_nil
  | @cons a b' l m hab hrest ih =>
    rcases List.mem_cons.mp hb with rfl | hb
    · exact ⟨a, List.mem_cons_self, hab⟩
    · obtain ⟨a', ha', hab'⟩ := ih hb
      exact ⟨a', List.mem_cons_of_mem _ ha', hab'⟩

/-- What is apart in one of two rows that go together is apart in the other one. -/
theorem pairwise_of_forall₂ {α β : Type} {R : α → β → Prop} {S : α → α → Prop} {T : β → β → Prop}
    {l : List α} {m : List β} (h : List.Forall₂ R l m) (hl : l.Pairwise S)
    (hapart : ∀ a ∈ l, ∀ a' ∈ l, ∀ b b', R a b → R a' b' → S a a' → T b b') : m.Pairwise T := by
  induction h with
  | nil => exact .nil
  | @cons a b l m hab hrest ih =>
    obtain ⟨ha, hl⟩ := List.pairwise_cons.mp hl
    refine List.pairwise_cons.mpr ⟨fun b' hb' => ?_, ih hl fun a' ha' a'' ha'' =>
      hapart a' (List.mem_cons_of_mem _ ha') a'' (List.mem_cons_of_mem _ ha'')⟩
    obtain ⟨a', ha', hab'⟩ := exists_of_forall₂ hrest hb'
    exact hapart a List.mem_cons_self a' (List.mem_cons_of_mem _ ha') b b' hab hab' (ha a' ha')

/-- The edges as they are listed: every edge, with its attributes, and none twice. -/
structure ListsEach (net : Network) : Prop where
  found (link : String × String × Attributes) (h : link ∈ net.links) :
    net.edges.get? (linkEdge net.kind link) = some link.2.2
  each (edge : Edge) (h : net.edges.contains edge = true) :
    ∃ link ∈ net.links, (linkEdge net.kind link == edge) = true
  once : (net.links.map (linkEdge net.kind)).Pairwise fun e f => (e == f) = false

theorem WellFormed.listsEach (h : net.WellFormed) : net.ListsEach := by
  obtain ⟨es, hperm, hlists⟩ := h.exists_perm_links
  have hkind : ∀ e ∈ es, e.1.kind = net.kind := fun e he =>
    h.kinds e.1 (List.mem_map_of_mem (hperm.mem_iff.mp he))
  have hapart : es.Pairwise fun x y => (x.1 == y.1) = false :=
    (hperm.pairwise_iff fun {x y} hne => BEq.comm.trans hne).mpr h.edges
  constructor
  case found =>
    intro link hlink
    obtain ⟨e, he, hl⟩ := exists_of_forall₂ hlists hlink
    rw [← hl.2]
    exact h.edges.get?_of_mem (hperm.mem_iff.mp he) (hl.beq_linkEdge (hkind e he))
  case each =>
    intro edge hedge
    obtain ⟨e, he, heq⟩ := List.any_eq_true.mp hedge
    have hmem := hperm.mem_iff.mpr he
    obtain ⟨link, hlink, hl⟩ := exists_of_forall₂ hlists.flip hmem
    have hsame := Lists.beq_linkEdge hl (hkind e hmem)
    exact ⟨link, hlink, BEq.trans (BEq.symm hsame) heq⟩
  case once =>
    refine List.pairwise_map.mpr (pairwise_of_forall₂ hlists hapart ?_)
    intro e he f hf link link' hl hl' hne
    rw [← hne, BEq.congr_left (hl.beq_linkEdge (hkind e he)),
      BEq.congr_right (hl'.beq_linkEdge (hkind f hf))]

end Network

/-! ### What a network tells of a tree -/

/-- What the attributes, the nodes and the listed edges of a network are for a tree, whose graphs
are visited from the inside out. -/
structure GraphTree.Flattening (t : GraphTree) (kind : Kind) (attrs : Attributes)
    (nodes : Table String Attributes) (links : List (String × String × Attributes)) : Prop where
  /-- The attributes are those of the outermost graph, where `name` is its name. -/
  graphAttrs : attrs.Merges [t.graph.attrs, ⟨[("name", t.graph.name)]⟩]
  /-- The nodes are those of all graphs, each where it comes first. -/
  nodeNames : nodes.keys = (t.visited.flatMap Graph.nodeNames).eraseDups
  /-- The attributes of a node are what the graphs have in their tables, merged. -/
  nodeAttrs (name : String) (a : Attributes) (h : nodes.get? name = some a) :
    a.Merges (t.visited.filterMap (·.nodes.get? name))
  /-- A node that is in no table, but only at the ends of edges, has no attributes. -/
  endsOnly (name : String) (hname : ∀ graph ∈ t.visited, graph.nodes.contains name = false)
    (a : Attributes) (h : nodes.get? name = some a) : a = ∅
  /-- The edges are those of all graphs. -/
  edges (edge : Edge) : (∃ link ∈ links, (Network.linkEdge kind link == edge) = true) ↔
    ∃ graph ∈ t.visited, graph.edges.contains edge = true
  /-- The attributes of an edge are what the graphs have for edges that equal it, merged. -/
  edgeAttrs (link : String × String × Attributes) (h : link ∈ links) :
    link.2.2.Merges (t.visited.filterMap (·.edges.get? (Network.linkEdge kind link)))
  /-- No edge is listed twice, from whichever end. -/
  once : (links.map (Network.linkEdge kind)).Pairwise fun e f => (e == f) = false
  /-- Without directions, an edge is listed from the end that is the first of the two. -/
  first (hkind : kind = .undirected) (link : String × String × Attributes) (h : link ∈ links) :
    nodes.keys.idxOf link.1 ≤ nodes.keys.idxOf link.2.1

namespace Network

variable {t : GraphTree} {net : Network}

theorem attrs_ofTree? (hattrs : t.graph.attrs.Distinct) (hnet : ofTree? t = .ok net) :
    net.attrs.Merges [t.graph.attrs, ⟨[("name", t.graph.name)]⟩] := by
  have hmerged : Attributes.mergeAll ∅ [t.graph.attrs, ⟨[("name", t.graph.name)]⟩] =
      t.graph.attrs.insert "name" t.graph.name :=
    congrArg (Table.insert · "name" t.graph.name) hattrs.ofList_entries
  obtain ⟨-, rfl⟩ := ofTree?_eq_ok_iff.mp hnet
  rw [attrs_foldl_take, start, ← hmerged]
  refine Attributes.merges_mergeAll fun a ha => ?_
  rcases List.mem_pair.mp ha with rfl | rfl
  · exact hattrs
  · exact List.pairwise_singleton _ _

theorem keys_ofTree? (hnet : ofTree? t = .ok net) :
    net.nodes.keys = (t.visited.flatMap Graph.nodeNames).eraseDups := by
  have hstart : (start t.graph).nodes.keys = [].eraseDups := rfl
  obtain ⟨-, rfl⟩ := ofTree?_eq_ok_iff.mp hnet
  rw [keys_foldl_take hstart, List.nil_append, t.eraseDups_names]

/-- What is read off the network of a tree is what the graphs have stored, merged, if each entry
that is taken is merged and the entries of each graph tell what it has stored. -/
theorem merges_ofTree? (hnet : ofTree? t = .ok net) (read : Network → Attributes)
    {told? : NetworkEntry → Option Attributes} {stored : Graph → Option Attributes}
    (hstart : read (start t.graph) = ∅)
    (htake : ∀ net x, read (net.take x) = Attributes.mergeAll (read net) (told? x).toList)
    (htold : ∀ g ∈ t.visited, g.networkEntries.filterMap told? = (stored g).toList)
    (hstored : ∀ g ∈ t.visited, ∀ a ∈ stored g, a.Distinct) :
    (read net).Merges (t.visited.filterMap stored) := by
  obtain ⟨-, rfl⟩ := ofTree?_eq_ok_iff.mp hnet
  rw [read_foldl_take read htake, hstart, GraphTree.filterMap_networkEntries htold]
  refine Attributes.merges_mergeAll fun a ha => ?_
  obtain ⟨g, hg, hget⟩ := List.mem_filterMap.mp ha
  exact hstored g hg a hget

theorem nodeAttrs_ofTree? (hwell : ∀ graph ∈ t.visited, graph.WellFormed)
    (hnet : ofTree? t = .ok net) (name : String) :
    ((net.nodes.get? name).getD ∅).Merges (t.visited.filterMap (·.nodes.get? name)) :=
  merges_ofTree? hnet (fun net => (net.nodes.get? name).getD ∅) rfl (nodeAttrs_take name)
    (fun g hg => g.filterMap_nodeAttrs? (hwell g hg).nodes name)
    fun g hg a ha => (hwell g hg).nodeAttrs a (Table.mem_values_of_get? ha)

theorem edgeAttrs_ofTree? (hwell : ∀ graph ∈ t.visited, graph.WellFormed)
    (hnet : ofTree? t = .ok net) (edge : Edge) :
    ((net.edges.get? edge).getD ∅).Merges (t.visited.filterMap (·.edges.get? edge)) :=
  merges_ofTree? hnet (fun net => (net.edges.get? edge).getD ∅) rfl (edgeAttrs_take edge)
    (fun g hg => g.filterMap_edgeAttrs? (hwell g hg).edges edge)
    fun g hg a ha => (hwell g hg).edgeAttrs a (Table.mem_values_of_get? ha)

theorem contains_ofTree? (hwell : ∀ graph ∈ t.visited, graph.WellFormed)
    (hnet : ofTree? t = .ok net) (edge : Edge) :
    net.edges.contains edge = true ↔ ∃ graph ∈ t.visited, graph.edges.contains edge = true := by
  have hstart : (start t.graph).edges.contains edge = false := rfl
  obtain ⟨-, rfl⟩ := ofTree?_eq_ok_iff.mp hnet
  rw [contains_foldl_take, hstart, GraphTree.filterMap_networkEntries fun g hg =>
    g.filterMap_edgeAttrs? (hwell g hg).edges edge]
  simp only [Bool.false_eq_true, false_or, List.mem_filterMap, ← Table.isSome_get?,
    Option.isSome_iff_exists]
  constructor
  · rintro ⟨attrs, graph, hgraph, hget⟩
    exact ⟨graph, hgraph, attrs, hget⟩
  · rintro ⟨graph, hgraph, attrs, hget⟩
    exact ⟨attrs, graph, hgraph, hget⟩

end Network

/-- **The network of a tree of well-formed graphs tells all that the graphs tell**, merged where
they tell of the same. -/
theorem GraphTree.OfKind.flattening {t : GraphTree} {kind : Kind} {net : Network}
    (ht : t.OfKind kind) (hwell : ∀ graph ∈ t.visited, graph.WellFormed)
    (hnet : Network.ofTree? t = .ok net) :
    t.Flattening net.kind net.attrs net.nodes net.links := by
  obtain ⟨hwf, -⟩ := Network.wellFormed_ofTree? ht hnet
  have hlists := hwf.listsEach
  have hroot : t.graph ∈ t.visited := by
    rw [visited_eq]
    exact List.mem_append_right _ List.mem_cons_self
  have hnodes : ∀ name a, net.nodes.get? name = some a →
      a.Merges (t.visited.filterMap (·.nodes.get? name)) := by
    intro name a ha
    have hmerges := Network.nodeAttrs_ofTree? hwell hnet name
    rwa [ha, Option.getD_some] at hmerges
  constructor
  case graphAttrs => exact Network.attrs_ofTree? (hwell t.graph hroot).attrs hnet
  case nodeNames => exact Network.keys_ofTree? hnet
  case nodeAttrs => exact hnodes
  case endsOnly =>
    intro name hname a ha
    have hnone : t.visited.filterMap (·.nodes.get? name) = [] :=
      List.filterMap_eq_nil_iff.mpr fun g hg => Table.get?_eq_none_iff.mpr (hname g hg)
    exact (hnone ▸ hnodes name a ha).eq_empty
  case edges =>
    intro edge
    rw [← Network.contains_ofTree? hwell hnet]
    constructor
    · rintro ⟨link, hlink, heq⟩
      rw [← Table.isSome_get?, ← Table.get?_congr _ heq, hlists.found link hlink,
        Option.isSome_some]
    · exact hlists.each edge
  case edgeAttrs =>
    intro link hlink
    have hmerges := Network.edgeAttrs_ofTree? hwell hnet (Network.linkEdge net.kind link)
    rwa [hlists.found link hlink, Option.getD_some] at hmerges
  case once => exact hlists.once
  case first =>
    intro hkind link hlink
    refine Network.idxOf_le_of_mem_linksFrom (fun e he => ?_) hlink
    exact (hwf.kinds e.1 (List.mem_map_of_mem he)).trans hkind

namespace Session

/-- **Flattening is complete, and the later word counts.** Whatever commands lead to a graph that
has no attribute under a reserved name in it, there is a network of the graph, and it tells all that
the graphs in the tree tell. Every library that answers as it should holds the same network. -/
theorem flattening_run (cs : List Command) {g : Nat} {t : GraphTree}
    (ht : (run {} cs).2.tree? g = some t) (hfree : ¬ t.HoldsReserved) :
    ∃ net, ((run {} cs).2.step (.ask g .network)).1 = .ok (.network net) ∧
      net.kind = t.graph.kind ∧
      t.Flattening net.kind net.attrs net.nodes net.links ∧
      ∀ {N : Type} (lib : NetworkLibrary N), lib.Lawful → ∃ n, lib.flatten t = .ok n ∧
        lib.kind n = net.kind ∧ lib.attrs n = net.attrs ∧ lib.nodes n = net.nodes ∧
        lib.edges n = net.links := by
  have hwf := (run_induction Move.wellFormed cs exclusive_empty wellFormed_empty).2
  obtain ⟨kind, hkind⟩ := ofKind_run cs ht
  have hnone : t.networkEntries.findSome? (NetworkEntry.refusal? t.graph.kind) = none := by
    by_contra hsome
    exact hfree (GraphTree.exists_findSome?_refusal?_iff.mp (Option.ne_none_iff_exists'.mp hsome))
  have hnet := Network.ofTree?_eq_ok_iff.mpr ⟨hnone, rfl⟩
  refine ⟨_, ?_, ?_, hkind.flattening (hwf.of_mem_visited ht) hnet, fun lib hlib => ?_⟩
  · have hanswer : ((run {} cs).2.step (.ask g .network)).1 =
        (Network.ofTree? t).map .network := step_ask ht _
    rw [hanswer, hnet]
    rfl
  · exact (Network.wellFormed_ofTree? hkind hnet).2.trans hkind.kind_eq.symm
  · obtain ⟨n, hflat, hshows, hedges⟩ := hlib.shows_flatten hkind hnet
    exact ⟨n, hflat, hshows.kind, hshows.attrs, hshows.nodes, hedges⟩

/-- An edge is told in a subgraph and, from its other end, outside; one of its ends is told later on
its own, and has a loop. The library that holds neighbours shows one edge, from the end that came
first, and one loop; the attributes are merged, and the name of the graph is the one that counts. -/
theorem flattening_nested :
    let cs : List Command := [.create (some .undirected) "G", .subgraph 0 "s",
      .edit 1 (.addEdge (.edge ⟨.undirected, "a", "b"⟩) ⟨[["w", "1"], ["v", "0"]], ∅⟩ none),
      .edit 0 (.setAttr "name" "old"),
      .edit 0 (.setAttr "z" "2"),
      .edit 0 (.addNode "b" ⟨[["color", "red"]], ∅⟩ none),
      .edit 0 (.addEdge (.edge ⟨.undirected, "b", "a"⟩) ⟨[["x", "3"], ["w", "2"]], ∅⟩ none),
      .edit 0 (.addEdge (.edge ⟨.undirected, "b", "b"⟩) {} none)]
    ∃ t n, (run {} cs).2.tree? 0 = some t ∧ Adjacency.library.flatten t = .ok n ∧
      n.attrs = ⟨[("name", "G"), ("z", "2")]⟩ ∧
      n.nodes = ⟨[("a", ∅), ("b", ⟨[("color", "red")]⟩)]⟩ ∧
      Adjacency.library.edges n =
        [("a", "b", ⟨[("w", "2"), ("v", "0"), ("x", "3")]⟩), ("b", "b", ∅)] := by
  intro cs
  let inside : Graph :=
    { kind := .undirected
      name := "s"
      edges := ⟨[(⟨.undirected, "a", "b"⟩, ⟨[("w", "1"), ("v", "0")]⟩)]⟩ }
  let outside : Graph :=
    { kind := .undirected
      name := "G"
      attrs := ⟨[("name", "old"), ("z", "2")]⟩
      nodes := ⟨[("b", ⟨[("color", "red")]⟩)]⟩
      edges := ⟨[(⟨.undirected, "b", "a"⟩, ⟨[("x", "3"), ("w", "2")]⟩),
        (⟨.undirected, "b", "b"⟩, ∅)]⟩ }
  let net : Network :=
    { kind := .undirected
      attrs := ⟨[("name", "G"), ("z", "2")]⟩
      nodes := ⟨[("a", ∅), ("b", ⟨[("color", "red")]⟩)]⟩
      edges := ⟨[(⟨.undirected, "a", "b"⟩, ⟨[("w", "2"), ("v", "0"), ("x", "3")]⟩),
        (⟨.undirected, "b", "b"⟩, ∅)]⟩ }
  have ht : (run {} cs).2.tree? 0 = some (.node outside [.node inside []]) := by rfl
  have htold : Network.ofTree? (.node outside [.node inside []]) = .ok net := by rfl
  have hnet : ((run {} cs).2.step (.ask 0 .network)).1 = .ok (.network net) := by
    rw [step_ask ht, GraphTree.answer, htold]
    rfl
  have hfree : ¬ GraphTree.HoldsReserved (.node outside [.node inside []]) := by
    unfold GraphTree.HoldsReserved
    decide
  obtain ⟨net', hnet', -, -, hlibrary⟩ := flattening_run cs ht hfree
  obtain rfl : net = net' := Reply.network.inj (Except.ok.inj (hnet.symm.trans hnet'))
  obtain ⟨n, hflat, -, hattrs, hnodes, hedges⟩ := hlibrary _ Adjacency.lawful_library
  exact ⟨_, n, ht, hflat, hattrs, hnodes, hedges⟩

end Session

end GraphScript
