import GraphScript.Proofs.Orientation
import Mathlib.Data.Sym.Sym2

/-!
# What a network holds, and in which order

The network of a tree has every node once and every edge once, and the ends of its edges are nodes
(`Network.WellFormed`). Its edges are listed from its nodes (`Network.links`), each at the first
node that it leads on from: every edge is listed, and none twice (`Network.exists_perm_linksFrom`).

The order of the nodes depends on which end of an edge is written first, and so does the order in
which the edges are listed. Nothing else does: networks of trees that are alike are alike
(`Network.ofTree?_alike`).
-/

namespace GraphScript

namespace Table

variable {κ α : Type} [BEq κ] [LawfulBEq κ] {t t' : Table κ α}

theorem Distinct.get?_eq_some_iff (ht : t.Distinct) {k : κ} {v : α} :
    t.get? k = some v ↔ (k, v) ∈ t.entries := by
  constructor
  · intro h
    obtain ⟨j, hj, hjk⟩ := exists_entry_of_get? h
    exact LawfulBEq.eq_of_beq hjk ▸ hj
  · intro h
    have hfind : ∃ e, t.find? k = some e := by
      refine Option.isSome_iff_exists.mp ?_
      rw [isSome_find?, contains, List.any_eq_true]
      exact ⟨(k, v), h, BEq.rfl⟩
    obtain ⟨⟨j, w⟩, he⟩ := hfind
    have hj : j = k := by simpa using List.find?_some he
    subst hj
    have hmem := List.mem_of_find?_eq_some he
    rw [get?, he, List.inj_on_of_nodup_map ht.nodup_keys hmem h rfl]
    rfl

/-- Tables that hold the same values under the same keys have the same entries, in some order. -/
theorem Distinct.entries_perm (ht : t.Distinct) (ht' : t'.Distinct)
    (h : ∀ k, t.get? k = t'.get? k) : t.entries.Perm t'.entries := by
  refine (List.perm_ext_iff_of_nodup (List.Nodup.of_map _ ht.nodup_keys)
    (List.Nodup.of_map _ ht'.nodup_keys)).mpr fun e => ?_
  rw [← ht.get?_eq_some_iff, ← ht'.get?_eq_some_iff, h]

end Table

namespace Network

variable {net net' : Network}

/-! ### Nodes, edges and ends -/

/-- No node and no edge is there twice, all edges are of the kind of the network, and their ends are
nodes. -/
structure WellFormed (net : Network) : Prop where
  nodes : net.nodes.Distinct
  edges : net.edges.Distinct
  kinds : ∀ e ∈ net.edges.keys, e.kind = net.kind
  ends : ∀ e ∈ net.edges.keys,
    net.nodes.contains e.tail = true ∧ net.nodes.contains e.head = true

theorem distinct_touch (h : net.nodes.Distinct) (name : String) :
    (net.touch name).nodes.Distinct := by
  rw [touch]
  split
  · exact h
  · next hc => exact h.push (Bool.eq_false_iff.mpr hc) ∅

theorem kind_touch (net : Network) (name : String) : (net.touch name).kind = net.kind := by
  rw [touch]
  split <;> rfl

theorem edges_touch (net : Network) (name : String) : (net.touch name).edges = net.edges := by
  rw [touch]
  split <;> rfl

theorem WellFormed.mergeNode (h : net.WellFormed) (name : String) (attrs : Attributes) :
    (net.mergeNode name attrs).WellFormed where
  nodes := h.nodes.insert _ _
  edges := h.edges
  kinds := h.kinds
  ends e he := ⟨Table.contains_insert_of_contains (h.ends e he).1 _ _,
    Table.contains_insert_of_contains (h.ends e he).2 _ _⟩

theorem WellFormed.mergeEdge (h : net.WellFormed) {edge : Edge} (hkind : edge.kind = net.kind)
    (attrs : Attributes) : (net.mergeEdge edge attrs).WellFormed := by
  have hedges : ((net.touch edge.tail).touch edge.head).edges = net.edges := by
    rw [edges_touch, edges_touch]
  have hkept : ∀ e ∈ (net.mergeEdge edge attrs).edges.keys, e ∈ net.edges.keys ∨ e = edge := by
    intro e he
    rw [Network.mergeEdge, hedges] at he
    cases hc : net.edges.contains edge with
    | true =>
      rw [Table.keys_insert_of_contains _ hc] at he
      exact .inl he
    | false =>
      rw [Table.keys_insert_of_not_contains _ hc, List.mem_append, List.mem_singleton] at he
      exact he
  have hmerged : (net.mergeEdge edge attrs).kind = net.kind := by
    rw [Network.mergeEdge, kind_touch, kind_touch]
  refine ⟨distinct_touch (distinct_touch h.nodes _) _, ?_, fun e he => ?_, fun e he => ?_⟩
  · rw [Network.mergeEdge, hedges]
    exact h.edges.insert _ _
  · rw [hmerged]
    rcases hkept e he with he | rfl
    · exact h.kinds e he
    · exact hkind
  · rcases hkept e he with he | rfl
    · exact ⟨contains_touch (contains_touch (h.ends e he).1 _) _,
        contains_touch (contains_touch (h.ends e he).2 _) _⟩
    · exact ⟨contains_touch (contains_touch_self net _) _, contains_touch_self _ _⟩

theorem WellFormed.addGraph {kind : Kind} (h : net.WellFormed ∧ net.kind = kind) {g : Graph}
    (hkind : ∀ e ∈ g.edges.keys, e.kind = kind) (hadd : net.addGraph g = .ok net') :
    net'.WellFormed ∧ net'.kind = kind := by
  obtain ⟨mid, hnodes, hedges⟩ := addGraph_eq_ok hadd
  have hmid := keep_foldlM (P := fun net => net.WellFormed ∧ net.kind = kind)
    (fun node net net' h hadd => by
      rw [eq_mergeNode_of_addNode hadd]
      exact ⟨h.1.mergeNode node.1 node.2, h.2⟩) h hnodes
  refine foldl_foldlM (f := fun (u : Unit) _ => u)
    (R := fun _ net => net.WellFormed ∧ net.kind = kind) (fun edge hedge _ net net' h hadd => ?_)
    (a := ()) hmid hedges
  rw [eq_mergeEdge_of_addEdge hadd]
  refine ⟨h.1.mergeEdge ((hkind _ (List.mem_map_of_mem hedge)).trans h.2.symm) edge.2, ?_⟩
  rw [Network.mergeEdge, kind_touch, kind_touch, h.2]

/-- The network of a tree is well formed, and of the kind of the tree. -/
theorem wellFormed_ofTree? {t : GraphTree} {kind : Kind} (ht : t.OfKind kind)
    (h : ofTree? t = .ok net) : net.WellFormed ∧ net.kind = kind := by
  have hstart : (start t.graph).WellFormed ∧ (start t.graph).kind = kind :=
    ⟨⟨Table.distinct_empty, Table.distinct_empty, fun e he => absurd he List.not_mem_nil,
      fun e he => absurd he List.not_mem_nil⟩, ht.kind_eq⟩
  exact foldl_foldlM (f := fun (u : Unit) _ => u)
    (R := fun _ net => net.WellFormed ∧ net.kind = kind)
    (fun g hg _ net net' h hadd => WellFormed.addGraph h (ht.edges hg) hadd) (a := ()) hstart h

/-! ### The edges as they are listed -/

theorem forall₂_filterMap {α β : Type} (f : α → Option β) (l : List α) :
    List.Forall₂ (fun x y => f x = some y) (l.filter fun x => (f x).isSome) (l.filterMap f) := by
  induction l with
  | nil => exact .nil
  | cons x l ih =>
    cases hx : f x with
    | none =>
      rw [List.filter_cons_of_neg (by simp [hx]), List.filterMap_cons_none hx]
      exact ih
    | some y =>
      rw [List.filter_cons_of_pos (by simp [hx]), List.filterMap_cons_some hx]
      exact .cons hx ih

/-- An edge is listed as one that leads on from a node, with its attributes. -/
def Lists (e : Edge × Attributes) (link : String × String × Attributes) : Prop :=
  e.1.from? link.1 = some link.2.1 ∧ e.2 = link.2.2

/-- **Every edge is listed exactly once**, if it leads on from one of the nodes. -/
theorem exists_perm_linksFrom {edges : List (Edge × Attributes)} {nodes : List String}
    (h : ∀ e ∈ edges, ∃ node ∈ nodes, (e.1.from? node).isSome) :
    ∃ es, es.Perm edges ∧ List.Forall₂ Lists es (linksFrom edges nodes) := by
  induction nodes generalizing edges with
  | nil =>
    cases edges with
    | nil => exact ⟨[], .refl _, .nil⟩
    | cons e edges =>
      obtain ⟨node, hnode, -⟩ := h e List.mem_cons_self
      exact absurd hnode List.not_mem_nil
  | cons node nodes ih =>
    -- what does not lead on from the first node does so from a later one
    have hrest : ∀ e ∈ edges.filter fun e => (e.1.from? node).isNone,
        ∃ node ∈ nodes, (e.1.from? node).isSome := by
      intro e he
      obtain ⟨he, hnone⟩ := List.mem_filter.mp he
      obtain ⟨other, hother, hsome⟩ := h e he
      rcases List.mem_cons.mp hother with rfl | hother
      · rw [Option.isNone_iff_eq_none.mp hnone] at hsome
        cases hsome
      · exact ⟨other, hother, hsome⟩
    obtain ⟨es, hperm, hlists⟩ := ih hrest
    refine ⟨edges.filter (fun e => (e.1.from? node).isSome) ++ es, ?_, ?_⟩
    · refine (hperm.append_left _).trans ?_
      have hparts := List.filter_append_perm (fun e : Edge × Attributes => (e.1.from? node).isSome)
        edges
      simpa only [Option.not_isSome] using hparts
    · rw [linksFrom]
      refine List.rel_append ?_ hlists
      have hfirst := forall₂_filterMap (fun e : Edge × Attributes =>
        (e.1.from? node).map fun other => (node, other, e.2)) edges
      simp only [Option.isSome_map] at hfirst
      refine hfirst.imp fun e link hlink => ?_
      obtain ⟨other, hother, rfl⟩ := Option.map_eq_some_iff.mp hlink
      exact ⟨hother, rfl⟩

/-- A listed edge without regard to the end that it is listed from. -/
def unordered (link : String × String × Attributes) : Sym2 String × Attributes :=
  (s(link.1, link.2.1), link.2.2)

/-- The two ends of an edge without their order, and its attributes. -/
def unorderedEntry (e : Edge × Attributes) : Sym2 String × Attributes :=
  (s(e.1.tail, e.1.head), e.2)

theorem Lists.unordered_eq {e : Edge × Attributes} {link : String × String × Attributes}
    (h : Lists e link) : unorderedEntry e = unordered link := by
  obtain ⟨hfrom, hattrs⟩ := h
  rw [Edge.from?] at hfrom
  rw [unorderedEntry, unordered, hattrs]
  split at hfrom
  · next htail => rw [htail, Option.some.inj hfrom]
  · split at hfrom
    · next hhead => rw [hhead.2, Option.some.inj hfrom, Sym2.eq_swap]
    · cases hfrom

theorem unorderedEntry_eq {x y : Edge × Attributes} (h : Table.SameEntry x y) :
    unorderedEntry x = unorderedEntry y := by
  rw [unorderedEntry, unorderedEntry, h.2]
  obtain ⟨-, ⟨htail, hhead⟩ | ⟨-, htail, hhead⟩⟩ := Edge.beq_iff.mp h.1
  · rw [htail, hhead]
  · rw [htail, hhead, Sym2.eq_swap]

theorem map_unorderedEntry_eq {t t' : Table Edge Attributes} (h : t.Alike t') :
    t.entries.map unorderedEntry = t'.entries.map unorderedEntry := by
  rw [← List.forall₂_eq_eq_eq, List.forall₂_map_left_iff, List.forall₂_map_right_iff]
  exact h.imp fun _ _ => unorderedEntry_eq

/-- Every edge of a network is listed exactly once. -/
theorem WellFormed.exists_perm_links (h : net.WellFormed) :
    ∃ es, es.Perm net.edges.entries ∧ List.Forall₂ Lists es net.links := by
  -- an edge leads on from its tail at least
  refine exists_perm_linksFrom fun e he => ?_
  have htail := (h.ends e.1 (List.mem_map_of_mem he)).1
  rw [Table.contains_eq_any_keys, List.any_eq_true] at htail
  obtain ⟨node, hnode, heq⟩ := htail
  obtain rfl := eq_of_beq heq
  refine ⟨_, hnode, ?_⟩
  rw [Edge.from?, if_pos rfl, Option.isSome_some]

/-- The edges as they are listed are the edges, up to the order in which they come and the order in
which their ends are named. -/
theorem WellFormed.links_perm (h : net.WellFormed) :
    (net.links.map unordered).Perm (net.edges.entries.map unorderedEntry) := by
  obtain ⟨es, hperm, hlists⟩ := h.exists_perm_links
  have hmap : es.map unorderedEntry = net.links.map unordered := by
    rw [← List.forall₂_eq_eq_eq, List.forall₂_map_left_iff, List.forall₂_map_right_iff]
    exact hlists.imp fun _ _ => Lists.unordered_eq
  exact hmap ▸ hperm.map unorderedEntry

/-! ### Networks of trees that are alike -/

/-- Two networks of one kind, with the same attributes. The same nodes with the same attributes are
in both, in whatever order, and equal edges with the same attributes, in the same order. So the same
edges are listed, in whatever order and from whichever end. -/
structure Alike (net net' : Network) : Prop where
  kind : net.kind = net'.kind
  attrs : net.attrs = net'.attrs
  nodes : net.nodes.entries.Perm net'.nodes.entries
  edges : net.edges.Alike net'.edges
  links : (net.links.map unordered).Perm (net'.links.map unordered)

/-- What two networks have in common while they take graphs that are alike. -/
structure Matches (net net' : Network) : Prop where
  kind : net.kind = net'.kind
  attrs : net.attrs = net'.attrs
  nodes : ∀ name, net.nodes.get? name = net'.nodes.get? name
  edges : net.edges.Alike net'.edges

theorem get?_touch (net : Network) (name other : String) :
    (net.touch name).nodes.get? other =
      if name = other then some ((net.nodes.get? name).getD ∅) else net.nodes.get? other := by
  rw [touch]
  cases hc : net.nodes.contains name with
  | true =>
    obtain ⟨attrs, hattrs⟩ := Option.isSome_iff_exists.mp ((Table.isSome_get? _ _).trans hc)
    rw [if_pos rfl]
    split
    · next hname => rw [← hname, hattrs, Option.getD_some]
    · rfl
  | false =>
    have hpush : net.nodes.push name ∅ = net.nodes.insert name ∅ := by
      rw [Table.insert, hc, if_neg Bool.false_ne_true]
    rw [if_neg Bool.false_ne_true, Table.get?_eq_none_iff.mpr hc, hpush]
    split
    · next hname => rw [← hname, Table.get?_insert_self, Option.getD_none]
    · next hname => rw [Table.get?_insert_of_ne _ _ (beq_eq_false_iff_ne.mpr hname)]

theorem attrs_touch (net : Network) (name : String) : (net.touch name).attrs = net.attrs := by
  rw [touch]
  split <;> rfl

theorem Matches.mergeNode (h : net.Matches net') (name : String) (attrs : Attributes) :
    (net.mergeNode name attrs).Matches (net'.mergeNode name attrs) where
  kind := h.kind
  attrs := h.attrs
  nodes other := by
    rw [Network.mergeNode, Network.mergeNode, h.nodes name]
    by_cases hname : name = other
    · subst hname
      rw [Table.get?_insert_self, Table.get?_insert_self]
    · rw [Table.get?_insert_of_ne _ _ (beq_eq_false_iff_ne.mpr hname),
        Table.get?_insert_of_ne _ _ (beq_eq_false_iff_ne.mpr hname), h.nodes]
  edges := h.edges

/-- Which of two ends is made a node first shows in the order of the nodes only. -/
theorem Matches.ends (h : net.Matches net') {e f : Edge} (hef : (e == f) = true) :
    ((net.touch e.tail).touch e.head).Matches ((net'.touch f.tail).touch f.head) where
  kind := by simp only [kind_touch, h.kind]
  attrs := by simp only [attrs_touch, h.attrs]
  nodes name := by
    simp only [get?_touch, h.nodes]
    obtain ⟨-, ⟨htail, hhead⟩ | ⟨-, htail, hhead⟩⟩ := Edge.beq_iff.mp hef
    · rw [htail, hhead]
    · rw [htail, hhead]
      grind
  edges := by
    simp only [edges_touch]
    exact h.edges

theorem Matches.mergeEdge (h : net.Matches net') {e f : Edge} (hef : (e == f) = true)
    (attrs : Attributes) : (net.mergeEdge e attrs).Matches (net'.mergeEdge f attrs) := by
  have hends := h.ends hef
  refine ⟨hends.kind, hends.attrs, hends.nodes, ?_⟩
  rw [Network.mergeEdge, Network.mergeEdge, hends.edges.get?_eq hef]
  exact hends.edges.insert hef _

theorem Matches.addNode (h : net.Matches net') (node : String × Attributes) :
    Outcome.Alike Matches (net.addNode node) (net'.addNode node) := by
  rw [Network.addNode, Network.addNode, h.kind]
  exact (Outcome.Alike.of_eq rfl).map fun _ _ _ => h.mergeNode node.1 node.2

theorem Matches.addEdge (h : net.Matches net') {e f : Edge × Attributes}
    (hef : Table.SameEntry e f) : Outcome.Alike Matches (net.addEdge e) (net'.addEdge f) := by
  rw [Network.addEdge, Network.addEdge, h.kind, hef.2]
  exact (Outcome.Alike.of_eq rfl).map fun _ _ _ => h.mergeEdge hef.1 f.2

theorem Matches.addGraph (h : net.Matches net') {g g' : Graph} (hg : g.Alike g') :
    Outcome.Alike Matches (net.addGraph g) (net'.addGraph g') := by
  have hnodes : Outcome.Alike Matches (g.nodes.entries.foldlM Network.addNode net)
      (g'.nodes.entries.foldlM Network.addNode net') := by
    rw [hg.nodes]
    exact Outcome.foldlM_alike (R := Eq) (fun net net' x y h hxy => hxy ▸ h.addNode x)
      (List.forall₂_same.mpr fun _ _ => rfl) h
  exact hnodes.bind fun mid mid' hmid =>
    Outcome.foldlM_alike (fun net net' x y h hxy => h.addEdge hxy) hg.edges hmid

/-- **Trees that are alike have networks that are alike**, or neither has a network, for one and the
same reason. -/
theorem ofTree?_alike {t t' : GraphTree} {kind : Kind} (h : t.Alike t') (ht : t.OfKind kind)
    (ht' : t'.OfKind kind) : Outcome.Alike Alike (ofTree? t) (ofTree? t') := by
  have hstart : (start t.graph).Matches (start t'.graph) :=
    ⟨h.graph.kind, by rw [start, start, h.graph.attrs, h.graph.name], fun _ => rfl, .refl _⟩
  have hmatch : Outcome.Alike Matches (ofTree? t) (ofTree? t') :=
    Outcome.foldlM_alike (fun net net' g g' h hg => h.addGraph hg) h.visited hstart
  generalize hnet : ofTree? t = outcome, hnet' : ofTree? t' = outcome' at hmatch
  cases hmatch with
  | error he => exact .error he
  | @ok net net' hm =>
    obtain ⟨hwf, -⟩ := wellFormed_ofTree? ht hnet
    obtain ⟨hwf', -⟩ := wellFormed_ofTree? ht' hnet'
    refine .ok ⟨hm.kind, hm.attrs, hwf.nodes.entries_perm hwf'.nodes hm.nodes, hm.edges, ?_⟩
    refine hwf.links_perm.trans ?_
    rw [map_unorderedEntry_eq hm.edges]
    exact hwf'.links_perm.symm

end Network

end GraphScript
