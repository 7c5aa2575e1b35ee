import GraphScript.Proofs.Refusals
import Mathlib.Data.List.Find

/-!
# Networks in libraries

A library knows an edge by the neighbours of its ends, and a network here by an entry in a table of
edges. This module says that the two come to the same.

* `Table.leading` reads the neighbours of a node off the table, and `Table.leading_insert` says what
  becomes of them when an edge is written.
* `NetworkLibrary.listing_leading`: listing the edges from the neighbours is listing them from the
  table.
* `NetworkLibrary.Lawful.shows_flatten`: so every library that answers as it should shows the same
  network of a tree.
* `Session.drawing_library`: so a document agrees with the network in any such library where it
  agrees with the network here.
-/

namespace GraphScript

namespace Edge

/-- An edge leads on from one node to another exactly if it equals the edge between the two. -/
theorem from?_eq_some_iff {e : Edge} {node other : String} :
    e.from? node = some other ↔ (e == ⟨e.kind, node, other⟩) = true := by
  rw [from?, beq_iff]
  constructor
  · intro h
    split at h
    · next htail => exact ⟨rfl, .inl ⟨htail, Option.some.inj h⟩⟩
    · split at h
      · next hhead => exact ⟨rfl, .inr ⟨hhead.1, Option.some.inj h, hhead.2⟩⟩
      · cases h
  · rintro ⟨-, ⟨htail, hhead⟩ | ⟨hkind, htail, hhead⟩⟩
    · rw [if_pos htail, hhead]
    · split
      · next hloop => rw [hhead, ← hloop, htail]
      · rw [if_pos ⟨hkind, hhead⟩, htail]

/-- Equal edges lead on to the same nodes. -/
theorem from?_congr {e f : Edge} (h : (e == f) = true) (node : String) :
    e.from? node = f.from? node := by
  refine Option.ext fun other => ?_
  rw [from?_eq_some_iff, from?_eq_some_iff, (beq_iff.mp h).1, BEq.congr_left h]

/-- Edges of one kind that lead on from a node to the same node are equal. -/
theorem beq_of_from? {e f : Edge} (hkind : e.kind = f.kind) {node other : String}
    (he : e.from? node = some other) (hf : f.from? node = some other) : (e == f) = true := by
  rw [from?_eq_some_iff] at he hf
  rw [hkind] at he
  exact BEq.trans he (BEq.symm hf)

theorem from?_tail (e : Edge) : e.from? e.tail = some e.head := if_pos rfl

/-- An edge without directions leads back to where it leads on from. -/
theorem from?_symm {e : Edge} (hkind : e.kind = .undirected) {node other : String}
    (h : e.from? node = some other) : e.from? other = some node := by
  rw [from?_eq_some_iff] at h ⊢
  exact BEq.trans h (beq_iff.mpr ⟨rfl, .inr ⟨hkind, rfl, rfl⟩⟩)

theorem from?_head {e : Edge} (h : e.kind = .undirected) : e.from? e.head = some e.tail :=
  from?_symm h (from?_tail e)

/-- An edge does not lead on from a node that is none of its ends. -/
theorem from?_eq_none {e : Edge} {node : String} (htail : node ≠ e.tail)
    (hhead : e.kind = .undirected → node ≠ e.head) : e.from? node = none := by
  rw [from?, if_neg htail.symm, if_neg fun h => hhead h.1 h.2.symm]

/-- An edge leads on from two nodes at most, and from the second one back to the first. -/
theorem isSome_from?_iff {e : Edge} {node other past : String} (h : e.from? node = some other)
    (hne : past ≠ node) : (e.from? past).isSome ↔ e.kind = .undirected ∧ past = other := by
  rw [from?_eq_some_iff] at h
  rw [Option.isSome_iff_exists]
  constructor
  · rintro ⟨found, hfound⟩
    rw [from?_eq_some_iff] at hfound
    obtain ⟨-, ⟨hpast, -⟩ | ⟨hkind, -, hpast⟩⟩ := beq_iff.mp (BEq.trans (BEq.symm h) hfound)
    · exact absurd hpast.symm hne
    · exact ⟨hkind, hpast.symm⟩
  · rintro ⟨hkind, rfl⟩
    exact ⟨node, from?_symm hkind (from?_eq_some_iff.mpr h)⟩

/-- Which edges from a node do not lead on from any of the nodes before it. -/
theorem all_isNone_from? {e : Edge} {node other : String} (h : e.from? node = some other)
    {past : List String} (hpast : node ∉ past) :
    (past.all fun p => (e.from? p).isNone) = (e.kind == .directed || !past.contains other) := by
  have hiff : ∀ p ∈ past, (e.from? p).isSome ↔ e.kind = .undirected ∧ p = other := fun p hp =>
    isSome_from?_iff h fun heq => hpast (heq ▸ hp)
  cases hkind : e.kind with
  | directed =>
    refine List.all_eq_true.mpr fun p hp => ?_
    rw [← Option.not_isSome, Bool.not_eq_true', Bool.eq_false_iff, ne_eq, hiff p hp, hkind]
    exact fun hboth => absurd hboth.1 (by decide)
  | undirected =>
    rw [Bool.eq_iff_iff, List.all_eq_true]
    simp only [← Option.not_isSome, Bool.not_eq_true', Bool.eq_false_iff, ne_eq]
    constructor
    · intro hnone
      have hother : other ∉ past := fun hmem => hnone other hmem
        ((hiff other hmem).mpr ⟨hkind, rfl⟩)
      simpa using hother
    · intro hother p hp hsome
      rw [((hiff p hp).mp hsome).2] at hp
      simp [hp] at hother

end Edge

namespace Table

/-! ### Neighbours -/

/-- Of two values that are written under one key, the second one stays. -/
theorem insert_insert_self {κ α : Type} [BEq κ] [EquivBEq κ] (t : Table κ α) (k : κ) (v w : α) :
    (t.insert k v).insert k w = t.insert k w := by
  rw [insert_of_contains (contains_insert_self t k v)]
  cases hc : t.contains k with
  | true =>
    rw [insert_of_contains hc, insert_of_contains hc, replace, replace, replace, List.map_map]
    refine congrArg Table.mk (List.map_congr_left fun e _ => ?_)
    rw [Function.comp_apply]
    by_cases h : (e.1 == k) = true <;> simp [h]
  | false => rw [insert_of_not_contains hc, insert_of_not_contains hc, replace_push hc]

/-- The nodes that the edges of a table lead to from a node, with the attributes of the edges. -/
def leading (edges : Table Edge Attributes) (node : String) : Table String Attributes :=
  ⟨edges.entries.filterMap fun e => (e.1.from? node).map (·, e.2)⟩

variable {edges : Table Edge Attributes} {edge : Edge} {kind : Kind} {attrs : Attributes}

/-- The attributes of the edge to a neighbour. -/
theorem get?_leading (hkinds : ∀ e ∈ edges.keys, e.kind = kind) (node other : String) :
    (edges.leading node).get? other = edges.get? ⟨kind, node, other⟩ := by
  have hiff : ∀ e ∈ edges.entries,
      (e.1 == ⟨kind, node, other⟩) = true ↔ e.1.from? node = some other := by
    intro e he
    rw [Edge.from?_eq_some_iff, hkinds e.1 (List.mem_map_of_mem he)]
  have hfind : edges.entries.find? (fun e => ((e.1.from? node).map (·, e.2)).any (·.1 == other)) =
      edges.find? ⟨kind, node, other⟩ := by
    refine List.find?_congr fun e he => ?_
    rw [Bool.eq_iff_iff, hiff e he]
    cases e.1.from? node <;> simp
  rw [get?, find?, leading, List.find?_filterMap, hfind, get?]
  cases hfound : edges.find? ⟨kind, node, other⟩ with
  | none => rfl
  | some e =>
    have heq := List.find?_some (hfound : edges.entries.find? _ = some e)
    have hfrom := (hiff e (List.mem_of_find?_eq_some hfound)).mp heq
    rw [Option.bind_some, hfrom]
    rfl

theorem contains_leading (hkinds : ∀ e ∈ edges.keys, e.kind = edge.kind) {node other : String}
    (h : edge.from? node = some other) :
    (edges.leading node).contains other = edges.contains edge := by
  rw [← isSome_get?, get?_leading hkinds, isSome_get?]
  exact contains_congr _ (BEq.symm (Edge.from?_eq_some_iff.mp h))

/-- An edge that is written leads to the same nodes as before or to one more. -/
theorem leading_insert (hkinds : ∀ e ∈ edges.keys, e.kind = edge.kind) (attrs : Attributes)
    (node : String) : (edges.insert edge attrs).leading node =
      (edge.from? node).elim (edges.leading node) fun other =>
        (edges.leading node).insert other attrs := by
  cases hc : edges.contains edge with
  | false =>
    have hpush : (edges.insert edge attrs).leading node = ⟨(edges.leading node).entries ++
        ((edge.from? node).map fun other => (other, attrs)).toList⟩ := by
      rw [insert_of_not_contains hc, leading, push, List.filterMap_append]
      cases hfrom : edge.from? node <;> simp [hfrom, leading]
    rw [hpush]
    cases hfrom : edge.from? node with
    | none => simp
    | some other =>
      have hother := (contains_leading hkinds hfrom).trans hc
      rw [Option.elim_some, insert_of_not_contains hother]
      rfl
  | true =>
    rw [insert_of_contains hc, leading, replace, List.filterMap_map]
    cases hfrom : edge.from? node with
    | none =>
      refine congrArg Table.mk (List.filterMap_congr fun e _ => ?_)
      rw [Function.comp_apply]
      split
      · next heq => rw [Edge.from?_congr heq, hfrom]; rfl
      · rfl
    | some other =>
      have hother := (contains_leading hkinds hfrom).trans hc
      rw [Option.elim_some, insert_of_contains hother, replace, leading, List.map_filterMap]
      refine congrArg Table.mk (List.filterMap_congr fun e he => ?_)
      rw [Function.comp_apply]
      split
      · next heq => rw [Edge.from?_congr heq, hfrom]; simp
      · next hne =>
        cases hfound : e.1.from? node with
        | none => rfl
        | some found =>
          -- another edge leads to another node
          have hapart : found ≠ other := fun heq => hne
            (Edge.beq_of_from? (hkinds e.1 (List.mem_map_of_mem he)) (heq ▸ hfound) hfrom)
          simp [hapart]

end Table

/-! ### Entries that fit -/

/-- An entry can be taken by a network of a kind. -/
def NetworkEntry.Fits (kind : Kind) : NetworkEntry → Prop
  | node _ _ => True
  | edge e _ => e.kind = kind

theorem GraphTree.OfKind.fits {t : GraphTree} {kind : Kind} (ht : t.OfKind kind) :
    ∀ x ∈ t.networkEntries, x.Fits kind := by
  intro x hx
  obtain ⟨graph, hgraph, hx⟩ := List.mem_flatMap.mp hx
  rcases List.mem_append.mp hx with hx | hx
  · obtain ⟨node, -, rfl⟩ := List.mem_map.mp hx
    exact trivial
  · obtain ⟨edge, hedge, rfl⟩ := List.mem_map.mp hx
    exact ht.edges hgraph edge.1 (List.mem_map_of_mem hedge)

namespace Network

variable {net : Network}

theorem wellFormed_start {g : Graph} : (start g).WellFormed :=
  ⟨Table.distinct_empty, Table.distinct_empty, fun _ he => absurd he List.not_mem_nil,
    fun _ he => absurd he List.not_mem_nil⟩

theorem WellFormed.take (h : net.WellFormed) {x : NetworkEntry} (hx : x.Fits net.kind) :
    (net.take x).WellFormed := by
  cases x with
  | node name attrs => exact h.mergeNode name attrs
  | edge edge attrs => exact h.mergeEdge hx attrs

end Network

namespace NetworkLibrary

variable {N : Type} {lib : NetworkLibrary N} {n : N} {net : Network}

/-! ### Listing the edges -/

/-- **Listing edges from neighbours is listing them from a table.** The edges that are left in the
table are those that do not lead on from a node whose turn is over. -/
theorem listing_leading {edges : Table Edge Attributes} {kind : Kind}
    (hkinds : ∀ e ∈ edges.keys, e.kind = kind) {past nodes : List String}
    (hnodup : (past ++ nodes).Nodup) :
    listing kind edges.leading past nodes = Network.linksFrom
      (edges.entries.filter fun e => past.all fun p => (e.1.from? p).isNone) nodes := by
  induction nodes generalizing past with
  | nil => rfl
  | cons node rest ih =>
    have hnext : (node :: past ++ rest).Nodup := List.perm_middle.nodup_iff.mp hnodup
    have hpast : node ∉ past := fun hp =>
      (List.nodup_cons.mp hnext).1 (List.mem_append_left _ hp)
    rw [listing, Network.linksFrom, ih hnext]
    refine congrArg₂ _ ?_ ?_
    · rw [Table.leading, List.filter_filterMap, List.map_filterMap, List.filterMap_filter]
      refine List.filterMap_congr fun e he => ?_
      cases hfrom : e.1.from? node with
      | none => simp
      | some other =>
        rw [Edge.all_isNone_from? hfrom hpast, hkinds e.1 (List.mem_map_of_mem he)]
        rw [Option.map_some, Option.filter_some, Option.map_some]
        split <;> rfl
    · rw [List.filter_filter]
      exact congrArg (Network.linksFrom · rest) (List.filter_congr fun e _ => by rw [List.all_cons])

/-! ### Taking entries -/

/-- What is written at both ends of an edge without directions, or at the tail of one with a
direction, is the edge in the table. -/
theorem joined_leading {edges : Table Edge Attributes} {edge : Edge}
    (hkinds : ∀ e ∈ edges.keys, e.kind = edge.kind) (attrs : Attributes) (node : String) :
    joined edge.kind edges.leading edge.tail edge.head attrs node =
      (edges.insert edge attrs).leading node := by
  rw [Table.leading_insert hkinds]
  cases hkind : edge.kind with
  | directed =>
    simp only [joined, linked]
    by_cases htail : node = edge.tail
    · rw [if_pos htail, htail, Edge.from?_tail, Option.elim_some]
    · have hhead : edge.kind = .undirected → node ≠ edge.head := fun h => by
        rw [hkind] at h
        cases h
      rw [if_neg htail, Edge.from?_eq_none htail hhead, Option.elim_none]
  | undirected =>
    simp only [joined, linked]
    by_cases hhead : node = edge.head
    · rw [if_pos hhead, hhead, Edge.from?_head hkind, Option.elim_some]
      by_cases hloop : edge.head = edge.tail
      · rw [if_pos hloop, hloop, Table.insert_insert_self]
      · rw [if_neg hloop]
    · rw [if_neg hhead]
      by_cases htail : node = edge.tail
      · rw [if_pos htail, htail, Edge.from?_tail, Option.elim_some]
      · rw [if_neg htail, Edge.from?_eq_none htail fun _ => hhead, Option.elim_none]

/-- The network that a library holds, entry by entry. -/
structure Shows (lib : NetworkLibrary N) (n : N) (net : Network) : Prop where
  kind : lib.kind n = net.kind
  attrs : lib.attrs n = net.attrs
  nodes : lib.nodes n = net.nodes
  neighbours : lib.neighbours n = net.edges.leading

theorem nodes_touch (net : Network) (name : String) :
    (net.touch name).nodes = net.nodes.ensure name := by
  rw [Network.touch, Table.ensure]
  split <;> rfl

/-- What a library is told shows like what a network takes. -/
theorem Lawful.shows_take (h : lib.Lawful) (hn : lib.Shows n net) (hwf : net.WellFormed)
    {x : NetworkEntry} (hx : x.Fits net.kind) : lib.Shows (lib.take n x) (net.take x) := by
  cases x with
  | node name attrs =>
    refine ⟨(h.kind_addNode n name attrs).trans hn.kind, (h.attrs_addNode n name attrs).trans
      hn.attrs, ?_, funext fun other => ?_⟩
    · rw [take, h.nodes_addNode, hn.nodes]
      rfl
    · rw [take, h.neighbours_addNode, hn.neighbours]
      rfl
  | edge edge attrs =>
    have hkinds : ∀ e ∈ net.edges.keys, e.kind = edge.kind := fun e he =>
      (hwf.kinds e he).trans hx.symm
    have hedges : ((net.touch edge.tail).touch edge.head).edges = net.edges := by
      rw [Network.edges_touch, Network.edges_touch]
    refine ⟨?_, ?_, ?_, funext fun node => ?_⟩
    · rw [h.kind_take, Network.kind_take, hn.kind]
    · rw [take, h.attrs_addEdge, hn.attrs, Network.take, Network.mergeEdge, Network.attrs_touch,
        Network.attrs_touch]
    · rw [take, h.nodes_addEdge, hn.nodes, Network.take, Network.mergeEdge, nodes_touch,
        nodes_touch]
    · rw [take, h.neighbours_addEdge, hn.kind, ← hx, hn.neighbours, Table.get?_leading hkinds,
        Network.take, Network.mergeEdge, hedges]
      exact joined_leading hkinds _ node

theorem Lawful.shows_foldl (h : lib.Lawful) (hn : lib.Shows n net) (hwf : net.WellFormed)
    {xs : List NetworkEntry} (hxs : ∀ x ∈ xs, x.Fits net.kind) :
    lib.Shows (xs.foldl lib.take n) (xs.foldl Network.take net) := by
  induction xs generalizing n net with
  | nil => exact hn
  | cons x xs ih =>
    have hx := hxs x List.mem_cons_self
    refine ih (h.shows_take hn hwf hx) (hwf.take hx) fun y hy => ?_
    rw [Network.kind_take]
    exact hxs y (List.mem_cons_of_mem x hy)

/-- The edges are listed as those of the network. -/
theorem Shows.edges_eq (hn : lib.Shows n net) (h : lib.Lawful) (hwf : net.WellFormed) :
    lib.edges n = net.links := by
  rw [h.edges_eq, hn.kind, hn.nodes, hn.neighbours, Network.links]
  have hnodup : ([] ++ net.nodes.keys).Nodup := hwf.nodes.nodup_keys
  rw [listing_leading hwf.kinds hnodup]
  simp only [List.all_nil, List.filter_true]

/-- **Every library that answers as it should shows the network of a tree.** -/
theorem Lawful.shows_flatten (h : lib.Lawful) {t : GraphTree} {kind : Kind} (ht : t.OfKind kind)
    (hnet : Network.ofTree? t = .ok net) :
    ∃ n, lib.flatten t = .ok n ∧ lib.Shows n net ∧ lib.edges n = net.links := by
  have hwf := (Network.wellFormed_ofTree? ht hnet).1
  obtain ⟨hfirst, rfl⟩ := Network.ofTree?_eq_ok_iff.mp hnet
  have hshows : lib.Shows (lib.make t.graph.kind (t.graph.attrs.insert "name" t.graph.name))
      (Network.start t.graph) :=
    ⟨h.kind_make _ _, h.attrs_make _ _, h.nodes_make _ _, funext (h.neighbours_make _ _)⟩
  have hn := h.shows_foldl hshows Network.wellFormed_start (ht.kind_eq ▸ ht.fits)
  refine ⟨_, ?_, hn, hn.edges_eq h hwf⟩
  rw [h.flatten_eq, hfirst, Option.elim_none]

/-- A library holds a network of a tree only where there is one here, and shows that one. -/
theorem Lawful.exists_shows (h : lib.Lawful) {t : GraphTree} {kind : Kind} (ht : t.OfKind kind)
    (hn : lib.flatten t = .ok n) :
    ∃ net, Network.ofTree? t = .ok net ∧ lib.Shows n net ∧ lib.edges n = net.links := by
  cases hnet : Network.ofTree? t with
  | error e =>
    -- both refuse the same entry
    rw [Network.ofTree?_eq, elim_eq_error_iff] at hnet
    rw [h.flatten_eq, hnet, Option.elim_some] at hn
    cases hn
  | ok net =>
    obtain ⟨n', hflat, hshows, hedges⟩ := h.shows_flatten ht hnet
    obtain rfl := Except.ok.inj (hn.symm.trans hflat)
    exact ⟨net, rfl, hshows, hedges⟩

end NetworkLibrary

/-! ### Documents and libraries -/

/-- **A document and the network in a library tell the same about a graph exactly if no node is
named with a port.** This is so for every library that answers as it should and holds a network of a
graph that commands lead to. The script that the document is

* draws the nodes of the network, and the edges as neighbours and as they are listed, if there is no
  colon in the name of a node or of an end of an edge anywhere in the tree;
* does not draw any node of the network that has a colon in its name, and every name with a colon in
  the tree is that of one. -/
theorem Session.drawing_library (cs : List Command) {g : Nat} {t : GraphTree}
    (ht : (run {} cs).2.tree? g = some t) {N : Type} {lib : NetworkLibrary N} (hlib : lib.Lawful)
    {n : N} (hn : lib.flatten t = .ok n) :
    ((run {} cs).2.step (.ask g (.script .document))).1 = .ok (.text (Script.ofTree t).text) ∧
      ((∀ graph ∈ t.visited, ∀ name ∈ graph.nodeNames, ':' ∉ name.toList) →
        (Script.ofTree t).drawing.nodes = lib.nodes n ∧
          (Script.ofTree t).drawing.edges.leading = lib.neighbours n ∧
          Network.linksFrom (Script.ofTree t).drawing.edges.entries
            (Script.ofTree t).drawing.nodes.keys = lib.edges n) ∧
      ∀ graph ∈ t.visited, ∀ name ∈ graph.nodeNames, ':' ∈ name.toList →
        (lib.nodes n).contains name = true ∧
          (Script.ofTree t).drawing.nodes.contains name = false := by
  obtain ⟨kind, hkind⟩ := ofKind_run cs ht
  obtain ⟨net, hnet, hshows, hedges⟩ := hlib.exists_shows hkind hn
  refine ⟨step_ask ht _, fun hnames => ?_, fun graph hgraph name hname hport => ?_⟩
  · have hagrees := hkind.drawing_agrees hnet hnames
    rw [hagrees.nodes, hagrees.edges, hshows.nodes, hshows.neighbours, hedges]
    exact ⟨rfl, rfl, rfl⟩
  · rw [hshows.nodes]
    exact hkind.not_drawn hnet hgraph hname hport

end GraphScript
