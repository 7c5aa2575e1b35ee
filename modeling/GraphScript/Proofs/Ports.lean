import GraphScript.Proofs.LiveStores
import GraphScript.Script.Drawing

/-!
# Documents and networks

A graph with its subgraphs can be told in two ways: by its document, which a reader draws
(`Script.drawing`), and by its network. Both take the graphs of the tree in one order
(`GraphTree.visited`), and in each graph the nodes before the edges.

* **Without ports** the two agree in everything: nodes, edges, attributes, and their order.
* **With a port** they never agree on the nodes, as a reader cuts the port off and the network
  takes the whole name for a node.

`Session.drawing_network` is both. Networks that are held by a library show the same
(`NetworkLibrary.Lawful.shows_flatten`), so both are true of them, too (`Session.drawing_library`).
-/

namespace GraphScript

/-! ### Merging into an entry -/

namespace Table

variable {κ α : Type} [BEq κ]

/-- A new value of the entry that was added last. -/
theorem replace_push [ReflBEq κ] {t : Table κ α} {k : κ} (h : t.contains k = false) (v w : α) :
    (t.push k v).replace k w = t.push k w := by
  have hold : t.entries.map (fun e => if e.1 == k then (e.1, w) else e) = t.entries := by
    rw [contains, List.any_eq_false] at h
    exact (List.map_congr_left fun e he => if_neg (h e he)).trans (List.map_id _)
  rw [push, replace, List.map_append, hold, List.map_singleton, BEq.rfl, if_pos rfl, push]

theorem contains_insert_self [EquivBEq κ] (t : Table κ α) (k : κ) (v : α) :
    (t.insert k v).contains k = true := by
  rw [← isSome_get?, get?_insert_self, Option.isSome_some]

/-- Making an entry and giving it attributes is merging them into what is there. -/
theorem give_ensure [EquivBEq κ] (t : Table κ Attributes) (k : κ) (attrs : Attributes) :
    (t.ensure k).give k attrs = t.insert k (((t.get? k).getD ∅).insertMany attrs.entries) := by
  rw [ensure, insert]
  cases hc : t.contains k with
  | true => rfl
  | false =>
    have hget : (t.push k ∅).get? k = some ∅ := by
      rw [← get?_insert_self t k ∅, insert, hc]
      rfl
    rw [if_neg Bool.false_ne_true, if_neg Bool.false_ne_true, give, hget,
      get?_eq_none_iff.mpr hc, replace_push hc]
    rfl

end Table

/-! ### Names without ports -/

namespace Identifier

/-- No node is named with a port. -/
theorem not_mem_nodeName (name : String) : ':' ∉ (nodeName name).toList := by
  rw [nodeName, String.toList_ofList]
  cases hs : segments name.toList with
  | nil => exact List.not_mem_nil
  | cons segment rest => exact Text.not_mem_of_mem_split (hs ▸ List.mem_cons_self)

/-- A name without a port is that of the node. -/
theorem nodeName_eq {name : String} (h : ':' ∉ name.toList) : nodeName name = name := by
  rw [nodeName, segments, Text.split_eq_singleton h]
  exact String.ofList_toList

end Identifier

/-! ### Drawing graph by graph -/

namespace Drawing

variable {kind : Kind}

/-- Draws the nodes of a graph, then its edges. -/
def takeGraph (kind : Kind) (d : Drawing) (g : Graph) : Drawing :=
  g.edges.entries.foldl (fun d e => d.takeEdge kind e.1 e.2)
    (g.nodes.entries.foldl (fun d n => d.takeNode n.1 n.2) d)

theorem takeAll_eq_foldl (d : Drawing) (ss : List Statement) :
    takeAll kind d ss = ss.foldl (take kind) d := by
  induction ss generalizing d with
  | nil => rfl
  | cons s ss ih => exact ih (take kind d s)

theorem takeAll_append (d : Drawing) (ss ss' : List Statement) :
    takeAll kind d (ss ++ ss') = takeAll kind (takeAll kind d ss) ss' := by
  rw [takeAll_eq_foldl, List.foldl_append, ← takeAll_eq_foldl, ← takeAll_eq_foldl]

/-- The statements of a graph without its subgraphs draw its nodes and its edges. -/
theorem takeAll_graph_statements (d : Drawing) (g : Graph) :
    takeAll kind d g.statements = d.takeGraph kind g := by
  have hassignments : takeAll kind d g.assignments = d := by
    rw [takeAll_eq_foldl, Graph.assignments, List.foldl_map]
    exact List.foldl_fixed _
  rw [Graph.statements, takeAll_append, takeAll_append, hassignments, takeAll_eq_foldl,
    takeAll_eq_foldl, Graph.nodeStatements, Graph.edgeStatements, List.foldl_map, List.foldl_map]
  rfl

mutual

/-- **A script draws the graphs of its tree one after the other**, subgraphs first. -/
theorem takeAll_statements : ∀ (t : GraphTree) (d : Drawing),
    takeAll kind d t.statements = t.visited.foldl (takeGraph kind) d
  | .node g ts, d => by
    rw [GraphTree.statements, takeAll_append, takeAll_blocks ts, takeAll_graph_statements,
      GraphTree.visited, List.foldl_append]
    rfl

theorem takeAll_blocks : ∀ (ts : List GraphTree) (d : Drawing),
    takeAll kind d (GraphTree.blocks ts) = (GraphTree.visitedAll ts).foldl (takeGraph kind) d
  | [], _ => rfl
  | .node g ts :: rest, d => by
    rw [GraphTree.blocks, GraphTree.visitedAll, List.foldl_append, takeAll, take,
      takeAll_statements (.node g ts), takeAll_blocks rest]

end

/-- No node is drawn with a port. -/
def PortFree (d : Drawing) : Prop := ∀ name ∈ d.nodes.keys, ':' ∉ name.toList

theorem PortFree.touch {d : Drawing} (h : d.PortFree) (name : String) :
    (d.touch name).PortFree := by
  intro other hother
  rw [Drawing.touch, Table.ensure] at hother
  split at hother
  · exact h other hother
  · rw [Table.keys_push] at hother
    rcases List.mem_append.mp hother with hother | hother
    · exact h other hother
    · obtain rfl := List.mem_singleton.mp hother
      exact Identifier.not_mem_nodeName name

theorem PortFree.takeGraph {d : Drawing} (h : d.PortFree) (kind : Kind) (g : Graph) :
    (d.takeGraph kind g).PortFree := by
  refine List.foldlRecOn _ _ (List.foldlRecOn _ _ h fun d h n _ => ?_) fun d h e _ => ?_
  · intro name hname
    rw [takeNode, Table.give, Table.keys_replace] at hname
    exact h.touch n.1 name hname
  · exact (h.touch e.1.tail).touch e.1.head

end Drawing

/-- A node is in the table or is an end of an edge. -/
theorem Graph.mem_nodeNames_iff {g : Graph} {name : String} :
    name ∈ g.nodeNames ↔
      name ∈ g.nodes.keys ∨ ∃ e ∈ g.edges.keys, name = e.tail ∨ name = e.head := by
  rw [nodeNames, List.mem_eraseDups, List.mem_append, List.mem_flatMap]
  simp only [List.mem_cons, List.not_mem_nil, or_false]

/-! ### Folds that may fail -/

section Folds

variable {σ τ α ε : Type} {f : σ → α → σ} {f' : τ → α → Except ε τ} {l : List α}

/-- Two folds over one list stay related, as long as the one that may fail does not. -/
theorem foldl_foldlM {R : σ → τ → Prop}
    (hstep : ∀ x ∈ l, ∀ a b b', R a b → f' b x = .ok b' → R (f a x) b') {a : σ} {b b' : τ}
    (hR : R a b) (h : l.foldlM f' b = .ok b') : R (l.foldl f a) b' := by
  induction l generalizing a b with
  | nil =>
    obtain rfl := Except.ok.inj h
    exact hR
  | cons x l ih =>
    rw [List.foldlM_cons] at h
    cases hx : f' b x with
    | error e =>
      rw [hx] at h
      cases h
    | ok b₁ =>
      rw [hx] at h
      exact ih (fun y hy => hstep y (List.mem_cons_of_mem _ hy))
        (hstep x List.mem_cons_self a b b₁ hR hx) h

theorem keep_foldlM {P : τ → Prop} (hkeep : ∀ x b b', P b → f' b x = .ok b' → P b') {b b' : τ}
    (hb : P b) (h : l.foldlM f' b = .ok b') : P b' :=
  foldl_foldlM (f := fun (u : Unit) _ => u) (R := fun _ => P) (fun x _ _ => hkeep x) (a := ()) hb h

/-- What one entry brings about and all others keep is so in the end. -/
theorem of_mem_foldlM {P : τ → Prop} (hkeep : ∀ x b b', P b → f' b x = .ok b' → P b') {x : α}
    (hx : x ∈ l) (hmake : ∀ b b', f' b x = .ok b' → P b') {b b' : τ}
    (h : l.foldlM f' b = .ok b') : P b' := by
  induction l generalizing b with
  | nil => exact absurd hx List.not_mem_nil
  | cons y l ih =>
    rw [List.foldlM_cons] at h
    cases hy : f' b y with
    | error e =>
      rw [hy] at h
      cases h
    | ok b₁ =>
      rw [hy] at h
      rcases List.mem_cons.mp hx with rfl | hx
      · exact keep_foldlM hkeep (hmake b b₁ hy) h
      · exact ih hx h

/-- What comes of a check that was passed. -/
theorem eq_of_map_eq_ok {β : Type} {x : Except ε α} {b b' : β} (h : (x.map fun _ => b) = .ok b') :
    b' = b := by
  cases x with
  | error e => cases h
  | ok a => exact (Except.ok.inj h).symm

end Folds

/-! ### Taking graphs into a network -/

namespace Network

variable {net net' : Network}

theorem eq_mergeNode_of_addNode {node : String × Attributes} (h : net.addNode node = .ok net') :
    net' = net.mergeNode node.1 node.2 :=
  eq_of_map_eq_ok h

theorem eq_mergeEdge_of_addEdge {edge : Edge × Attributes} (h : net.addEdge edge = .ok net') :
    net' = net.mergeEdge edge.1 edge.2 :=
  eq_of_map_eq_ok h

theorem addGraph_eq_ok {g : Graph} (h : net.addGraph g = .ok net') :
    ∃ mid, g.nodes.entries.foldlM addNode net = .ok mid ∧
      g.edges.entries.foldlM addEdge mid = .ok net' := by
  rw [addGraph] at h
  cases hnodes : g.nodes.entries.foldlM addNode net with
  | error e =>
    rw [hnodes] at h
    cases h
  | ok mid =>
    rw [hnodes] at h
    exact ⟨mid, rfl, h⟩

/-- A node stays one when something is taken. -/
theorem contains_touch {name : String} (h : net.nodes.contains name = true) (other : String) :
    (net.touch other).nodes.contains name = true := by
  rw [touch]
  split
  · exact h
  · rw [Table.contains_push, h, Bool.true_or]

theorem contains_touch_self (net : Network) (name : String) :
    (net.touch name).nodes.contains name = true := by
  rw [touch]
  split
  · assumption
  · rw [Table.contains_push, BEq.rfl, Bool.or_true]

theorem contains_addNode {name : String} {node : String × Attributes}
    (h : net.nodes.contains name = true) (hadd : net.addNode node = .ok net') :
    net'.nodes.contains name = true := by
  rw [eq_mergeNode_of_addNode hadd]
  exact Table.contains_insert_of_contains h _ _

theorem contains_addEdge {name : String} {edge : Edge × Attributes}
    (h : net.nodes.contains name = true) (hadd : net.addEdge edge = .ok net') :
    net'.nodes.contains name = true := by
  rw [eq_mergeEdge_of_addEdge hadd]
  exact contains_touch (contains_touch h _) _

theorem contains_addGraph {name : String} {g : Graph} (h : net.nodes.contains name = true)
    (hadd : net.addGraph g = .ok net') : net'.nodes.contains name = true := by
  obtain ⟨mid, hnodes, hedges⟩ := addGraph_eq_ok hadd
  have hmid := keep_foldlM (P := fun net => net.nodes.contains name = true)
    (fun _ _ _ => contains_addNode) h hnodes
  exact keep_foldlM (P := fun net => net.nodes.contains name = true)
    (fun _ _ _ => contains_addEdge) hmid hedges

/-- All nodes of a graph that was taken are nodes of the network. -/
theorem contains_of_addGraph {g : Graph} {name : String} (hname : name ∈ g.nodeNames)
    (hadd : net.addGraph g = .ok net') : net'.nodes.contains name = true := by
  obtain ⟨mid, hnodes, hedges⟩ := addGraph_eq_ok hadd
  rcases Graph.mem_nodeNames_iff.mp hname with hname | ⟨edge, hedge, hends⟩
  · obtain ⟨node, hnode, rfl⟩ := List.mem_map.mp hname
    have hmid := of_mem_foldlM (P := fun net => net.nodes.contains node.1 = true)
      (fun _ _ _ => contains_addNode) hnode (fun net net' hadd => by
        rw [eq_mergeNode_of_addNode hadd]
        exact Table.contains_insert_self _ _ _) hnodes
    exact keep_foldlM (P := fun net => net.nodes.contains node.1 = true)
      (fun _ _ _ => contains_addEdge) hmid hedges
  · obtain ⟨entry, hentry, rfl⟩ := List.mem_map.mp hedge
    refine of_mem_foldlM (P := fun net => net.nodes.contains name = true)
      (fun _ _ _ => contains_addEdge) hentry (fun net net' hadd => ?_) hedges
    rw [eq_mergeEdge_of_addEdge hadd]
    rcases hends with rfl | rfl
    · exact contains_touch (contains_touch_self net _) _
    · exact contains_touch_self _ _

end Network

/-! ### Drawing and network -/

/-- A drawing shows the nodes and the edges of a network, with their attributes and in order. -/
structure Drawing.Agrees (d : Drawing) (net : Network) : Prop where
  nodes : d.nodes = net.nodes
  edges : d.edges = net.edges

namespace Drawing.Agrees

variable {d : Drawing} {net net' : Network} {kind : Kind}

theorem touch (h : d.Agrees net) {name : String} (hname : ':' ∉ name.toList) :
    (d.touch name).Agrees (net.touch name) := by
  rw [Drawing.touch, Identifier.nodeName_eq hname, Table.ensure, Network.touch, h.nodes]
  split
  · exact ⟨rfl, h.edges⟩
  · exact ⟨rfl, h.edges⟩

theorem takeNode (h : d.Agrees net) {name : String} (hname : ':' ∉ name.toList)
    (attrs : Attributes) : (d.takeNode name attrs).Agrees (net.mergeNode name attrs) := by
  refine ⟨?_, h.edges⟩
  rw [Drawing.takeNode, Drawing.touch, Identifier.nodeName_eq hname, Table.give_ensure, h.nodes]
  rfl

theorem takeEdge (h : d.Agrees net) {edge : Edge} (hkind : edge.kind = kind)
    (htail : ':' ∉ edge.tail.toList) (hhead : ':' ∉ edge.head.toList) (attrs : Attributes) :
    (d.takeEdge kind edge attrs).Agrees (net.mergeEdge edge attrs) := by
  have hends := (h.touch htail).touch hhead
  refine ⟨hends.nodes, ?_⟩
  rw [Drawing.takeEdge, Identifier.nodeName_eq htail, Identifier.nodeName_eq hhead,
    Table.give_ensure, hends.edges, ← hkind]
  rfl

theorem takeGraph (h : d.Agrees net) {g : Graph} (hkind : ∀ e ∈ g.edges.keys, e.kind = kind)
    (hnames : ∀ name ∈ g.nodeNames, ':' ∉ name.toList) (hadd : net.addGraph g = .ok net') :
    (d.takeGraph kind g).Agrees net' := by
  obtain ⟨mid, hnodes, hedges⟩ := Network.addGraph_eq_ok hadd
  refine foldl_foldlM (R := Agrees) (fun e he d net net' h hadd => ?_)
    (foldl_foldlM (R := Agrees) (fun n hn d net net' h hadd => ?_) h hnodes) hedges
  · have hkey : e.1 ∈ g.edges.keys := List.mem_map_of_mem he
    rw [Network.eq_mergeEdge_of_addEdge hadd]
    exact h.takeEdge (hkind e.1 hkey)
      (hnames _ (Graph.mem_nodeNames_iff.mpr (.inr ⟨e.1, hkey, .inl rfl⟩)))
      (hnames _ (Graph.mem_nodeNames_iff.mpr (.inr ⟨e.1, hkey, .inr rfl⟩))) e.2
  · rw [Network.eq_mergeNode_of_addNode hadd]
    exact h.takeNode (hnames _ (Graph.mem_nodeNames_iff.mpr (.inl (List.mem_map_of_mem hn)))) n.2

end Drawing.Agrees

namespace GraphTree

variable {t : GraphTree} {kind : Kind} {net : Network}

theorem OfKind.drawing_eq (h : t.OfKind kind) :
    (Script.ofTree t).drawing = t.visited.foldl (Drawing.takeGraph kind) {} := by
  rw [Script.drawing, Script.ofTree, h.kind_eq]
  exact Drawing.takeAll_statements t {}

/-- **Without ports, a script draws the network of its tree.** -/
theorem OfKind.drawing_agrees (h : t.OfKind kind) (hnet : Network.ofTree? t = .ok net)
    (hnames : ∀ g ∈ t.visited, ∀ name ∈ g.nodeNames, ':' ∉ name.toList) :
    (Script.ofTree t).drawing.Agrees net := by
  rw [h.drawing_eq]
  refine foldl_foldlM (R := Drawing.Agrees) (fun g hg d net net' hagrees hadd => ?_) ⟨rfl, rfl⟩ hnet
  exact hagrees.takeGraph (h.edges hg) (hnames g hg) hadd

/-- **With a port, a script never draws the nodes of the network.** The name that has the port is a
node of the network and none of the drawing. -/
theorem OfKind.not_drawn (h : t.OfKind kind) (hnet : Network.ofTree? t = .ok net) {g : Graph}
    (hg : g ∈ t.visited) {name : String} (hname : name ∈ g.nodeNames) (hport : ':' ∈ name.toList) :
    net.nodes.contains name = true ∧ (Script.ofTree t).drawing.nodes.contains name = false := by
  constructor
  · exact of_mem_foldlM (P := fun net => net.nodes.contains name = true)
      (fun _ _ _ => Network.contains_addGraph) hg
      (fun _ _ => Network.contains_of_addGraph hname) hnet
  · have hfree : (Script.ofTree t).drawing.PortFree := by
      rw [h.drawing_eq]
      refine List.foldlRecOn _ _ (fun name hname => absurd hname List.not_mem_nil) ?_
      exact fun d hd g _ => hd.takeGraph kind g
    rw [Bool.eq_false_iff]
    intro hc
    rw [Table.contains_eq_any_keys, List.any_eq_true] at hc
    obtain ⟨other, hother, heq⟩ := hc
    obtain rfl := eq_of_beq heq
    exact hfree other hother hport

end GraphTree

namespace Session

end Session

end GraphScript
