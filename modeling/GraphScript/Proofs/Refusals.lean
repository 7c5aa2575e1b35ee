import GraphScript.Network.Library
import GraphScript.Proofs.Failures
import GraphScript.Proofs.Networks
import GraphScript.Proofs.Rebuilding

/-!
# When a graph has no network

A network takes the nodes and the edges of a graph tree one after the other (`NetworkEntry`), and
refuses one that has an attribute under the name of an argument. So the way in which a network is
made comes down to two plain questions about the row of entries (`GraphTree.networkEntries`):

* which entry is the first to be refused (`NetworkEntry.refusal?`), and
* what do the entries lead to, one after the other, if none is (`Network.take`).

`Network.ofTree?_eq` and `NetworkLibrary.flatten_eq` answer them for networks here and in a library.
`Session.networkRefusals_run` says when a graph has no network and which error tells so. Nothing
else minds such a graph: it can be built by the usual commands, and it has a document.
-/

namespace GraphScript

/-! ### Entries -/

/-- A node or an edge that a network takes, with its attributes. -/
inductive NetworkEntry where
  | node (name : String) (attrs : Attributes)
  | edge (edge : Edge) (attrs : Attributes)

namespace NetworkEntry

/-- What an entry is. -/
def part : NetworkEntry → NetworkPart
  | node _ _ => .node
  | edge _ _ => .edge

/-- The attributes of an entry. -/
def attrs : NetworkEntry → Attributes
  | node _ attrs => attrs
  | edge _ attrs => attrs

/-- The first reserved name among the attributes of an entry. -/
structure FirstReserved (x : NetworkEntry) (key : String) : Prop where
  reserved : key ∈ x.part.reserved
  first : ∃ before after, x.attrs.keys = before ++ key :: after ∧
    ∀ k ∈ before, k ∉ x.part.reserved

/-- Why a network of some kind refuses an entry, if it does. -/
def refusal? (kind : Kind) (x : NetworkEntry) : Option Error :=
  (x.attrs.keys.find? x.part.reserved.contains).map (.reserved kind x.part)

/-- The outcome of an entry that leads to a state unless it is refused. -/
def accept {σ : Type} (kind : Kind) (x : NetworkEntry) (s : σ) : Except Error σ :=
  (x.refusal? kind).elim (.ok s) .error

theorem refusal?_eq_none_iff {kind : Kind} {x : NetworkEntry} :
    x.refusal? kind = none ↔ ∀ key ∈ x.attrs.keys, key ∉ x.part.reserved := by
  rw [refusal?, Option.map_eq_none_iff, List.find?_eq_none]
  simp only [List.contains_iff_mem]

theorem refusal?_eq_some_iff {kind : Kind} {x : NetworkEntry} {e : Error} :
    x.refusal? kind = some e ↔ ∃ key, x.FirstReserved key ∧ e = .reserved kind x.part key := by
  rw [refusal?, Option.map_eq_some_iff]
  refine exists_congr fun key => and_congr ?_ eq_comm
  simp only [List.find?_eq_some_iff_append, Bool.not_eq_true', List.contains_eq_mem,
    decide_eq_true_eq, decide_eq_false_iff_not]
  exact ⟨fun h => ⟨h.1, h.2⟩, fun h => ⟨h.1, h.2⟩⟩

/-- Checking the attributes of an entry is asking whether it is refused. -/
theorem map_check {σ : Type} (kind : Kind) (x : NetworkEntry) (s : σ) :
    ((Network.check kind x.part x.attrs).map fun _ => s) = x.accept kind s := by
  rw [Network.check, accept, refusal?]
  cases x.attrs.keys.find? x.part.reserved.contains <;> rfl

end NetworkEntry

/-- The nodes of a graph, then its edges. -/
def Graph.networkEntries (g : Graph) : List NetworkEntry :=
  g.nodes.entries.map (fun n => .node n.1 n.2) ++ g.edges.entries.map fun e => .edge e.1 e.2

/-- All that a network takes of a tree, in the order in which it does. -/
def GraphTree.networkEntries (t : GraphTree) : List NetworkEntry :=
  t.visited.flatMap Graph.networkEntries

/-- Somewhere in a tree there is a node with an attribute under one of the names that a call for a
node needs, or an edge with an attribute under one of those that a call for an edge needs. -/
def GraphTree.HoldsReserved (t : GraphTree) : Prop :=
  ∃ graph ∈ t.visited,
    (∃ attrs ∈ graph.nodes.values, ∃ key ∈ attrs.keys, key = "self" ∨ key = "node_for_adding") ∨
    ∃ attrs ∈ graph.edges.values, ∃ key ∈ attrs.keys,
      key = "self" ∨ key = "u_of_edge" ∨ key = "v_of_edge"

theorem GraphTree.holdsReserved_iff {t : GraphTree} :
    t.HoldsReserved ↔ ∃ x ∈ t.networkEntries, ∃ key ∈ x.attrs.keys, key ∈ x.part.reserved := by
  have hgraph : ∀ g : Graph, (∃ x ∈ g.networkEntries, ∃ key ∈ x.attrs.keys, key ∈ x.part.reserved) ↔
      (∃ attrs ∈ g.nodes.values, ∃ key ∈ attrs.keys, key = "self" ∨ key = "node_for_adding") ∨
      ∃ attrs ∈ g.edges.values, ∃ key ∈ attrs.keys,
        key = "self" ∨ key = "u_of_edge" ∨ key = "v_of_edge" := by
    intro g
    simp only [Graph.networkEntries, List.mem_append, List.mem_map, Table.values, or_and_right,
      exists_or, ↓existsAndEq, and_true, NetworkEntry.attrs, NetworkEntry.part,
      NetworkPart.reserved, List.mem_cons, List.not_mem_nil, or_false]
  simp only [networkEntries, List.mem_flatMap, HoldsReserved, ← hgraph]
  constructor
  · rintro ⟨graph, hg, x, hx, hkey⟩
    exact ⟨x, ⟨graph, hg, hx⟩, hkey⟩
  · rintro ⟨x, ⟨graph, hg, hx⟩, hkey⟩
    exact ⟨graph, hg, x, hx, hkey⟩

/-! ### Taking entries one after the other -/

section Folds

variable {σ α ε : Type} {f : σ → α → Except ε σ}

/-- A row of rows is taken row by row. -/
theorem foldlM_flatMap {β : Type} (rows : β → List α) (l : List β) (s : σ) :
    (l.flatMap rows).foldlM f s = l.foldlM (fun s x => (rows x).foldlM f s) s := by
  induction l generalizing s with
  | nil => rfl
  | cons x l ih =>
    rw [List.flatMap_cons, List.foldlM_append, List.foldlM_cons]
    exact congrArg _ (funext fun s => ih s)

/-- **What is taken one after the other fails at the first thing that is refused**, and otherwise
all is taken. What is kept along the way may be relied on when something is refused. -/
theorem foldlM_eq_elim {refuses : α → Option ε} {take : σ → α → σ} {P : σ → Prop}
    (hf : ∀ s x, P s → f s x = (refuses x).elim (.ok (take s x)) .error)
    (hkeep : ∀ s x, P s → P (take s x)) (l : List α) {s : σ} (hs : P s) :
    l.foldlM f s = (l.findSome? refuses).elim (.ok (l.foldl take s)) .error := by
  induction l generalizing s with
  | nil => rfl
  | cons x l ih =>
    rw [List.foldlM_cons, hf s x hs, List.findSome?_cons]
    cases refuses x with
    | some e => rfl
    | none => exact ih (hkeep s x hs)

end Folds

section Taking

variable {σ : Type} (kind : σ → Kind) (take : σ → NetworkEntry → σ)

/-- Takes the entries of a graph, each unless it is refused. -/
def Graph.takeEntries (g : Graph) (s : σ) : Except Error σ :=
  g.networkEntries.foldlM (fun s x => x.accept (kind s) (take s x)) s

/-- Taking the nodes of a graph and then its edges is taking its entries. -/
theorem Graph.takeEntries_eq (g : Graph) (s : σ) :
    g.takeEntries kind take s = (do
      let s ← g.nodes.entries.foldlM (fun s n =>
        (Network.check (kind s) .node n.2).map fun _ => take s (.node n.1 n.2)) s
      g.edges.entries.foldlM (fun s e =>
        (Network.check (kind s) .edge e.2).map fun _ => take s (.edge e.1 e.2)) s) := by
  rw [takeEntries, networkEntries, List.foldlM_append, List.foldlM_map]
  simp only [List.foldlM_map, ← NetworkEntry.map_check]
  rfl

/-- The graphs of a tree are taken entry by entry, up to the first one that is refused. -/
theorem GraphTree.foldlM_takeEntries (hkeep : ∀ s x, kind (take s x) = kind s) (t : GraphTree)
    (s : σ) :
    t.visited.foldlM (fun s g => g.takeEntries kind take s) s =
      (t.networkEntries.findSome? (NetworkEntry.refusal? (kind s))).elim
        (.ok (t.networkEntries.foldl take s)) .error := by
  have hrows := foldlM_flatMap (f := fun s x => x.accept (kind s) (take s x)) Graph.networkEntries
    t.visited s
  refine hrows.symm.trans (foldlM_eq_elim (P := fun s' => kind s' = kind s) (fun s' x hkind => ?_)
    (fun s' x hkind => (hkeep s' x).trans hkind) _ rfl)
  rw [hkind, NetworkEntry.accept]

end Taking

namespace Network

/-- Takes an entry that is not refused. -/
def take (net : Network) : NetworkEntry → Network
  | .node name attrs => net.mergeNode name attrs
  | .edge edge attrs => net.mergeEdge edge attrs

theorem kind_take (net : Network) (x : NetworkEntry) : (net.take x).kind = net.kind := by
  cases x with
  | node name attrs => rfl
  | edge edge attrs => exact (kind_touch _ _).trans (kind_touch _ _)

/-- **A network refuses the first entry that it cannot take**, and otherwise takes all of them. -/
theorem ofTree?_eq (t : GraphTree) :
    ofTree? t = (t.networkEntries.findSome? (NetworkEntry.refusal? t.graph.kind)).elim
      (.ok (t.networkEntries.foldl take (start t.graph))) .error := by
  have hgraph : addGraph = fun net g => g.takeEntries kind take net :=
    funext fun net => funext fun g => (g.takeEntries_eq kind take net).symm
  rw [ofTree?, hgraph, t.foldlM_takeEntries kind take kind_take]
  rfl

/-- There is a network if no entry is refused, and it holds all of them. -/
theorem ofTree?_eq_ok_iff {t : GraphTree} {net : Network} : ofTree? t = .ok net ↔
    t.networkEntries.findSome? (NetworkEntry.refusal? t.graph.kind) = none ∧
      net = t.networkEntries.foldl take (start t.graph) := by
  rw [ofTree?_eq]
  cases t.networkEntries.findSome? (NetworkEntry.refusal? t.graph.kind) with
  | none =>
    rw [Option.elim_none, Except.ok.injEq]
    exact ⟨fun h => ⟨rfl, h.symm⟩, fun h => h.2.symm⟩
  | some e => exact ⟨fun h => (by cases h), fun h => (by cases h.1)⟩

end Network

namespace NetworkLibrary

variable {N : Type} {lib : NetworkLibrary N}

/-- Tells a library an entry that is not refused. -/
def take (lib : NetworkLibrary N) (n : N) : NetworkEntry → N
  | .node name attrs => lib.addNode n name attrs
  | .edge edge attrs => lib.addEdge n edge.tail edge.head attrs

theorem Lawful.kind_take (h : lib.Lawful) (n : N) (x : NetworkEntry) :
    lib.kind (lib.take n x) = lib.kind n := by
  cases x with
  | node name attrs => exact h.kind_addNode n name attrs
  | edge edge attrs => exact h.kind_addEdge n edge.tail edge.head attrs

mutual

/-- A library is told a tree graph by graph, in the order in which the graphs are visited. -/
theorem fill_eq (lib : NetworkLibrary N) : ∀ (t : GraphTree) (n : N),
    lib.fill n t = t.visited.foldlM lib.takeGraph n
  | .node g ts, n => by
    rw [fill, fillAll_eq lib ts, GraphTree.visited, List.foldlM_append]
    refine congrArg _ (funext fun n => ?_)
    rw [List.foldlM_cons]
    cases lib.takeGraph n g <;> rfl

theorem fillAll_eq (lib : NetworkLibrary N) : ∀ (ts : List GraphTree) (n : N),
    lib.fillAll n ts = (GraphTree.visitedAll ts).foldlM lib.takeGraph n
  | [], n => by
    rw [fillAll]
    rfl
  | t :: ts, n => by
    rw [fillAll, fill_eq lib t, GraphTree.visitedAll, List.foldlM_append]
    exact congrArg _ (funext fun n => fillAll_eq lib ts n)

end

/-- **A library refuses the first entry that it cannot be told**, and otherwise is told all of
them. -/
theorem Lawful.flatten_eq (h : lib.Lawful) (t : GraphTree) :
    lib.flatten t = (t.networkEntries.findSome? (NetworkEntry.refusal? t.graph.kind)).elim
      (.ok (t.networkEntries.foldl lib.take
        (lib.make t.graph.kind (t.graph.attrs.insert "name" t.graph.name)))) .error := by
  have hgraph : lib.takeGraph = fun n g => g.takeEntries lib.kind lib.take n :=
    funext fun n => funext fun g => (g.takeEntries_eq lib.kind lib.take n).symm
  rw [flatten, fill_eq, hgraph, t.foldlM_takeEntries lib.kind lib.take h.kind_take, h.kind_make]

end NetworkLibrary

/-! ### The first refusal -/

theorem elim_eq_error_iff {ε σ : Type} {refusal : Option ε} {s : σ} {e : ε} :
    refusal.elim (.ok s) Except.error = .error e ↔ refusal = some e := by
  cases refusal with
  | none => exact ⟨fun h => (by cases h), fun h => (by cases h)⟩
  | some e' => rw [Option.elim_some, Except.error.injEq, Option.some.injEq]

namespace GraphTree

variable {t : GraphTree} {kind : Kind} {e : Error}

/-- The error that the first entry with a reserved name brings about: it tells what the entry is,
and the first such name among its attributes. -/
theorem findSome?_refusal?_eq_some_iff :
    t.networkEntries.findSome? (NetworkEntry.refusal? kind) = some e ↔
      ∃ before x after key, t.networkEntries = before ++ x :: after ∧
        (∀ y ∈ before, ∀ k ∈ y.attrs.keys, k ∉ y.part.reserved) ∧ x.FirstReserved key ∧
        e = .reserved kind x.part key := by
  simp only [List.findSome?_eq_some_iff, NetworkEntry.refusal?_eq_some_iff,
    NetworkEntry.refusal?_eq_none_iff]
  constructor
  · rintro ⟨before, x, after, hsplit, ⟨key, hfirst, he⟩, hbefore⟩
    exact ⟨before, x, after, key, hsplit, hbefore, hfirst, he⟩
  · rintro ⟨before, x, after, key, hsplit, hbefore, hfirst, he⟩
    exact ⟨before, x, after, hsplit, ⟨key, hfirst, he⟩, hbefore⟩

theorem exists_findSome?_refusal?_iff :
    (∃ e, t.networkEntries.findSome? (NetworkEntry.refusal? kind) = some e) ↔ t.HoldsReserved := by
  rw [← not_iff_not, ← Option.ne_none_iff_exists', not_not, List.findSome?_eq_none_iff,
    holdsReserved_iff]
  simp only [NetworkEntry.refusal?_eq_none_iff, not_exists, not_and]

end GraphTree

namespace Session

variable {s : Session} {g : Nat} {t : GraphTree} {graph : Graph}

theorem step_ask_network_eq_error_iff (ht : s.tree? g = some t) {e : Error} :
    (s.step (.ask g .network)).1 = .error e ↔
      t.networkEntries.findSome? (NetworkEntry.refusal? t.graph.kind) = some e := by
  have hanswer : (s.step (.ask g .network)).1 = (Network.ofTree? t).map .network := step_ask ht _
  rw [hanswer, Network.ofTree?_eq]
  cases t.networkEntries.findSome? (NetworkEntry.refusal? t.graph.kind) with
  | none => exact ⟨fun h => (by cases h), fun h => (by cases h)⟩
  | some e' => rw [Option.elim_some, Except.map, Except.error.injEq, Option.some.injEq]

/-- Attributes may have any names when a node or an edge is added. -/
theorem Exclusive.step_add_named (hs : s.Exclusive) (hwf : s.WellFormed)
    (hg : s.graph? g = some graph) (attrs : Attributes) :
    (∀ node, (Session.step s (.edit g (.addNode node ⟨[], attrs⟩ none))).1 =
        .ok (.attributes ((graph.attrsAt (.node node)).insertMany attrs.entries))) ∧
      ∀ edge : Edge, edge.kind = graph.kind →
        (Session.step s (.edit g (.addEdge (.edge edge) ⟨[], attrs⟩ none))).1 =
          .ok (.attributes ((graph.attrsAt (.edge edge)).insertMany attrs.entries)) := by
  obtain ⟨r, hr, rfl⟩ := Option.map_eq_some_iff.mp hg
  have hrecord := record_eq_ok_iff.mpr hr
  constructor
  · intro node
    rw [step_edit hrecord, (hs.realizes_edit hwf hr _).1]
    rfl
  · intro edge hkind
    have hok : Kind.edgeOf (s.view r).kind (.edge edge) = .ok edge :=
      Kind.edgeOf_eq_ok_iff.mpr ⟨rfl, hkind⟩
    rw [step_edit hrecord, (hs.realizes_edit hwf hr _).1, Graph.edit, hok]
    rfl

/-- When there is no network of a graph, and what is possible all the same. -/
structure NetworkRefusals (s : Session) (g : Nat) (t : GraphTree) : Prop where
  /-- There is none exactly if somewhere in the tree a node or an edge has an attribute under one of
  the names reserved for it. The attributes of graphs do not count. -/
  fails_iff : (∃ e, (s.step (.ask g .network)).1 = .error e) ↔ t.HoldsReserved
  /-- The error tells the first such entry, in the order in which entries are taken, and the first
  such name in the order of its attributes. -/
  error_iff (e : Error) : (s.step (.ask g .network)).1 = .error e ↔
    ∃ before x after key, t.networkEntries = before ++ x :: after ∧
      (∀ y ∈ before, ∀ k ∈ y.attrs.keys, k ∉ y.part.reserved) ∧ x.FirstReserved key ∧
      e = .reserved t.graph.kind x.part key ∧
      e.message = t.graph.kind.networkName ++ "." ++ x.part.addition ++
        "() got multiple values for argument '" ++ key ++ "'"
  /-- Any library that holds networks refuses the same trees, and with the same error. -/
  library {N : Type} (lib : NetworkLibrary N) (hlib : lib.Lawful) (e : Error) :
    lib.flatten t = .error e ↔ (s.step (.ask g .network)).1 = .error e
  /-- The tree can be built anywhere by adding its nodes and its edges, whatever the names of their
  attributes. -/
  built (cs' : List Command) :
    let s' := (run {} cs').2
    let n := s'.graphs.length
    (∀ reply ∈ (s'.run (t.rebuild n)).1, ∃ answer, reply = .ok answer) ∧
      (s'.run (t.rebuild n)).2.tree? n = some t
  /-- The attributes may also be given by their names. -/
  named (attrs : Attributes) :
    (∀ node, (s.step (.edit g (.addNode node ⟨[], attrs⟩ none))).1 =
        .ok (.attributes ((t.graph.attrsAt (.node node)).insertMany attrs.entries))) ∧
      ∀ edge : Edge, edge.kind = t.graph.kind →
        (s.step (.edit g (.addEdge (.edge edge) ⟨[], attrs⟩ none))).1 =
          .ok (.attributes ((t.graph.attrsAt (.edge edge)).insertMany attrs.entries))
  /-- There is a document in any case. -/
  document : (s.step (.ask g (.script .document))).1 = .ok (.text t.document)

/-- **A graph has no network exactly if a node or an edge in it has an attribute under a reserved
name**, and the first one is told. This is so for every graph that commands lead to. -/
theorem networkRefusals_run (cs : List Command) {g : Nat} {t : GraphTree}
    (ht : (run {} cs).2.tree? g = some t) : (run {} cs).2.NetworkRefusals g t := by
  obtain ⟨hs, hwf⟩ := run_induction Move.wellFormed cs exclusive_empty wellFormed_empty
  obtain ⟨kind, hkind⟩ := ofKind_run cs ht
  have herror := fun e => step_ask_network_eq_error_iff (e := e) ht
  constructor
  case fails_iff => simp only [herror, t.exists_findSome?_refusal?_iff]
  case error_iff =>
    intro e
    rw [herror, t.findSome?_refusal?_eq_some_iff]
    constructor
    · rintro ⟨before, x, after, key, hsplit, hbefore, hfirst, rfl⟩
      exact ⟨before, x, after, key, hsplit, hbefore, hfirst, rfl, rfl⟩
    · rintro ⟨before, x, after, key, hsplit, hbefore, hfirst, he, -⟩
      exact ⟨before, x, after, key, hsplit, hbefore, hfirst, he⟩
  case library =>
    intro N lib hlib e
    rw [herror, hlib.flatten_eq, elim_eq_error_iff]
  case built =>
    intro cs' s' n
    obtain ⟨hs', hwf'⟩ := run_induction Move.wellFormed cs' exclusive_empty wellFormed_empty
    obtain ⟨hok, htree, -⟩ := (hkind.fillable (hwf.of_mem_visited ht)).run_rebuild hs' hwf'
    exact ⟨hok, htree⟩
  case named =>
    intro attrs
    obtain ⟨r, hr⟩ := exists_record_of_tree? ht
    obtain ⟨ts, hnode, -⟩ := hwf.forest.tree?_eq_node hr
    obtain rfl := Option.some.inj (ht.symm.trans hnode)
    exact hs.step_add_named hwf (graph?_eq hr) attrs
  case document =>
    rw [step_ask ht]
    rfl

/-- A graph with two reserved names in it. The one in the graph inside it comes first, though the
other one was given before; `u_of_edge` is reserved for edges alone, and the graph itself may have
attributes under any name. -/
theorem networkRefusals_nested :
    let cs : List Command := [.create (some .directed) "", .subgraph 0 "s",
      .edit 0 (.setAttr "self" "x"),
      .edit 0 (.addNode "a" ⟨[], ⟨[("u_of_edge", "1"), ("self", "2")]⟩⟩ none),
      .edit 1 (.addEdge (.edge ⟨.directed, "a", "b"⟩)
        ⟨[], ⟨[("label", "3"), ("v_of_edge", "4"), ("self", "5")]⟩⟩ none)]
    let s := (run {} cs).2
    (s.step (.ask 0 .network)).1 = .error (.reserved .directed .edge "v_of_edge") ∧
      (Error.reserved .directed .edge "v_of_edge").message =
        "DiGraph.add_edge() got multiple values for argument 'v_of_edge'" := by
  intro cs s
  let attrs : Attributes := ⟨[("label", "3"), ("v_of_edge", "4"), ("self", "5")]⟩
  let inside : Graph :=
    { kind := .directed, name := "s", edges := ⟨[(⟨.directed, "a", "b"⟩, attrs)]⟩ }
  let outside : Graph :=
    { kind := .directed
      attrs := ⟨[("self", "x")]⟩
      nodes := ⟨[("a", ⟨[("u_of_edge", "1"), ("self", "2")]⟩)]⟩ }
  have ht : s.tree? 0 = some (.node outside [.node inside []]) := by rfl
  refine ⟨((networkRefusals_run cs ht).error_iff _).mpr ⟨[], .edge ⟨.directed, "a", "b"⟩ attrs,
    [.node "a" ⟨[("u_of_edge", "1"), ("self", "2")]⟩], "v_of_edge", rfl, ?_, ?_, rfl, by decide⟩,
    by decide⟩
  · exact fun y hy => absurd hy List.not_mem_nil
  · exact ⟨by decide, ["label"], ["self"], rfl, by decide⟩

end Session

end GraphScript
