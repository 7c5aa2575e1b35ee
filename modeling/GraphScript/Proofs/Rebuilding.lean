import GraphScript.Proofs.Edits

/-!
# Graphs that are built again

What can be read off a graph and its subgraphs is enough to build them again: a graph of the same
kind and name is made, the attributes are set one by one, the nodes and the edges are added with
their attributes in their order, and the same is done for each subgraph (`GraphTree.rebuild`).

All of these commands succeed, in any session that commands lead to, and the graph that is made has
the same tree (`Session.tree?_rebuild`). So a history leaves nothing behind that cannot be read:
whatever was removed, added again, renamed or written through stores, there is a history without
detours that leads to the same graph.
-/

namespace GraphScript

/-! ### Commands that build a graph -/

/-- Attributes as they are mentioned one by one. -/
def Attributes.mentions (attrs : Attributes) : Mentions where
  pairs := attrs.entries.map fun a => [a.1, a.2]

/-- The changes that give a graph its contents: its attributes, then its nodes, then its edges. -/
def Graph.changes (g : Graph) : List GraphEdit :=
  g.attrs.entries.map (fun a => .setAttr a.1 a.2) ++
    (g.nodes.entries.map (fun n => .addNode n.1 n.2.mentions none) ++
      g.edges.entries.map fun e => .addEdge (.edge e.1) e.2.mentions none)

namespace GraphTree

mutual

/-- The commands that give a graph with a number the contents of a tree. The graphs inside it get
the numbers from `next` on. -/
def fill (g next : Nat) : GraphTree → List Command
  | node graph ts => graph.changes.map (.edit g) ++ fillAll g next ts

/-- The commands that make graphs inside a graph and give them the contents of trees. -/
def fillAll (g next : Nat) : List GraphTree → List Command
  | [] => []
  | t :: ts =>
    .subgraph g t.graph.name ::
      (fill next (next + 1) t ++ fillAll g (next + t.visited.length) ts)

end

/-- The commands that make a graph with the contents of a tree. It gets the number `next`. -/
def rebuild (next : Nat) (t : GraphTree) : List Command :=
  .create (some t.graph.kind) t.graph.name :: fill next (next + 1) t

end GraphTree

/-! ### Building a graph as a plain value -/

namespace Table

variable {κ α : Type} [BEq κ] {t : Table κ α} {e : κ × α} {es : List (κ × α)}

theorem Distinct.not_contains (h : (⟨t.entries ++ e :: es⟩ : Table κ α).Distinct) :
    t.contains e.1 = false := by
  rw [contains, List.any_eq_false]
  intro x hx
  rw [Bool.not_eq_true]
  exact (List.pairwise_append.mp h).2.2 x hx e List.mem_cons_self

/-- Writing entries with new keys adds them behind all others. -/
theorem Distinct.insertMany_eq (h : (⟨t.entries ++ es⟩ : Table κ α).Distinct) :
    t.insertMany es = ⟨t.entries ++ es⟩ := by
  induction es generalizing t with
  | nil => rw [List.append_nil]; rfl
  | cons e es ih =>
    have hpush : t.insert e.1 e.2 = ⟨t.entries ++ [e]⟩ := insert_of_not_contains h.not_contains _
    have hrest : (⟨(t.insert e.1 e.2).entries ++ es⟩ : Table κ α).Distinct := by
      rwa [hpush, List.append_assoc]
    have htail := ih hrest
    rw [hpush, List.append_assoc] at htail
    rw [Table.insertMany, List.foldl_cons, hpush]
    exact htail

/-- The entries of a table without repeated keys describe this table. -/
theorem Distinct.ofList_entries (h : t.Distinct) : ofList t.entries = t := h.insertMany_eq

end Table

namespace Attributes

/-- Nothing is wrong with attributes that are mentioned one by one, and all of them are taken. -/
theorem fault?_mentions (attrs : Attributes) : attrs.mentions.fault? = none := by
  rw [Mentions.fault?, mentions]
  induction attrs.entries with
  | nil => rfl
  | cons a es ih => exact ih

theorem taken_mentions (attrs : Attributes) : attrs.mentions.taken = attrs.entries := by
  rw [Mentions.taken, fault?_mentions, mentions]
  simp only [Table.entries_empty, List.append_nil]
  induction attrs.entries with
  | nil => rfl
  | cons a es ih => exact congrArg (a :: ·) ih

/-- Attributes are what is there when they are mentioned where there are none. -/
theorem merge_mentions {attrs : Attributes} (h : attrs.Distinct) :
    merge ∅ attrs.mentions = (.ok (), attrs) := by
  rw [merge, fault?_mentions, taken_mentions]
  exact congrArg (Prod.mk _) h.ofList_entries

end Attributes

/-- Changes that succeed one after the other lead from one graph to another. -/
inductive Graph.Edits : Graph → List GraphEdit → Graph → Prop
  | nil (g : Graph) : Edits g [] g
  | cons {g g' g'' : Graph} {change : GraphEdit} {changes : List GraphEdit}
      {attrs : Option Attributes} (h : g.edit change = (.ok attrs, g'))
      (hrest : Edits g' changes g'') :
    Edits g (change :: changes) g''

namespace Graph

variable {g g' g'' : Graph}

theorem Edits.append {changes changes' : List GraphEdit} (h : g.Edits changes g')
    (h' : g'.Edits changes' g'') : g.Edits (changes ++ changes') g'' := by
  induction h with
  | nil => exact h'
  | cons hstep _ ih => exact .cons hstep (ih h')

/-- Mentioning attributes at a place that there is not makes the place with just these. -/
theorem mergeIn_mentions {slot : Slot} (h : g.attrs? slot = none) {attrs : Attributes}
    (hattrs : attrs.Distinct) :
    g.mergeIn slot attrs.mentions = (.ok (some attrs), g.put attrs slot) := by
  rw [mergeIn, attrsAt, h, Option.getD_none, Attributes.merge_mentions hattrs]
  rfl

theorem edits_setAttr (g : Graph) (es : List (String × String)) :
    g.Edits (es.map fun a => .setAttr a.1 a.2) { g with attrs := g.attrs.insertMany es } := by
  induction es generalizing g with
  | nil => exact .nil g
  | cons a es ih => exact .cons rfl (ih { g with attrs := g.attrs.insert a.1 a.2 })

/-- Changes that each push an entry onto a table, in a graph that is as it is but for this table. -/
theorem edits_push {κ : Type} [BEq κ] (place : Table κ Attributes → Graph)
    (change : κ × Attributes → GraphEdit) {t : Table κ Attributes} {es : List (κ × Attributes)}
    (h : (⟨t.entries ++ es⟩ : Table κ Attributes).Distinct)
    (hpush : ∀ t, ∀ e ∈ es, t.contains e.1 = false →
      (place t).edit (change e) = (.ok (some e.2), place (t.push e.1 e.2))) :
    (place t).Edits (es.map change) (place ⟨t.entries ++ es⟩) := by
  induction es generalizing t with
  | nil =>
    rw [List.append_nil]
    exact .nil _
  | cons e es ih =>
    have hstep := hpush t e List.mem_cons_self h.not_contains
    have hassoc : t.entries ++ e :: es = (t.push e.1 e.2).entries ++ es :=
      (List.append_assoc _ [e] es).symm
    rw [hassoc] at h ⊢
    exact .cons hstep (ih h fun t f hf => hpush t f (List.mem_cons_of_mem _ hf))

/-- A node that is not there is added with the attributes mentioned. -/
theorem edit_addNode {node : String} (h : g.nodes.contains node = false) {attrs : Attributes}
    (hattrs : attrs.Distinct) : g.edit (.addNode node attrs.mentions none) =
      (.ok (some attrs), { g with nodes := g.nodes.push node attrs }) := by
  have hnone : g.attrs? (.node node) = none := Table.get?_eq_none_iff.mpr h
  rw [edit, mergeIn_mentions hnone hattrs, put, Table.insert_of_not_contains h]

/-- An edge of the kind of the graph that is not there is added with the attributes mentioned. -/
theorem edit_addEdge {e : Edge} (hkind : e.kind = g.kind) (h : g.edges.contains e = false)
    {attrs : Attributes} (hattrs : attrs.Distinct) :
    g.edit (.addEdge (.edge e) attrs.mentions none) =
      (.ok (some attrs), { g with edges := g.edges.push e attrs }) := by
  have hnone : g.attrs? (.edge e) = none := Table.get?_eq_none_iff.mpr h
  have hgiven : g.kind.edgeOf (.edge e) = .ok e := Kind.edgeOf_eq_ok_iff.mpr ⟨rfl, hkind⟩
  simp only [edit, hgiven]
  rw [mergeIn_mentions hnone hattrs, put, Table.insert_of_not_contains h]

/-- A graph of a kind and a name without anything in it. -/
def blank (kind : Kind) (name : String) : Graph := { kind, name }

/-- **The changes of a well-formed graph succeed on a graph without anything in it**, and give it
the contents of the graph. -/
theorem WellFormed.edits_changes (h : g.WellFormed) : (blank g.kind g.name).Edits g.changes g := by
  have hset : (blank g.kind g.name).Edits (g.attrs.entries.map fun a => .setAttr a.1 a.2)
      { blank g.kind g.name with attrs := g.attrs } := by
    have hattrs : (∅ : Attributes).insertMany g.attrs.entries = g.attrs := h.attrs.ofList_entries
    have hset := edits_setAttr (blank g.kind g.name) g.attrs.entries
    rwa [blank, hattrs] at hset
  have hnodes := edits_push (t := ∅) (fun t => { g with nodes := t, edges := ∅ })
    (fun n => .addNode n.1 n.2.mentions none) h.nodes fun t n hn hc =>
      edit_addNode hc (h.nodeAttrs n.2 (List.mem_map_of_mem hn))
  have hedges := edits_push (t := ∅) (fun t => { g with edges := t })
    (fun e => .addEdge (.edge e.1) e.2.mentions none) h.edges fun t e he hc =>
      edit_addEdge (g := { g with edges := t }) (h.kinds e.1 (List.mem_map_of_mem he)) hc
        (h.edgeAttrs e.2 (List.mem_map_of_mem he))
  exact hset.append (hnodes.append hedges)

end Graph

namespace Session

variable {s s' : Session} {g h : Nat} {r : GraphRecord} {w : Option Nat}

/-! ### Sessions that show the same -/

/-- Two sessions show the same of a graph, and have the same graphs directly inside it. -/
structure AgreesAt (s s' : Session) (g : Nat) : Prop where
  graph : s'.graph? g = s.graph? g
  subgraphs : s'.subgraphs g = s.subgraphs g

theorem AgreesAt.trans {s'' : Session} (h : s.AgreesAt s' g) (h' : s'.AgreesAt s'' g) :
    s.AgreesAt s'' g :=
  ⟨h'.graph.trans h.graph, h'.subgraphs.trans h.subgraphs⟩

/-- Moves change nothing about graphs that they do not touch. -/
theorem Moves.agreesAt (hm : Moves w s s') (hs : s.Exclusive) (hg : g < s.graphs.length)
    (hw : w ≠ some g) : s.AgreesAt s' g := by
  have hr := List.getElem?_eq_getElem hg
  obtain ⟨hr', hview⟩ := hm.record_eq hs hr hw
  refine ⟨?_, ?_⟩
  · rw [graph?_eq hr, graph?_eq hr', hview]
  · rw [subgraphs_eq hr, subgraphs_eq hr']

/-- The trees of graphs from a number on are the same if these graphs show the same, as what is
inside a graph has a larger number. -/
theorem Forest.tree?_congr (hf : s.Forest) (hf' : s'.Forest) {lo : Nat}
    (hagree : ∀ h, lo ≤ h → h < s.graphs.length → s.AgreesAt s' h) (hlo : lo ≤ g)
    (hg : g < s.graphs.length) : s'.tree? g = s.tree? g := by
  induction g using hf.wellFounded.induction with
  | _ g ih =>
    have hr := List.getElem?_eq_getElem hg
    obtain ⟨hgraph, hsub⟩ := hagree g hlo hg
    rw [graph?_eq hr] at hgraph
    obtain ⟨r', hr', hview⟩ := Option.map_eq_some_iff.mp hgraph
    rw [subgraphs_eq hr, subgraphs_eq hr'] at hsub
    rw [tree?_eq hf.ordered hr, tree?_eq hf'.ordered hr', hview, hsub]
    refine congrArg (fun ts => some (GraphTree.node _ ts)) (List.filterMap_congr fun i hi => ?_)
    have hinside : s.IsSubgraph i g := isSubgraph_iff.mpr ⟨_, hr, hi⟩
    exact ih i hinside (Nat.le_trans hlo (Nat.le_of_lt (hf.older i g hinside)))
      (hf.lt_length hinside)

/-! ### Graphs that are made -/

theorem graph?_newGraph (s : Session) (kind : Kind) (name : String) :
    (s.newGraph kind name).2.graph? s.graphs.length = some (.blank kind name) ∧
      (s.newGraph kind name).2.subgraphs s.graphs.length = [] := by
  have hr : (s.newGraph kind name).2.graphs[s.graphs.length]? =
      some { kind, name, attrs := s.stores.length } := List.getElem?_concat_length
  have hstore : (s.newGraph kind name).2.store s.stores.length = ∅ := store_newStore_self s ∅
  rw [graph?_eq hr, subgraphs_eq hr, view, hstore]
  exact ⟨rfl, rfl⟩

/-- A graph that is made inside another one is the last of the graphs inside it. -/
theorem Exclusive.graph?_newSubgraph (hs : s.Exclusive) (hr : s.graphs[g]? = some r)
    (name : String) :
    (s.newSubgraph g r name).2.graph? s.graphs.length = some (.blank r.kind name) ∧
      (s.newSubgraph g r name).2.subgraphs s.graphs.length = [] ∧
      (s.newSubgraph g r name).2.graph? g = some (s.view r) ∧
      (s.newSubgraph g r name).2.subgraphs g = s.subgraphs g ++ [s.graphs.length] := by
  have hg : g ≠ s.graphs.length := Nat.ne_of_lt (List.getElem?_eq_some_iff.mp hr).1
  have hm : Moves none s (s.newGraph r.kind name).2 := (Move.create r.kind name).moves
  obtain ⟨hr', hview⟩ := hm.record_eq hs hr (Option.some_ne_none g).symm
  have hg' := getElem?_modifyGraph_self hr'
    fun r => { r with subgraphs := r.subgraphs ++ [s.graphs.length] }
  obtain ⟨hblank, hnone⟩ := graph?_newGraph s r.kind name
  -- the new graph is not the one that takes it up
  have hkept : ∀ f, ((s.newGraph r.kind name).2.modifyGraph g f).graphs[s.graphs.length]? =
      (s.newGraph r.kind name).2.graphs[s.graphs.length]? := fun f => by
    simp only [getElem?_modifyGraph, if_neg hg, Option.map_id']
  refine ⟨?_, ?_, ?_, ?_⟩
  · rw [← hblank, graph?, graph?, newSubgraph, hkept]
    rfl
  · rw [← hnone, Session.subgraphs, Session.subgraphs, newSubgraph, hkept]
  · rw [← hview, graph?, newSubgraph]
    exact congrArg (Option.map _) hg'
  · rw [subgraphs_eq hr, Session.subgraphs, newSubgraph]
    exact congrArg (fun r? => (r?.map GraphRecord.subgraphs).getD []) hg'

/-! ### Commands that build graphs -/

theorem lt_length_of_graph? {graph : Graph} (hg : s.graph? g = some graph) :
    g < s.graphs.length := by
  obtain ⟨r, hr, -⟩ := Option.map_eq_some_iff.mp hg
  exact (List.getElem?_eq_some_iff.mp hr).1

theorem replies_append (s : Session) (cs cs' : List Command) :
    (s.run (cs ++ cs')).1 = (s.run cs).1 ++ ((s.run cs).2.run cs').1 := by
  induction cs generalizing s with
  | nil => rfl
  | cons c cs ih => exact congrArg ((s.step c).1 :: ·) (ih (s.step c).2)

/-- Commands succeed, and of the graphs that there are, they change one at most. -/
structure Confined (s : Session) (g : Nat) (cs : List Command) : Prop where
  succeeds : ∀ reply ∈ (s.run cs).1, ∃ answer, reply = .ok answer
  frame : ∀ h < s.graphs.length, h ≠ g → s.AgreesAt (s.run cs).2 h
  grows : s.graphs.length ≤ (s.run cs).2.graphs.length

variable {cs cs' : List Command}

theorem Confined.nil (s : Session) (g : Nat) : s.Confined g [] :=
  ⟨fun _ h => absurd h List.not_mem_nil, fun _ _ _ => ⟨rfl, rfl⟩, Nat.le_refl _⟩

theorem Exclusive.confined_singleton (hs : s.Exclusive) {c : Command} {answer : Reply}
    (hanswer : (s.step c).1 = .ok answer) (hm : Moves (some g) s (s.step c).2) :
    s.Confined g [c] where
  succeeds := fun _ hreply => ⟨answer, (List.mem_singleton.mp hreply).trans hanswer⟩
  frame := fun _ hh hne => hm.agreesAt hs hh fun heq => hne (Option.some.inj heq).symm
  grows := hs.length_graphs_le_step c

/-- Commands that change a graph, followed by commands that change it or one that was not there
before, change this graph at most. -/
theorem Confined.append (h : s.Confined g cs) {g' : Nat} (h' : (s.run cs).2.Confined g' cs')
    (hg' : g' = g ∨ s.graphs.length ≤ g') : s.Confined g (cs ++ cs') := by
  refine ⟨fun reply hreply => ?_, fun i hi hne => ?_, ?_⟩
  · rw [replies_append, List.mem_append] at hreply
    exact hreply.elim (h.succeeds reply) (h'.succeeds reply)
  · rw [run_append]
    have hne' : i ≠ g' := by
      rintro rfl
      exact hg'.elim hne fun hle => absurd hi (Nat.not_lt.mpr hle)
    exact (h.frame i hi hne).trans (h'.frame i (Nat.lt_of_lt_of_le hi h.grows) hne')
  · rw [run_append]
    exact Nat.le_trans h.grows h'.grows

/-- Changes that succeed on a graph as a plain value succeed on the graph of a session. -/
theorem Exclusive.run_changes (hs : s.Exclusive) (hwf : s.WellFormed) {graph graph' : Graph}
    {changes : List GraphEdit} (hg : s.graph? g = some graph) (h : graph.Edits changes graph') :
    s.Confined g (changes.map (.edit g)) ∧
      (s.run (changes.map (.edit g))).2.graph? g = some graph' ∧
      (s.run (changes.map (.edit g))).2.subgraphs g = s.subgraphs g ∧
      (s.run (changes.map (.edit g))).2.graphs.length = s.graphs.length := by
  induction h generalizing s with
  | nil => exact ⟨.nil s g, hg, rfl, rfl⟩
  | @cons _ _ _ change changes attrs hedit _ ih =>
    obtain ⟨r, hr, rfl⟩ := Option.map_eq_some_iff.mp hg
    obtain ⟨houtcome, hgraph⟩ := hs.realizes_edit hwf hr change
    rw [hedit] at houtcome hgraph
    have hstep : s.step (.edit g change) =
        (.ok (attrs.elim .done .attributes), (s.edit g r change).2) := by
      simp only [Session.step, record_eq_ok_iff.mpr hr, houtcome]
      rfl
    have hm := hs.moves_edit hr change
    have hone : s.Confined g [.edit g change] :=
      hs.confined_singleton (congrArg Prod.fst hstep) (by rwa [hstep])
    obtain ⟨hrest, hgraph', hsub, hlength⟩ :=
      ih (hm.keep Move.exclusive hs) (hm.keep Move.wellFormed hwf) hgraph
    have hrun : (s.run [.edit g change]).2 = (s.edit g r change).2 := congrArg Prod.snd hstep
    rw [← hrun] at hrest hgraph' hsub hlength
    rw [List.map_cons, ← List.singleton_append, run_append]
    refine ⟨hone.append hrest (.inl rfl), hgraph', ?_, ?_⟩
    · rw [hsub, hrun, (hs.frame_edit hr change g).2]
    · rw [hlength, hrun, length_graphs_edit]

/-- A graph is made, and has nothing in it. -/
theorem Exclusive.run_create (hs : s.Exclusive) (kind : Kind) (name : String) :
    (s.run [.create (some kind) name]).1 = [.ok (.number s.graphs.length)] ∧
      (∀ h < s.graphs.length, s.AgreesAt (s.run [.create (some kind) name]).2 h) ∧
      (s.run [.create (some kind) name]).2.graphs.length = s.graphs.length + 1 ∧
      (s.run [.create (some kind) name]).2.graph? s.graphs.length = some (.blank kind name) ∧
      (s.run [.create (some kind) name]).2.subgraphs s.graphs.length = [] := by
  have hm : Moves none s (s.newGraph kind name).2 := (Move.create kind name).moves
  refine ⟨rfl, fun h hh => hm.agreesAt hs hh (Option.some_ne_none h).symm, ?_,
    graph?_newGraph s kind name⟩
  exact List.length_append

/-- A graph is made inside another one, and has nothing in it. -/
theorem Exclusive.run_subgraph (hs : s.Exclusive) {graph : Graph} (hg : s.graph? g = some graph)
    (name : String) :
    s.Confined g [.subgraph g name] ∧
      (s.run [.subgraph g name]).2.graphs.length = s.graphs.length + 1 ∧
      (s.run [.subgraph g name]).2.graph? s.graphs.length = some (.blank graph.kind name) ∧
      (s.run [.subgraph g name]).2.subgraphs s.graphs.length = [] ∧
      (s.run [.subgraph g name]).2.graph? g = some graph ∧
      (s.run [.subgraph g name]).2.subgraphs g = s.subgraphs g ++ [s.graphs.length] := by
  obtain ⟨r, hr, rfl⟩ := Option.map_eq_some_iff.mp hg
  have hstep : s.step (.subgraph g name) =
      (.ok (.number s.graphs.length), (s.newSubgraph g r name).2) := by
    rw [Session.step, record_eq_ok_iff.mpr hr]
    rfl
  have hrun : (s.run [.subgraph g name]).2 = (s.newSubgraph g r name).2 := congrArg Prod.snd hstep
  have hm : Moves (some g) s (s.newSubgraph g r name).2 := (Move.nest hr name).moves
  rw [hrun]
  refine ⟨hs.confined_singleton (congrArg Prod.fst hstep) (by rwa [hstep]), ?_,
    hs.graph?_newSubgraph hr name⟩
  simp [newSubgraph, newGraph, modifyGraph, newStore]

end Session

namespace GraphTree

/-- Wherever there is a graph of the kind and the name of a tree without anything in it, the
commands that give it the contents of the tree do so. -/
def Fillable (t : GraphTree) : Prop :=
  ∀ (s : Session) (g : Nat), s.Exclusive → s.WellFormed → g < s.graphs.length →
    s.graph? g = some (.blank t.graph.kind t.graph.name) → s.subgraphs g = [] →
    s.Confined g (t.fill g s.graphs.length) ∧
      (s.run (t.fill g s.graphs.length)).2.graphs.length + 1 = s.graphs.length + t.visited.length ∧
      (s.run (t.fill g s.graphs.length)).2.tree? g = some t

variable {s : Session} {g : Nat} {graph : Graph}

open Session

/-- The commands that make a graph inside a graph of its kind and give it the contents of a tree do
so. -/
theorem Fillable.run_subgraph {t : GraphTree} (ht : t.Fillable) (hs : s.Exclusive)
    (hwf : s.WellFormed) (hg : s.graph? g = some graph) (hkind : t.graph.kind = graph.kind) :
    let cs := .subgraph g t.graph.name :: t.fill s.graphs.length (s.graphs.length + 1)
    s.Confined g cs ∧ (s.run cs).2.graphs.length = s.graphs.length + t.visited.length ∧
      (s.run cs).2.graph? g = some graph ∧
      (s.run cs).2.subgraphs g = s.subgraphs g ++ [s.graphs.length] ∧
      (s.run cs).2.tree? s.graphs.length = some t := by
  intro cs
  have hlt : g < s.graphs.length := lt_length_of_graph? hg
  obtain ⟨hmade, hlength, hblank, hnone, hgraph, hsub⟩ := hs.run_subgraph hg t.graph.name
  obtain ⟨hs', hwf'⟩ := run_induction Move.wellFormed [.subgraph g t.graph.name] hs hwf
  obtain ⟨hfilled, hlength', htree⟩ := ht _ s.graphs.length hs' hwf'
    (by rw [hlength]; exact Nat.lt_succ_self _) (hkind ▸ hblank) hnone
  rw [hlength] at hfilled hlength' htree
  have hcs : cs = [.subgraph g t.graph.name] ++ t.fill s.graphs.length (s.graphs.length + 1) := rfl
  -- the graph around it is not touched when it gets its contents
  obtain ⟨hgraph', hsub'⟩ := hfilled.frame g (by rw [hlength]; omega) (Nat.ne_of_lt hlt)
  rw [hcs, run_append]
  exact ⟨hmade.append hfilled (.inr (Nat.le_refl _)), by omega, hgraph'.trans hgraph,
    hsub'.trans hsub, htree⟩

/-- The commands that make graphs inside a graph and give them the contents of trees do so. -/
theorem run_fillAll {ts : List GraphTree} (hts : ∀ t ∈ ts, t.Fillable)
    (hkinds : ∀ t ∈ ts, t.graph.kind = graph.kind) (hs : s.Exclusive) (hwf : s.WellFormed)
    (hg : s.graph? g = some graph) :
    let cs := fillAll g s.graphs.length ts
    s.Confined g cs ∧
      (s.run cs).2.graphs.length = s.graphs.length + (visitedAll ts).length ∧
      (s.run cs).2.graph? g = some graph ∧
      ∃ is, (s.run cs).2.subgraphs g = s.subgraphs g ++ is ∧
        is.map (s.run cs).2.tree? = ts.map some := by
  induction ts generalizing s with
  | nil => exact ⟨.nil s g, rfl, hg, [], (List.append_nil _).symm, rfl⟩
  | cons t ts ih =>
    intro cs
    have hlt : g < s.graphs.length := lt_length_of_graph? hg
    obtain ⟨hfirst, hlength, hgraph, hsub, htree⟩ := (hts t List.mem_cons_self).run_subgraph hs hwf
      hg (hkinds t List.mem_cons_self)
    have hcs : cs = (.subgraph g t.graph.name :: t.fill s.graphs.length (s.graphs.length + 1)) ++
        fillAll g (s.graphs.length + t.visited.length) ts := rfl
    obtain ⟨hs', hwf'⟩ := run_induction Move.wellFormed
      (.subgraph g t.graph.name :: t.fill s.graphs.length (s.graphs.length + 1)) hs hwf
    rw [hcs, run_append, ← hlength]
    generalize hrun : (s.run (.subgraph g t.graph.name ::
      t.fill s.graphs.length (s.graphs.length + 1))).2 = s' at *
    obtain ⟨hrest, hlength', hgraph', is, hsub', htrees⟩ := ih
      (fun u hu => hts u (List.mem_cons_of_mem _ hu))
      (fun u hu => hkinds u (List.mem_cons_of_mem _ hu)) hs' hwf' hgraph
    have hwf'' := (run_induction Move.wellFormed (fillAll g s'.graphs.length ts) hs' hwf').2
    -- the tree that was made first stays, as all that is in it is newer than the graph around it
    obtain ⟨r, hr⟩ := exists_record_of_tree? htree
    have hkept := hwf'.forest.tree?_congr hwf''.forest
      (fun h hle hh => hrest.frame h hh (Nat.ne_of_gt (Nat.lt_of_lt_of_le hlt hle)))
      (Nat.le_refl _) (List.getElem?_eq_some_iff.mp hr).1
    refine ⟨hfirst.append (hrun ▸ hrest) (.inl rfl), ?_, hgraph', s.graphs.length :: is, ?_, ?_⟩
    · rw [hlength', hlength, visitedAll, List.length_append, Nat.add_assoc]
    · rw [hsub', hsub, List.append_assoc]
      rfl
    · rw [List.map_cons, htrees, hkept, htree]
      rfl

/-- The commands that make a graph with the contents of a tree do so, and leave all others as they
are. -/
theorem Fillable.run_rebuild {t : GraphTree} (ht : t.Fillable) (hs : s.Exclusive)
    (hwf : s.WellFormed) :
    let cs := t.rebuild s.graphs.length
    (∀ reply ∈ (s.run cs).1, ∃ answer, reply = .ok answer) ∧
      (s.run cs).2.tree? s.graphs.length = some t ∧
      ∀ h < s.graphs.length, s.AgreesAt (s.run cs).2 h := by
  intro cs
  obtain ⟨hreply, hagree, hlength, hblank, hnone⟩ := hs.run_create t.graph.kind t.graph.name
  obtain ⟨hs', hwf'⟩ := run_induction Move.wellFormed [.create (some t.graph.kind) t.graph.name]
    hs hwf
  obtain ⟨hfilled, -, htree⟩ := ht _ s.graphs.length hs' hwf'
    (by rw [hlength]; exact Nat.lt_succ_self _) hblank hnone
  rw [hlength] at hfilled htree
  have hcs : cs = [.create (some t.graph.kind) t.graph.name] ++
      t.fill s.graphs.length (s.graphs.length + 1) := rfl
  rw [hcs, replies_append, run_append]
  refine ⟨fun reply hmem => ?_, htree, fun h hh => ?_⟩
  · rw [hreply, List.mem_append, List.mem_singleton] at hmem
    exact hmem.elim (fun heq => ⟨_, heq⟩) (hfilled.succeeds reply)
  · exact (hagree h hh).trans (hfilled.frame h (by rw [hlength]; omega) (Nat.ne_of_lt hh))

/-- **A tree of well-formed graphs of one kind can be filled in.** -/
theorem OfKind.fillable {kind : Kind} {t : GraphTree} (ht : t.OfKind kind)
    (hwell : ∀ graph ∈ t.visited, graph.WellFormed) : t.Fillable := by
  induction ht with
  | @node graph ts hkind _ hts ih =>
    intro s g hs hwf hlt hgraph hnone
    rw [visited_eq] at hwell
    have hedits := (hwell graph (List.mem_append_right _ List.mem_cons_self)).edits_changes
    obtain ⟨hchanged, hgraph', hsub, hlength⟩ := hs.run_changes hwf hgraph hedits
    obtain ⟨hs', hwf'⟩ := run_induction Move.wellFormed (graph.changes.map (.edit g)) hs hwf
    have hts' : ∀ t ∈ ts, t.Fillable := fun t ht => ih t ht fun q hq =>
      hwell q (List.mem_append_left _ (List.mem_flatMap.mpr ⟨t, ht, hq⟩))
    obtain ⟨hfilled, hlength', hgraph'', is, hsub', htrees⟩ := run_fillAll hts'
      (fun t ht => (hts t ht).kind_eq.trans hkind.symm) hs' hwf' hgraph'
    rw [hlength] at hfilled hlength' hgraph'' hsub' htrees
    rw [fill, run_append]
    refine ⟨hchanged.append hfilled (.inl rfl), ?_, ?_⟩
    · rw [hlength', visited, List.length_append]
      rfl
    · have hwf'' := (run_induction Move.wellFormed (fillAll g s.graphs.length ts) hs' hwf').2
      obtain ⟨r, hr, hview⟩ := Option.map_eq_some_iff.mp hgraph''
      obtain ⟨us, htree, hus⟩ := hwf''.forest.tree?_eq_node hr
      rw [hsub', hsub, hnone, List.nil_append, htrees] at hus
      rw [htree, hview, List.map_injective_iff.mpr (fun _ _ => Option.some.inj) hus]

end GraphTree

namespace Session

variable {s : Session} {g : Nat} {t : GraphTree}

/-- All graphs of a tree of a well-formed session are well formed. -/
theorem WellFormed.of_mem_visited (hs : s.WellFormed) (ht : s.tree? g = some t) :
    ∀ graph ∈ t.visited, graph.WellFormed := by
  induction g using hs.forest.wellFounded.induction generalizing t with
  | _ g ih =>
    obtain ⟨r, hr⟩ := exists_record_of_tree? ht
    rw [tree?_eq hs.forest.ordered hr] at ht
    obtain rfl := Option.some.inj ht
    intro graph hgraph
    rw [GraphTree.visited_eq, List.mem_append, List.mem_flatMap, List.mem_singleton] at hgraph
    rcases hgraph with ⟨t, ht, hgraph⟩ | rfl
    · obtain ⟨i, hi, hti⟩ := List.mem_filterMap.mp ht
      exact ih i (isSubgraph_iff.mpr ⟨_, hr, hi⟩) hti graph hgraph
    · exact hs.view hr

/-- What is asked for of a graph is what its tree shows, and the numbers of the graphs inside it. -/
theorem WellFormed.step_contents (hwf : s.WellFormed) (ht : s.tree? g = some t) :
    (s.step (.contents g)).1 = .ok (.contents t.graph (s.subgraphs g)) ∧
      (s.subgraphs g).map s.tree? = t.subgraphs.map some := by
  obtain ⟨r, hr⟩ := exists_record_of_tree? ht
  obtain ⟨ts, hnode, hts⟩ := hwf.forest.tree?_eq_node hr
  obtain rfl := Option.some.inj (ht.symm.trans hnode)
  rw [step, record_eq_ok_iff.mpr hr]
  exact ⟨rfl, hts.symm⟩

/-- **Every graph can be built again from what can be read off it.** Whatever commands led to a
graph, and in whatever session that commands lead to the graph is built again as the graph with the
next number:

* all commands that build it succeed;
* the new graph has the same tree: kind and name, attributes, nodes and edges with their attributes
  in their order, edges in their orientation, and the same for each subgraph;
* so the contents asked for are the same but for the numbers of the subgraphs, and every question
  has the same answer;
* the graphs that were there before are as they were. -/
theorem tree?_rebuild (cs cs' : List Command) {g : Nat} {t : GraphTree}
    (ht : (run {} cs).2.tree? g = some t) :
    let s := (run {} cs').2
    let n := s.graphs.length
    let replies := (s.run (t.rebuild n)).1
    let s' := (s.run (t.rebuild n)).2
    (∀ reply ∈ replies, ∃ answer, reply = .ok answer) ∧
    s'.tree? n = some t ∧
    ((s'.step (.contents n)).1 = .ok (.contents t.graph (s'.subgraphs n)) ∧
      (s'.subgraphs n).map s'.tree? = t.subgraphs.map some) ∧
    (∀ query, (s'.step (.ask n query)).1 = ((run {} cs).2.step (.ask g query)).1) ∧
    ∀ h < n, s'.tree? h = s.tree? h := by
  intro s n replies s'
  have hread := (run_induction Move.wellFormed cs exclusive_empty wellFormed_empty).2
  obtain ⟨hs, hwf⟩ := run_induction Move.wellFormed cs' exclusive_empty wellFormed_empty
  obtain ⟨hs', hwf'⟩ := run_induction Move.wellFormed (t.rebuild n) hs hwf
  obtain ⟨kind, hkind⟩ := ofKind_run cs ht
  obtain ⟨hok, htree, hagree⟩ := (hkind.fillable (hread.of_mem_visited ht)).run_rebuild hs hwf
  refine ⟨hok, htree, hwf'.step_contents htree, fun query => ?_, fun h hh => ?_⟩
  · rw [step_ask htree, step_ask ht]
  · exact hwf.forest.tree?_congr hwf'.forest (fun i _ hi => hagree i hi) (Nat.zero_le h) hh

/-- A graph without directions that is built again after a detour: an edge went and came back from
its other end, a command broke off at a malformed pair, a node was written to through its store, the
graph was renamed, and there is a graph inside it. -/
theorem tree?_rebuild_detour :
    let cs : List Command := [.create (some .undirected) "G",
      .edit 0 (.addEdge (.edge ⟨.undirected, "a", "b"⟩) {} none),
      .edit 0 (.addNode "a" ⟨[["k", "v"]], ∅⟩ (some "a")),
      .edit 0 (.eraseEdge (.edge ⟨.undirected, "b", "a"⟩)),
      .subgraph 0 "S",
      .edit 0 (.addEdge (.edge ⟨.undirected, "b", "a"⟩) ⟨[["w", "1"], ["k"]], ∅⟩ none),
      .editStore "a" (.set "k" "w"),
      .edit 1 (.setAttr "rank" "same"),
      .edit 0 (.rename "H")]
    let s := (run {} cs).2
    let t : GraphTree := .node
      { kind := .undirected
        name := "H"
        nodes := ⟨[("a", ⟨[("k", "w")]⟩)]⟩
        edges := ⟨[(⟨.undirected, "b", "a"⟩, ⟨[("w", "1")]⟩)]⟩ }
      [.node { kind := .undirected, name := "S", attrs := ⟨[("rank", "same")]⟩ } []]
    s.tree? 0 = some t ∧ (s.run (t.rebuild 2)).2.tree? 2 = some t ∧
      (s.run (t.rebuild 2)).2.tree? 0 = some t := by
  intro cs s t
  have ht : s.tree? 0 = some t := by rfl
  obtain ⟨-, htree, -, -, hframe⟩ := tree?_rebuild cs cs ht
  exact ⟨ht, htree, (hframe 0 (by decide)).trans ht⟩

end Session

end GraphScript
