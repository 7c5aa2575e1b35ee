import GraphScript.Proofs.Incidence
import GraphScript.Proofs.Merging

/-!
# Names of nodes

A name is that of a node if it is in the table of nodes or is an end of an edge. No table holds
these names: each question that is about them looks through both tables in its own way. This module
says that the answers agree, and how the names change from command to command.

* **The list** (`Graph.exists_nodeNames_eq`): the table of nodes comes first and in its order, then
  the other ends of edges, in the order in which they first appear.
* **One command** (`Session.Exclusive.exists_turns_step`): what it leaves in the two tables and what
  it puts there.
* **Coming and going** (`Command.Brings`, `Command.Takes`): a name comes with its node or with an
  edge at it. It goes only with the last that was there of it, so the name of a node that is erased
  stays as long as an edge touches it, and the ends of an edge that is erased stay as long as
  anything else has them.
-/

namespace GraphScript

/-! ### Commands that bring names and take them -/

namespace Command

/-- A command that wants a name to be that of a node: it adds the node or gives an attribute of it a
value, or it does so with an edge at this node. The edge has to be one that the graph takes. -/
inductive Brings (g : Nat) (graph : Graph) (name : String) : Command → Prop
  | node {change : GraphEdit} (h : change.wantedNode? = some name) :
    Brings g graph name (.edit g change)
  | edge {change : GraphEdit} {e : Edge} (h : change.wantedEdge? = some (.edge e))
    (hkind : e.kind = graph.kind) (hend : e.tail = name ∨ e.head = name) :
    Brings g graph name (.edit g change)

/-- A command that takes the last that there is of a node: the node itself, when no edge touches it,
or the only edge that touches it, when it is not in the table. The edge may be written in any way
that is equal. -/
inductive Takes (g : Nat) (graph : Graph) (name : String) : Command → Prop
  | node (htable : name ∈ graph.nodes.keys) (hedges : graph.edgesAt .either name = []) :
    Takes g graph name (.edit g (.eraseNode name))
  | edge {e last : Edge} (htable : name ∉ graph.nodes.keys)
    (hedges : graph.edgesAt .either name = [last]) (hsame : (last == e) = true) :
    Takes g graph name (.edit g (.eraseEdge (.edge e)))

end Command

/-! ### The list of names -/

namespace Graph

variable {g : Graph} {name : String}

/-- The ends of all edges, in the order of the table and the tail of an edge before its head. -/
def ends (g : Graph) : List String := g.edges.keys.flatMap fun e => [e.tail, e.head]

theorem mem_edgesAt_either {e : Edge} :
    e ∈ g.edgesAt .either name ↔ e ∈ g.edges.keys ∧ e.touches name = true :=
  mem_edgesAt_iff

theorem mem_nodeNames_iff_touches :
    name ∈ g.nodeNames ↔ name ∈ g.nodes.keys ∨ ∃ e ∈ g.edges.keys, e.touches name = true := by
  simp only [mem_nodeNames_iff, Edge.touches, Bool.or_eq_true, beq_iff_eq, @eq_comm _ name]

/-- A name is that of a node if it is in the table or some edge meets it. -/
theorem mem_nodeNames_iff_edgesAt :
    name ∈ g.nodeNames ↔ name ∈ g.nodes.keys ∨ g.edgesAt .either name ≠ [] := by
  simp only [mem_nodeNames_iff_touches, ne_eq, List.eq_nil_iff_forall_not_mem, mem_edgesAt_either,
    not_forall, not_not]

/-- **The nodes of the table are listed first**, and the others in the order in which they first
appear as ends of edges. -/
theorem exists_nodeNames_eq (hnodes : g.nodes.keys.Nodup) :
    ∃ others, g.nodeNames = g.nodes.keys ++ others ∧
      (∀ name, name ∈ others ↔ name ∉ g.nodes.keys ∧ name ∈ g.ends) ∧
      others.Pairwise fun m n => g.ends.idxOf m < g.ends.idxOf n := by
  let others := (g.ends.removeAll g.nodes.keys).eraseDups
  have hnames : g.nodeNames = g.nodes.keys ++ others := by
    rw [nodeNames, List.eraseDups_append, eraseDups_of_nodup hnodes]
    rfl
  have hmem : ∀ name, name ∈ others ↔ name ∉ g.nodes.keys ∧ name ∈ g.ends := fun name => by
    rw [List.mem_eraseDups, List.removeAll, List.mem_filter, Bool.not_eq_true', and_comm,
      ← Bool.not_eq_true, List.elem_iff]
  refine ⟨others, hnames, hmem, ?_⟩
  -- behind the table, places in the whole list are places among the ends, shifted
  have horder := pairwise_idxOf_eraseDups (g.nodes.keys ++ g.ends)
  have hplace : ∀ name ∈ others, (g.nodes.keys ++ g.ends).idxOf name =
      g.ends.idxOf name + g.nodes.keys.length := fun name hname => by
    rw [List.idxOf_append, if_neg ((hmem name).mp hname).1]
  change g.nodeNames.Pairwise _ at horder
  rw [hnames, List.pairwise_append] at horder
  refine horder.2.1.imp_of_mem fun hm hn hlt => ?_
  rw [hplace _ hm, hplace _ hn] at hlt
  exact Nat.lt_of_add_lt_add_right hlt

end Graph

/-! ### Events of commands -/

namespace Event

variable {κ : Type} [BEq κ]

/-- The keys after an event are those that did not go, and the one that came. -/
theorem mem_elim_shift {ev? : Option (Event κ)} {keys : List κ} {k : κ} :
    k ∈ ev?.elim keys (·.shift keys) ↔
      (k ∈ keys ∧ ∀ j, ev? = some (.removed j) → (k == j) = false) ∨ ev? = some (.created k) := by
  match ev? with
  | none => simp
  | some (.created j) => simp [shift, eq_comm (a := k)]
  | some (.removed j) => simp [shift]

end Event

/-- Only an edge that a graph takes comes to it. -/
theorem Kind.bind_creation?_eq_some_iff {kind : Kind} {item? : Option Item} {ev : Event Edge} :
    item?.bind kind.creation? = some ev ↔
      ∃ e, item? = some (.edge e) ∧ e.kind = kind ∧ ev = .created e := by
  cases item? with
  | none => simp
  | some item =>
    simp only [Option.bind_some, Option.some.injEq]
    cases hitem : kind.edgeOf item with
    | error err =>
      rw [Kind.creation?_of_error hitem]
      refine ⟨fun h => (by cases h), ?_⟩
      rintro ⟨e, rfl, hkind, -⟩
      rw [Kind.edgeOf_eq_ok_iff.mpr ⟨rfl, hkind⟩] at hitem
      cases hitem
    | ok e =>
      rw [Kind.creation?_of_ok hitem, Option.some.injEq]
      obtain ⟨rfl, hkind⟩ := Kind.edgeOf_eq_ok_iff.mp hitem
      refine ⟨fun h => ⟨e, rfl, hkind, h.symm⟩, ?_⟩
      rintro ⟨f, hf, -, rfl⟩
      rw [Item.edge.inj hf]

namespace GraphEdit

variable {change : GraphEdit} {kind : Kind} {name : String} {e : Edge}

theorem nodeEvent?_eq_created_iff :
    change.nodeEvent? = some (.created name) ↔ change.wantedNode? = some name := by
  cases change with
  | eraseNode node => simp [nodeEvent?, wantedNode?]
  | _ => simp [nodeEvent?]

theorem nodeEvent?_eq_removed_iff :
    change.nodeEvent? = some (.removed name) ↔ change = .eraseNode name := by
  cases change with
  | eraseNode node => simp [nodeEvent?]
  | _ => simp [nodeEvent?]

theorem edgeEvent?_eq_created_iff : change.edgeEvent? kind = some (.created e) ↔
    change.wantedEdge? = some (.edge e) ∧ e.kind = kind := by
  cases change with
  | eraseEdge item => simp [edgeEvent?, wantedEdge?]
  | _ => simp [edgeEvent?, Kind.bind_creation?_eq_some_iff]

theorem edgeEvent?_eq_removed_iff :
    change.edgeEvent? kind = some (.removed e) ↔ change = .eraseEdge (.edge e) := by
  cases change with
  | eraseEdge item => cases item <;> simp [edgeEvent?, Item.edge?]
  | _ => simp [edgeEvent?, Kind.bind_creation?_eq_some_iff]

end GraphEdit

namespace Session

variable {s : Session} {g : Nat} {graph : Graph} {c : Command} {name : String} {e : Edge}

/-- An event is one of a change that can do this now. -/
theorem tableEvent?_eq_some_iff {κ : Type} [BEq κ] {table : Graph → Table κ Attributes}
    {event? : Kind → GraphEdit → Option (Event κ)} (hg : s.graph? g = some graph) {ev : Event κ} :
    s.tableEvent? table event? g c = some ev ↔ ∃ change, c = .edit g change ∧
      event? graph.kind change = some ev ∧ ev.happens (table graph) = true := by
  by_cases hc : ∃ change, c = .edit g change
  · obtain ⟨change, rfl⟩ := hc
    rw [tableEvent?_edit hg, Option.filter_eq_some_iff]
    refine ⟨fun h => ⟨change, rfl, h⟩, ?_⟩
    rintro ⟨change', hchange, h⟩
    cases hchange
    exact h
  · rw [tableEvent?_of_ne fun change he => hc ⟨change, he⟩]
    refine ⟨fun h => (by cases h), ?_⟩
    rintro ⟨change, rfl, -⟩
    exact absurd ⟨change, rfl⟩ hc

theorem nodeEvent?_eq_created_iff (hg : s.graph? g = some graph) :
    s.nodeEvent? g c = some (.created name) ↔
      ∃ change, c = .edit g change ∧ change.wantedNode? = some name ∧ name ∉ graph.nodes.keys := by
  simp only [nodeEvent?, tableEvent?_eq_some_iff hg, GraphEdit.nodeEvent?_eq_created_iff,
    Event.happens, Bool.not_eq_true', ← Bool.not_eq_true, Table.mem_keys_iff]

theorem nodeEvent?_eq_removed_iff (hg : s.graph? g = some graph) :
    s.nodeEvent? g c = some (.removed name) ↔
      c = .edit g (.eraseNode name) ∧ name ∈ graph.nodes.keys := by
  simp only [nodeEvent?, tableEvent?_eq_some_iff hg, GraphEdit.nodeEvent?_eq_removed_iff,
    Event.happens, Table.mem_keys_iff]
  constructor
  · rintro ⟨_, rfl, rfl, h⟩
    exact ⟨rfl, h⟩
  · rintro ⟨rfl, h⟩
    exact ⟨_, rfl, rfl, h⟩

theorem edgeEvent?_eq_created_iff (hg : s.graph? g = some graph) :
    s.edgeEvent? g c = some (.created e) ↔ ∃ change, c = .edit g change ∧
      change.wantedEdge? = some (.edge e) ∧ e.kind = graph.kind ∧
        graph.edges.contains e = false := by
  simp only [edgeEvent?, tableEvent?_eq_some_iff hg, GraphEdit.edgeEvent?_eq_created_iff,
    Event.happens, Bool.not_eq_true', and_assoc]

theorem edgeEvent?_eq_removed_iff (hg : s.graph? g = some graph) :
    s.edgeEvent? g c = some (.removed e) ↔
      c = .edit g (.eraseEdge (.edge e)) ∧ graph.edges.contains e = true := by
  simp only [edgeEvent?, tableEvent?_eq_some_iff hg, GraphEdit.edgeEvent?_eq_removed_iff,
    Event.happens]
  constructor
  · rintro ⟨_, rfl, rfl, h⟩
    exact ⟨rfl, h⟩
  · rintro ⟨rfl, h⟩
    exact ⟨_, rfl, rfl, h⟩

end Session

/-! ### One command -/

/-- What a command makes of the tables of a graph: what stood there and is not erased stays, and
what the command wants comes, if no equal key is there. -/
structure Command.Turns (g : Nat) (c : Command) (graph graph' : Graph) : Prop where
  nodes (name : String) : name ∈ graph'.nodes.keys ↔
    (name ∈ graph.nodes.keys ∧ c ≠ .edit g (.eraseNode name)) ∨
      ∃ change, c = .edit g change ∧ change.wantedNode? = some name ∧ name ∉ graph.nodes.keys
  edges (e : Edge) : e ∈ graph'.edges.keys ↔
    (e ∈ graph.edges.keys ∧ ∀ f, c = .edit g (.eraseEdge (.edge f)) → (e == f) = false) ∨
      ∃ change, c = .edit g change ∧ change.wantedEdge? = some (.edge e) ∧ e.kind = graph.kind ∧
        graph.edges.contains e = false

/-- **A command turns the tables of a graph** into what it leaves there and what it wants. -/
theorem Session.Exclusive.exists_turns_step {s : Session} (hs : s.Exclusive) {g : Nat}
    {graph : Graph} (hg : s.graph? g = some graph) (c : Command) :
    ∃ graph', (s.step c).2.graph? g = some graph' ∧ c.Turns g graph graph' := by
  obtain ⟨graph', hg', hnodes, hedges⟩ := hs.keys_step hg c
  refine ⟨graph', hg', fun name => ?_, fun e => ?_⟩
  · rw [hnodes, Event.mem_elim_shift, nodeEvent?_eq_created_iff hg]
    refine or_congr_left (and_congr_right fun hname => ⟨?_, ?_⟩)
    · intro hkept hc
      have hne := hkept name ((nodeEvent?_eq_removed_iff hg).mpr ⟨hc, hname⟩)
      rw [BEq.rfl] at hne
      cases hne
    · intro hc other hother
      refine beq_eq_false_iff_ne.mpr fun hsame => hc ?_
      rw [hsame]
      exact ((nodeEvent?_eq_removed_iff hg).mp hother).1
  · rw [hedges, Event.mem_elim_shift, edgeEvent?_eq_created_iff hg]
    refine or_congr_left (and_congr_right fun he => ⟨?_, ?_⟩)
    · intro hkept f hc
      refine Bool.eq_false_iff.mpr fun hsame => ?_
      -- an edge of the table that equals the erased one is what makes it found
      have hfound : graph.edges.contains f = true := by
        rw [Table.contains_eq_any_keys]
        exact List.any_eq_true.mpr ⟨e, he, hsame⟩
      rw [hkept f ((edgeEvent?_eq_removed_iff hg).mpr ⟨hc, hfound⟩)] at hsame
      cases hsame
    · intro hkept f hf
      exact hkept f ((edgeEvent?_eq_removed_iff hg).mp hf).1

namespace Graph

variable {graph : Graph} {name : String}

theorem exists_touches_of_contains {e : Edge} (he : graph.edges.contains e = true)
    (hend : e.touches name = true) : ∃ f ∈ graph.edges.keys, f.touches name = true := by
  rw [Table.contains_eq_any_keys, List.any_eq_true] at he
  obtain ⟨f, hf, hsame⟩ := he
  exact ⟨f, hf, (Edge.touches_congr hsame name).trans hend⟩

/-- The edges at a node are one edge, if all of them equal it. -/
theorem edgesAt_eq_singleton {last : Edge} (hdistinct : graph.edges.Distinct)
    (hlast : last ∈ graph.edgesAt .either name)
    (hsame : ∀ e ∈ graph.edgesAt .either name, (e == last) = true) :
    graph.edgesAt .either name = [last] := by
  have hnodup : (graph.edgesAt .either name).Nodup := hdistinct.nodup_keys.filter _
  refine List.perm_singleton.mp ((List.perm_ext_iff_of_nodup hnodup
    (List.nodup_singleton last)).mpr fun e => ?_)
  rw [List.mem_singleton]
  refine ⟨fun he => ?_, fun he => he ▸ hlast⟩
  exact hdistinct.eq_of_beq (mem_edgesAt_either.mp he).1 (mem_edgesAt_either.mp hlast).1
    (hsame e he)

end Graph

namespace Command.Turns

variable {g : Nat} {c : Command} {graph graph' : Graph} {name : String}

/-- **A name comes with its node or with an edge at it.** -/
theorem mem_iff_brings (h : c.Turns g graph graph') (hname : name ∉ graph.nodeNames) :
    name ∈ graph'.nodeNames ↔ c.Brings g graph name := by
  rw [Graph.mem_nodeNames_iff_touches, not_or] at hname
  rw [Graph.mem_nodeNames_iff_touches]
  constructor
  · rintro (htable | ⟨e, he, hend⟩)
    · rcases (h.nodes name).mp htable with ⟨hold, -⟩ | ⟨change, rfl, hwanted, -⟩
      · exact absurd hold hname.1
      · exact .node hwanted
    · rcases (h.edges e).mp he with ⟨hold, -⟩ | ⟨change, rfl, hwanted, hkind, -⟩
      · exact absurd ⟨e, hold, hend⟩ hname.2
      · exact .edge hwanted hkind (by simpa [Edge.touches] using hend)
  · rintro (@⟨change, hwanted⟩ | @⟨change, e, hwanted, hkind, hend⟩)
    · exact .inl ((h.nodes name).mpr (.inr ⟨change, rfl, hwanted, hname.1⟩))
    · have htouches : e.touches name = true := by simpa [Edge.touches] using hend
      -- if an equal edge were there, it would touch the node already
      have hnone : graph.edges.contains e = false := Bool.eq_false_iff.mpr fun he =>
        hname.2 (Graph.exists_touches_of_contains he htouches)
      exact .inr ⟨e, (h.edges e).mpr (.inr ⟨change, rfl, hwanted, hkind, hnone⟩), htouches⟩

/-- A name that is gone was taken: it went with its node if this was in the table, and with an edge
if not. -/
theorem takes_of_not_mem (h : c.Turns g graph graph') (hdistinct : graph.edges.Distinct)
    (hname : name ∈ graph.nodeNames) (hgone : name ∉ graph'.nodeNames) :
    c.Takes g graph name := by
  rw [Graph.mem_nodeNames_iff_touches] at hname
  rw [Graph.mem_nodeNames_iff_touches, not_or] at hgone
  by_cases htable : name ∈ graph.nodes.keys
  · -- the node itself was erased, so the edges are those from before
    have hc : c = .edit g (.eraseNode name) := by
      by_contra hc
      exact hgone.1 ((h.nodes name).mpr (.inl ⟨htable, hc⟩))
    subst hc
    refine .node htable (List.eq_nil_iff_forall_not_mem.mpr fun e he => hgone.2 ?_)
    obtain ⟨hkey, hend⟩ := Graph.mem_edgesAt_either.mp he
    exact ⟨e, (h.edges e).mpr (.inl ⟨hkey, fun f hf => by cases hf⟩), hend⟩
  · -- every edge at the node equals the one that was erased
    have herased : ∀ e ∈ graph.edgesAt .either name,
        ∃ f, c = .edit g (.eraseEdge (.edge f)) ∧ (e == f) = true := by
      intro e he
      obtain ⟨hkey, hend⟩ := Graph.mem_edgesAt_either.mp he
      by_contra hnot
      refine hgone.2 ⟨e, (h.edges e).mpr (.inl ⟨hkey, fun f hf => ?_⟩), hend⟩
      exact Bool.eq_false_iff.mpr fun hsame => hnot ⟨f, hf, hsame⟩
    obtain ⟨last, hkey, hend⟩ := hname.resolve_left htable
    have hlast := Graph.mem_edgesAt_either.mpr ⟨hkey, hend⟩
    obtain ⟨f, rfl, hsame⟩ := herased last hlast
    refine .edge htable (Graph.edgesAt_eq_singleton hdistinct hlast fun e he => ?_) hsame
    obtain ⟨f', hf', hsame'⟩ := herased e he
    cases hf'
    exact BEq.trans hsame' (BEq.symm hsame)

/-- A name that is taken is gone: neither the table nor an edge has it any more. -/
theorem not_mem_of_takes (h : c.Turns g graph graph') (htakes : c.Takes g graph name) :
    name ∉ graph'.nodeNames := by
  rw [Graph.mem_nodeNames_iff_touches, not_or]
  obtain ⟨htable, hnone⟩ | @⟨e, last, htable, hlast, hsame⟩ := htakes
  · have hedges : ∀ e, e ∈ graph'.edges.keys ↔ e ∈ graph.edges.keys := fun e => by
      simp [h.edges, GraphEdit.wantedEdge?]
    refine ⟨by simp [h.nodes, GraphEdit.wantedNode?], ?_⟩
    rintro ⟨e, he, hend⟩
    have hmem := Graph.mem_edgesAt_either.mpr ⟨(hedges e).mp he, hend⟩
    rw [hnone] at hmem
    cases hmem
  · have hedges : ∀ f, f ∈ graph'.edges.keys ↔ f ∈ graph.edges.keys ∧ (f == e) = false := by
      intro f
      simp [h.edges, GraphEdit.wantedEdge?]
    refine ⟨by simp [h.nodes, GraphEdit.wantedNode?, htable], ?_⟩
    rintro ⟨f, hf, hend⟩
    obtain ⟨hkey, hne⟩ := (hedges f).mp hf
    have hmem := Graph.mem_edgesAt_either.mpr ⟨hkey, hend⟩
    rw [hlast, List.mem_singleton] at hmem
    rw [hmem, hsame] at hne
    cases hne

end Command.Turns

/-! ### Answers about names -/

namespace Session

variable {s : Session} {g : Nat} {graph : Graph}

/-- How the answers about the names of nodes agree, and how one command changes the names. -/
structure NodeViews (s : Session) (g : Nat) (graph : Graph) : Prop where
  listed : (s.step (.ask g .nodeNames)).1 = .ok (.names graph.nodeNames)
  /-- No name is listed twice. Those of the table come first and in its order, and then the other
  ends of edges, in the order in which they first appear. -/
  order : graph.nodeNames.Nodup ∧ ∃ others, graph.nodeNames = graph.nodes.keys ++ others ∧
    (∀ name, name ∈ others ↔ name ∉ graph.nodes.keys ∧ name ∈ graph.ends) ∧
    others.Pairwise fun m n => graph.ends.idxOf m < graph.ends.idxOf n
  /-- The names that are listed are those of nodes. -/
  hasNode (name : String) : (s.step (.ask g (.hasNode name))).1 =
    .ok (.truth (decide (name ∈ graph.nodeNames)))
  /-- They are the names that the graph holds. -/
  holds (name : String) : (s.step (.ask g (.holds (.text name)))).1 =
    .ok (.truth (decide (name ∈ graph.nodeNames)))
  /-- They are the names in the table and those at which edges are found. -/
  met (name : String) : name ∈ graph.nodeNames ↔ name ∈ graph.nodes.keys ∨
    ∃ e es, (s.step (.ask g (.walk .either name))).1 = .ok (.edges (e :: es))
  /-- By one more command a name comes that the command brings, and one goes that it takes. -/
  step (c : Command) : ∃ graph', (s.step c).2.graph? g = some graph' ∧ ∀ name,
    (name ∉ graph.nodeNames → (name ∈ graph'.nodeNames ↔ c.Brings g graph name)) ∧
    (name ∈ graph.nodeNames → (name ∉ graph'.nodeNames ↔ c.Takes g graph name))

/-- The edges at a node, as they are answered. -/
theorem step_walk_either (hg : s.graph? g = some graph) (name : String) :
    (s.step (.ask g (.walk .either name))).1 = .ok (.edges (graph.edgesAt .either name)) := by
  obtain ⟨t, ht, rfl⟩ := exists_tree?_of_graph? hg
  rw [step_ask ht, GraphTree.answer, Graph.walk, Kind.allows_either]
  rfl

/-- **All answers about the names of nodes agree**, and a name comes and goes with what there is of
its node, in every graph that commands lead to. -/
theorem nodeViews_run (cs : List Command) (g : Nat) {graph : Graph}
    (hg : (run {} cs).2.graph? g = some graph) : (run {} cs).2.NodeViews g graph := by
  obtain ⟨hs, hwf⟩ := run_induction Move.wellFormed cs exclusive_empty wellFormed_empty
  obtain ⟨t, ht, htree⟩ := exists_tree?_of_graph? hg
  obtain ⟨r, hr, hview⟩ := Option.map_eq_some_iff.mp hg
  have hgraph : graph.WellFormed := hview ▸ hwf.view hr
  have hasNode (name : String) : graph.hasNode name = decide (name ∈ graph.nodeNames) := by
    rw [Bool.eq_iff_iff, decide_eq_true_iff, Graph.mem_nodeNames_iff_hasNode]
  constructor
  case listed =>
    rw [step_ask ht, GraphTree.answer, htree]
  case order =>
    exact ⟨graph.nodup_nodeNames, Graph.exists_nodeNames_eq hgraph.nodes.nodup_keys⟩
  case hasNode =>
    intro name
    rw [step_ask ht, GraphTree.answer, htree, hasNode]
  case holds =>
    intro name
    rw [step_ask ht, GraphTree.answer, htree, ← hasNode]
    rfl
  case met =>
    intro name
    rw [step_walk_either hg, Graph.mem_nodeNames_iff_edgesAt, List.ne_nil_iff_exists_cons]
    simp
  case step =>
    intro c
    obtain ⟨graph', hg', hturns⟩ := hs.exists_turns_step hg c
    refine ⟨graph', hg', fun name => ⟨hturns.mem_iff_brings, fun hname => ⟨?_, ?_⟩⟩⟩
    · exact hturns.takes_of_not_mem hgraph.edges hname
    · exact hturns.not_mem_of_takes

/-- A node that is erased stays as the end of an edge and is listed behind the others then. It goes
with this edge, from whichever end the edge is written. -/
theorem nodeViews_survivor :
    let edge : Item := .edge ⟨.undirected, "a", "b"⟩
    let swapped : Item := .edge ⟨.undirected, "b", "a"⟩
    let cs : List Command := [.create (some .undirected) "", .edit 0 (.addNode "b" {} none),
      .edit 0 (.addNode "c" {} none), .edit 0 (.addEdge edge {} none), .edit 0 (.eraseNode "b")]
    let s := (run {} cs).2
    (s.step (.ask 0 .nodeNames)).1 = .ok (.names ["c", "a", "b"]) ∧
      (s.step (.ask 0 (.hasNode "b"))).1 = .ok (.truth true) ∧
      ∃ graph', (s.step (.edit 0 (.eraseEdge swapped))).2.graph? 0 = some graph' ∧
        "b" ∉ graph'.nodeNames ∧ "c" ∈ graph'.nodeNames := by
  intro edge swapped cs s
  let graph : Graph :=
    { kind := .undirected, nodes := ⟨[("c", ∅)]⟩, edges := ⟨[(⟨.undirected, "a", "b"⟩, ∅)]⟩ }
  have hg : (run {} cs).2.graph? 0 = some graph := by rfl
  have views := nodeViews_run cs 0 hg
  have hnames : graph.nodeNames = ["c", "a", "b"] := by rfl
  obtain ⟨graph', hg', hrule⟩ := views.step (.edit 0 (.eraseEdge swapped))
  refine ⟨hnames ▸ views.listed, ?_, graph', hg', ?_, ?_⟩
  · rw [views.hasNode, hnames]
    rfl
  · exact ((hrule "b").2 (by rw [hnames]; decide)).mpr (.edge (by decide) rfl (by decide))
  · by_contra hgone
    have htakes := ((hrule "c").2 (by rw [hnames]; decide)).mp hgone
    dsimp only [swapped] at htakes
    cases htakes with
    | edge htable => exact htable (by decide)

end Session

end GraphScript
