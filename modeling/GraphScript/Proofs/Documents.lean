import GraphScript.Proofs.Grammar
import GraphScript.Proofs.WellFormed

/-!
# What documents say

The document of a graph is its script in writing. Two questions are answered here about the graphs
of every session that commands lead to.

* **Does a reader get the graph back?** `Session.read?_document`: exactly if the graph and all
  graphs inside it are `Graph.Readable`. Names of graphs, keys and values must have no colon and
  names of nodes at most two, and every piece between colons must have an even number of
  backslashes in front of each quotation mark and at its end. Otherwise the document is refused;
  it is never read as another graph.
* **Is anything lost in it?** `Session.document_injective`: never. Graphs with equal documents are
  equal in all that they hold, also where no reader can read them.
-/

namespace GraphScript

/-! ### Readable graphs -/

/-- A name with no more colons than allowed, in which a reader finds the ends of all quoted
pieces. -/
def Identifier.Readable (colons : Nat) (name : String) : Prop :=
  name.toList.count ':' ≤ colons ∧ ∀ piece ∈ segments name.toList, Closes piece

/-- Attributes with keys and values that a reader can read. -/
def Attributes.Readable (attrs : Attributes) : Prop :=
  ∀ a ∈ attrs.entries, Identifier.Readable 0 a.1 ∧ Identifier.Readable 0 a.2

/-- A graph that a reader can read. Nodes may be named with a port and a side of it. -/
structure Graph.Readable (g : Graph) : Prop where
  name : Identifier.Readable 0 g.name
  attrs : g.attrs.Readable
  nodes : ∀ n ∈ g.nodes.entries, Identifier.Readable 2 n.1 ∧ Attributes.Readable n.2
  edges : ∀ e ∈ g.edges.entries,
    Identifier.Readable 2 e.1.tail ∧ Identifier.Readable 2 e.1.head ∧ Attributes.Readable e.2

/-- A graph that a reader can read with all that is nested in it. -/
def GraphTree.Readable (t : GraphTree) : Prop := ∀ g ∈ t.visited, g.Readable

instance (cs : List Char) : Decidable (Identifier.Closes cs) :=
  decidable_of_iff _ (Identifier.closes_iff cs)

instance (colons : Nat) (name : String) : Decidable (Identifier.Readable colons name) :=
  inferInstanceAs (Decidable (_ ∧ _))

instance (attrs : Attributes) : Decidable attrs.Readable :=
  inferInstanceAs (Decidable (∀ a ∈ attrs.entries, _))

instance (g : Graph) : Decidable g.Readable :=
  decidable_of_iff (Identifier.Readable 0 g.name ∧ Attributes.Readable g.attrs ∧
      (∀ n ∈ g.nodes.entries, Identifier.Readable 2 n.1 ∧ Attributes.Readable n.2) ∧
      ∀ e ∈ g.edges.entries,
        Identifier.Readable 2 e.1.tail ∧ Identifier.Readable 2 e.1.head ∧ Attributes.Readable e.2)
    ⟨fun ⟨h₁, h₂, h₃, h₄⟩ => ⟨h₁, h₂, h₃, h₄⟩, fun ⟨h₁, h₂, h₃, h₄⟩ => ⟨h₁, h₂, h₃, h₄⟩⟩

instance (t : GraphTree) : Decidable t.Readable :=
  inferInstanceAs (Decidable (∀ g ∈ t.visited, _))

/-! ### Demands that can be met -/

namespace Identifier

theorem partCount_eq (name : String) : partCount name = name.toList.count ':' + 1 :=
  Text.length_split ':' name.toList

/-- Without backslashes nothing keeps a quoted text from closing. -/
theorem closes_of_not_mem {cs : List Char} (h : '\\' ∉ cs) : closes false cs = true := by
  induction cs with
  | nil => rfl
  | cons c cs ih =>
    have hc : c ≠ '\\' := fun hc => h (hc ▸ List.mem_cons_self)
    rw [closes, beq_false_of_ne hc]
    exact ih fun hcs => h (List.mem_cons_of_mem _ hcs)

/-- What is written without quotation marks needs no closing. -/
theorem closes_of_isPlain {cs : List Char} (h : isPlain cs = true) :
    closes false cs = true :=
  closes_of_not_mem fun hback =>
    absurd (Token.isBareChar_of_opens (Token.opens_of_isPlain h) hback) (by decide)

end Identifier

namespace Demand

/-- Whether a reader finds the ends of all quoted texts in what is demanded. -/
def closes : Demand → Bool
  | plain name | node name => (Identifier.segments name.toList).all (Identifier.closes false)
  | edge _ => true

/-- What can be demanded of a reader of the language, in a document of a kind. -/
def Readable (kind : Kind) : Demand → Prop
  | plain name => Identifier.Readable 0 name
  | node name => Identifier.Readable 2 name
  | edge k => k = kind

theorem readable_iff {kind : Kind} {d : Demand} :
    (d.closes && d.met .dot kind) = true ↔ d.Readable kind := by
  cases d with
  | plain name =>
    simp only [closes, met, Readable, Identifier.Readable, Arity.dot, Bool.and_eq_true,
      List.all_eq_true, Identifier.closes_iff, Identifier.partCount_eq, beq_iff_eq]
    rw [and_comm, Nat.add_eq_right, Nat.le_zero]
  | node name =>
    simp only [closes, met, Readable, Identifier.Readable, Arity.dot, Bool.and_eq_true,
      List.all_eq_true, Identifier.closes_iff, Identifier.partCount_eq, decide_eq_true_eq]
    rw [and_comm, Nat.add_le_add_iff_right]
  | edge k => simp [closes, met, Readable]

end Demand

/-! ### Quoted texts in a script -/

namespace Piece

/-- Whether a reader finds the ends of all quoted texts in a piece. -/
def closes (p : Piece) : Bool := p.lexemes.all Lexeme.closes

private theorem all_closes_plain (cs : List Char) :
    (cs.map Lexeme.plain).all Lexeme.closes = true := by
  simp [Lexeme.closes]

@[simp] theorem closes_space : space.closes = true := rfl

@[simp] theorem closes_newline : newline.closes = true := rfl

@[simp] theorem closes_sign (s : Sign) : (ofSign s).closes = true := rfl

@[simp] theorem closes_keyword (k : Keyword) : (token (.keyword k)).closes = true :=
  all_closes_plain k.word.toList

@[simp] theorem closes_connector (kind : Kind) : (token (.connector kind)).closes = true :=
  all_closes_plain kind.connector.toList

@[simp] theorem closes_name (name : String) :
    (ofName name).closes = (Identifier.segments name.toList).all (Identifier.closes false) := by
  have hsegment : ∀ part, (Lexeme.ofSegment part).all Lexeme.closes =
      Identifier.closes false part := by
    intro part
    rw [Lexeme.ofSegment]
    split
    · next h => rw [all_closes_plain, Identifier.closes_of_isPlain h]
    · simp [Lexeme.closes]
  change (Lexeme.ofParts _).all _ = _
  generalize Identifier.segments name.toList = parts
  fun_induction Lexeme.ofParts parts with
  | case1 => rfl
  | case2 part => simp [hsegment]
  | case3 part rest hne ih =>
    rw [List.all_append, List.all_cons, hsegment, ih, List.all_cons, Lexeme.closes, Bool.true_and]

end Piece

namespace Attributes

private theorem all_closes_pairsPieces (es : List (String × String)) :
    (pairsPieces es).all Piece.closes = (demands es).all Demand.closes := by
  fun_induction pairsPieces es with
  | case1 => rfl
  | case2 a => simp [pairPieces, demands, Demand.closes]
  | case3 a rest hne ih =>
    have hdemands : demands (a :: rest) = .plain a.1 :: .plain a.2 :: demands rest := rfl
    simp [pairPieces, ih, hdemands, Demand.closes]

end Attributes

namespace Statement

private theorem all_closes_linePieces (subject : List Piece) (attrs : Attributes) :
    (linePieces subject attrs).all Piece.closes =
      (subject.all Piece.closes && (Attributes.demands attrs.entries).all Demand.closes) := by
  obtain ⟨es⟩ := attrs
  rw [linePieces, ← Attributes.all_closes_pairsPieces]
  cases es with
  | nil => simp [Table.isEmpty, Attributes.pairsPieces]
  | cons e es => simp [Table.isEmpty, Attributes.pieces]

mutual

private theorem all_closes_pieces (s : Statement) :
    s.pieces.all Piece.closes = s.demands.all Demand.closes := by
  cases s with
  | subgraph name body =>
    have ih := all_closes_piecesAll body
    simp [pieces, demands, ih, Demand.closes]
  | assignment key value =>
    simp [pieces, Attributes.pairPieces, demands, Attributes.demands, Demand.closes]
  | node name attrs =>
    rw [pieces, all_closes_linePieces, demands]
    simp [Demand.closes]
  | edge e attrs =>
    rw [pieces, all_closes_linePieces, demands]
    simp [edgePieces, Edge.demands, Demand.closes, Bool.and_assoc]

private theorem all_closes_piecesAll (ss : List Statement) :
    (piecesAll ss).all Piece.closes = (demandsAll ss).all Demand.closes := by
  cases ss with
  | nil => rfl
  | cons s ss =>
    rw [piecesAll, demandsAll, List.all_append, List.all_append, all_closes_pieces s,
      all_closes_piecesAll ss]

end

end Statement

/-! ### Reading a script -/

namespace Script

/-- The lexemes that a script is written with. -/
private theorem legal_pieces (s : Script) : ∀ l ∈ s.pieces.flatMap Piece.lexemes, l.Legal := by
  intro l hl
  obtain ⟨p, -, hl⟩ := List.mem_flatMap.mp hl
  exact p.legal l hl

/-- **A script is read back if its quoted texts close and its demands are met, and refused
otherwise.** -/
theorem read?_text (a : Arity) (s : Script) :
    read? a s.text = given (s.demands.all fun d => d.closes && d.met a s.kind) s := by
  have hcloses : (s.pieces.flatMap Piece.lexemes).all Lexeme.closes =
      s.demands.all Demand.closes := by
    have hbody := Statement.all_closes_piecesAll s.body
    rw [List.all_flatMap]
    change s.pieces.all Piece.closes = _
    simp [pieces, demands, hbody, Demand.closes]
  have hall : (s.demands.all fun d => d.closes && d.met a s.kind) =
      (s.demands.all Demand.closes && s.demands.all (Demand.met a s.kind)) := by
    rw [Bool.eq_iff_iff]
    simp only [Bool.and_eq_true, List.all_eq_true, forall_and]
  -- what does not close is refused before any demand is looked at
  rw [read?, toList_text, Piece.chars, Lexeme.cut_textAll s.legal_pieces, hcloses, hall]
  cases s.demands.all Demand.closes
  · rfl
  · rw [if_pos rfl, Option.bind_some, ofLexemes?_pieces, parse_pieces, Bool.true_and]

/-- **Scripts in writing can be told apart**, if their edges are of the kinds of the scripts. -/
theorem text_injective {s s' : Script} (hs : ∀ k, .edge k ∈ s.demands → k = s.kind)
    (hs' : ∀ k, .edge k ∈ s'.demands → k = s'.kind) (h : s.text = s'.text) : s = s' := by
  -- to a reader that allows names of any number of parts, the lexemes say it all
  let any : Arity := ⟨fun _ => true, fun _ => true⟩
  have hmet : ∀ {s : Script}, (∀ k, .edge k ∈ s.demands → k = s.kind) →
      ofLexemes? any (s.pieces.flatMap Piece.lexemes) = some s := by
    intro s hs
    rw [ofLexemes?_pieces, parse_pieces]
    have hall : s.demands.all (Demand.met any s.kind) = true := by
      rw [List.all_eq_true]
      intro d hd
      cases d with
      | plain name | node name => rfl
      | edge k => exact beq_iff_eq.mpr (hs k hd)
    rw [hall, given_true]
  have hchars := congrArg String.toList h
  rw [toList_text, toList_text] at hchars
  have hlexemes := Lexeme.textAll_injective s.legal_pieces s'.legal_pieces hchars
  have hread := hmet hs
  rw [hlexemes, hmet hs'] at hread
  exact (Option.some.inj hread).symm

end Script

/-! ### Demands of a graph -/

/-- The demands of a graph without its subgraphs. -/
def Graph.demands (g : Graph) : List Demand := .plain g.name :: Statement.demandsAll g.statements

theorem Attributes.forall_demands_iff {kind : Kind} {attrs : Attributes} :
    (∀ d ∈ Attributes.demands attrs.entries, d.Readable kind) ↔ attrs.Readable := by
  simp only [Attributes.demands, Attributes.Readable, List.mem_flatMap, forall_exists_index,
    and_imp, List.mem_cons, List.not_mem_nil, or_false, or_imp, forall_and]
  constructor
  · rintro ⟨hk, hv⟩
    exact ⟨fun a ha => hk _ a ha rfl, fun a ha => hv _ a ha rfl⟩
  · rintro ⟨hk, hv⟩
    exact ⟨fun d a ha hd => hd ▸ hk a ha, fun d a ha hd => hd ▸ hv a ha⟩

/-- The demands of a graph can be met exactly if it is readable. -/
theorem Graph.forall_demands_iff {kind : Kind} {g : Graph}
    (he : ∀ e ∈ g.edges.keys, e.kind = kind) :
    (∀ d ∈ g.demands, d.Readable kind) ↔ g.Readable := by
  have hattrs : ∀ {attrs : Attributes},
      (∀ d ∈ Attributes.demands attrs.entries, d.Readable kind) ↔ attrs.Readable :=
    Attributes.forall_demands_iff
  have hassignments : (∀ d ∈ Statement.demandsAll g.assignments, d.Readable kind) ↔
      g.attrs.Readable := by
    rw [← hattrs, Statement.demandsAll_eq_flatMap, assignments, List.flatMap_map]
    rfl
  have hnodes : (∀ d ∈ Statement.demandsAll g.nodeStatements, d.Readable kind) ↔
      ∀ n ∈ g.nodes.entries, Identifier.Readable 2 n.1 ∧ Attributes.Readable n.2 := by
    rw [Statement.demandsAll_eq_flatMap, nodeStatements, List.flatMap_map]
    simp only [List.forall_mem_flatMap, Statement.demands, List.forall_mem_cons, hattrs]
    rfl
  have hedges : (∀ d ∈ Statement.demandsAll g.edgeStatements, d.Readable kind) ↔
      ∀ e ∈ g.edges.entries, Identifier.Readable 2 e.1.tail ∧ Identifier.Readable 2 e.1.head ∧
        Attributes.Readable e.2 := by
    rw [Statement.demandsAll_eq_flatMap, edgeStatements, List.flatMap_map]
    simp only [List.forall_mem_flatMap, Statement.demands, Edge.demands, List.forall_mem_append,
      List.forall_mem_cons, List.not_mem_nil, hattrs]
    refine forall₂_congr fun e hmem => ?_
    have hkind : e.1.kind = kind := he e.1 (List.mem_map_of_mem hmem)
    simp [Demand.Readable, hkind, and_assoc]
  rw [demands, List.forall_mem_cons, statements, Statement.demandsAll_eq_flatMap]
  simp only [List.flatMap_append, ← Statement.demandsAll_eq_flatMap, List.forall_mem_append,
    hassignments, hnodes, hedges]
  constructor
  · rintro ⟨hname, ⟨hattrs, hnodes⟩, hedges⟩
    exact ⟨hname, hattrs, hnodes, hedges⟩
  · intro h
    exact ⟨h.name, ⟨h.attrs, h.nodes⟩, h.edges⟩

theorem Graph.exists_of_edge_demand {g : Graph} {k : Kind} (h : .edge k ∈ g.demands) :
    ∃ e ∈ g.edges.keys, e.kind = k := by
  have hattrs : ∀ es : List (String × String), .edge k ∉ Attributes.demands es := by
    simp [Attributes.demands]
  have hplain : ∀ name, Demand.edge k ≠ .plain name := fun name h => by cases h
  have hnode : ∀ name, Demand.edge k ≠ .node name := fun name h => by cases h
  have hlist : .edge k ∈ Statement.demandsAll g.statements :=
    (List.mem_cons.mp h).resolve_left (hplain g.name)
  rw [Statement.demandsAll_eq_flatMap] at hlist
  obtain ⟨s, hs, hk⟩ := List.mem_flatMap.mp hlist
  rw [statements, List.mem_append, List.mem_append] at hs
  rcases hs with (hs | hs) | hs
  · obtain ⟨a, -, rfl⟩ := List.mem_map.mp hs
    exact absurd hk (hattrs _)
  · obtain ⟨n, -, rfl⟩ := List.mem_map.mp hs
    exact absurd ((List.mem_cons.mp hk).resolve_left (hnode n.1)) (hattrs _)
  · obtain ⟨e, he, rfl⟩ := List.mem_map.mp hs
    refine ⟨e.1, List.mem_map_of_mem he, ?_⟩
    rcases List.mem_append.mp hk with hk | hk
    · simpa [Edge.demands, eq_comm] using hk
    · exact absurd hk (hattrs _)

namespace GraphTree

variable {kind : Kind} {t : GraphTree}

/-- A script demands what the graphs in it demand. -/
theorem mem_demands_iff (h : t.OfKind kind) {d : Demand} :
    d ∈ (Script.ofTree t).demands ↔ ∃ g ∈ t.visited, d ∈ g.demands := by
  induction h with
  | @node g ts hg he hts ih =>
    -- a block demands what the script of its graph would demand on its own
    have hblocks : d ∈ Statement.demandsAll (ts.map block) ↔
        ∃ t ∈ ts, d ∈ (Script.ofTree t).demands := by
      rw [Statement.demandsAll_eq_flatMap, List.flatMap_map, List.mem_flatMap]
      rfl
    have hstatements : d ∈ (Script.ofTree (node g ts)).demands ↔
        d ∈ Statement.demandsAll (ts.map block) ∨ d ∈ g.demands := by
      rw [Script.demands, Script.ofTree, statements_eq, Statement.demandsAll_eq_flatMap,
        List.flatMap_append, ← Statement.demandsAll_eq_flatMap, ← Statement.demandsAll_eq_flatMap,
        Graph.demands, List.mem_cons, List.mem_append, List.mem_cons]
      exact or_left_comm
    rw [hstatements, hblocks, visited_eq]
    simp only [List.mem_append, List.mem_flatMap, List.mem_singleton, or_and_right, exists_or,
      exists_eq_left, graph, subgraphs]
    refine or_congr_left ?_
    constructor
    · rintro ⟨t, ht, hd⟩
      obtain ⟨g', hg', hd⟩ := (ih t ht).mp hd
      exact ⟨g', ⟨t, ht, hg'⟩, hd⟩
    · rintro ⟨g', ⟨t, ht, hg'⟩, hd⟩
      exact ⟨t, ht, (ih t ht).mpr ⟨g', hg', hd⟩⟩

theorem OfKind.edges (h : t.OfKind kind) {g : Graph} (hg : g ∈ t.visited) :
    ∀ e ∈ g.edges.keys, e.kind = kind := by
  induction h with
  | node _ he hts ih =>
    rw [visited_eq, List.mem_append, List.mem_flatMap, List.mem_singleton] at hg
    rcases hg with ⟨t, ht, hg⟩ | rfl
    · exact ih t ht hg
    · exact he

/-- What a graph demands with all that is nested in it can be met exactly if it is readable. -/
theorem forall_demands_iff (h : t.OfKind kind) :
    (∀ d ∈ (Script.ofTree t).demands, d.Readable kind) ↔ t.Readable := by
  simp only [mem_demands_iff h, forall_exists_index, and_imp]
  constructor
  · exact fun hd g hg => (Graph.forall_demands_iff (h.edges hg)).mp fun d => hd d g hg
  · exact fun ht d g hg => (Graph.forall_demands_iff (h.edges hg)).mpr (ht g hg) d

/-- The edges that a script demands are of its kind. -/
theorem kind_of_edge_demand (h : t.OfKind kind) {k : Kind}
    (hk : .edge k ∈ (Script.ofTree t).demands) : k = (Script.ofTree t).kind := by
  obtain ⟨g, hg, hk⟩ := (mem_demands_iff h).mp hk
  obtain ⟨e, he, rfl⟩ := Graph.exists_of_edge_demand hk
  rw [h.edges hg e he]
  exact h.kind_eq.symm

/-- A reader gets a readable graph back from its document, and refuses the document of any other. -/
theorem OfKind.read?_eq (h : t.OfKind kind) :
    (t.Readable → read? t.document = some t) ∧ (¬ t.Readable → read? t.document = none) := by
  have hread := Script.read?_text .dot (Script.ofTree t)
  have hkind : (Script.ofTree t).kind = kind := h.kind_eq
  have hall : ((Script.ofTree t).demands.all fun d => d.closes && d.met .dot kind) = true ↔
      t.Readable := by
    rw [List.all_eq_true, ← forall_demands_iff h]
    simp only [Demand.readable_iff]
  rw [hkind] at hread
  -- a script that is read is the one that was written, so no other tree can come back
  constructor
  · intro ht
    rw [read?, document, hread, hall.mpr ht, given_true, Option.map_some, Script.tree_ofTree h]
  · intro ht
    rw [read?, document, hread, Bool.eq_false_iff.mpr (mt hall.mp ht), given_false, Option.map_none]

/-- Graphs with the same document are the same. -/
theorem OfKind.eq_of_document_eq {kind' : Kind} {u : GraphTree} (ht : t.OfKind kind)
    (hu : u.OfKind kind') (h : t.document = u.document) : t = u := by
  have hscript := Script.text_injective (fun k => kind_of_edge_demand ht)
    (fun k => kind_of_edge_demand hu) h
  rw [← Script.tree_ofTree ht, hscript, Script.tree_ofTree hu]

end GraphTree

/-! ### Graphs of a session -/

namespace Session

/-- Graphs are nested in graphs of their own kind, and hold edges of this kind. -/
theorem WellFormed.ofKind {s : Session} (hs : s.WellFormed) {g : Nat} {r : GraphRecord}
    (hr : s.graphs[g]? = some r) {t : GraphTree} (ht : s.tree? g = some t) : t.OfKind r.kind := by
  induction g using hs.forest.wellFounded.induction generalizing r t with
  | _ g ih =>
    rw [tree?_eq hs.forest.ordered hr] at ht
    obtain rfl := Option.some.inj ht
    refine .node rfl (hs.view hr).kinds fun t ht => ?_
    obtain ⟨i, hi, hti⟩ := List.mem_filterMap.mp ht
    have hsub : s.IsSubgraph i g := isSubgraph_iff.mpr ⟨r, hr, hi⟩
    obtain ⟨q, q', hq, hq', hk⟩ := hs.forest.kind i g hsub
    obtain rfl := Option.some.inj (hq.symm.trans hr)
    exact hk ▸ ih i hsub hq' hti

/-- All graphs of a tree that commands lead to are of one kind. -/
theorem ofKind_run (cs : List Command) {g : Nat} {t : GraphTree}
    (ht : (run {} cs).2.tree? g = some t) : ∃ kind, t.OfKind kind := by
  have hs := (run_induction Move.wellFormed cs exclusive_empty wellFormed_empty).2
  obtain ⟨r, hr⟩ := exists_record_of_tree? ht
  exact ⟨r.kind, hs.ofKind hr ht⟩

/-- **Documents lose nothing.** Two graphs with the same document, whatever commands led to them,
are of one kind, have the same name, the same attributes, nodes and edges with their attributes
in the same order, edges in the same orientation, and so do their subgraphs, one by one. -/
theorem document_injective (cs cs' : List Command) (g h : Nat) {t u : GraphTree}
    (ht : (run {} cs).2.tree? g = some t) (hu : (run {} cs').2.tree? h = some u)
    (hdoc : t.document = u.document) : t = u := by
  obtain ⟨kind, htk⟩ := ofKind_run cs ht
  obtain ⟨kind', huk⟩ := ofKind_run cs' hu
  exact htk.eq_of_document_eq huk hdoc

/-- A graph that was made on a detour, next to another one, has the same document as one that was
made straight away, and is the same. No reader can read it, because of the name of the graph. -/
theorem document_injective_detour :
    ∃ t u : GraphTree,
      (run {} [.create (some .directed) "a\\", .subgraph 0 ":",
        .edit 0 (.addNode "\"" {} none)]).2.tree? 0 = some t ∧
      (run {} [.create (some .undirected) "b", .create (some .directed) "c",
        .edit 1 (.addNode "x" {} none), .edit 1 (.eraseNode "x"), .edit 1 (.rename "a\\"),
        .edit 1 (.addNode "\"" {} none), .subgraph 1 ":"]).2.tree? 1 = some u ∧
      t.document = u.document ∧ t = u := by
  let t : GraphTree := .node
    { kind := .directed, name := "a\\", nodes := ⟨[("\"", ∅)]⟩ }
    [.node { kind := .directed, name := ":" } []]
  refine ⟨t, t, by rfl, by rfl, rfl, ?_⟩
  exact document_injective
    [.create (some .directed) "a\\", .subgraph 0 ":", .edit 0 (.addNode "\"" {} none)]
    [.create (some .undirected) "b", .create (some .directed) "c",
      .edit 1 (.addNode "x" {} none), .edit 1 (.eraseNode "x"), .edit 1 (.rename "a\\"),
      .edit 1 (.addNode "\"" {} none), .subgraph 1 ":"] 0 1 (by rfl) (by rfl) rfl

/-- **A reader of the language gets a graph back from its document exactly if the graph is
readable.** It refuses the documents of all other graphs. -/
theorem read?_document (cs : List Command) (g : Nat) {t : GraphTree}
    (ht : (run {} cs).2.tree? g = some t) :
    (GraphTree.read? t.document = some t ↔ t.Readable) ∧
      (¬ t.Readable → GraphTree.read? t.document = none) := by
  obtain ⟨kind, htk⟩ := ofKind_run cs ht
  obtain ⟨hback, hnone⟩ := htk.read?_eq
  refine ⟨⟨fun hread => ?_, hback⟩, hnone⟩
  by_contra hnot
  rw [hnone hnot] at hread
  exact absurd hread nofun

/-- A mark behind a pair of backslashes is read back, and one behind a single backslash is not. -/
theorem read?_document_backslashes :
    ∃ t u : GraphTree,
      (run {} [.create (some .directed) "",
        .edit 0 (.addNode "a:\\\\\":c" {} none)]).2.tree? 0 = some t ∧
      (run {} [.create (some .directed) "",
        .edit 0 (.addNode "a:\\\":c" {} none)]).2.tree? 0 = some u ∧
      GraphTree.read? t.document = some t ∧ GraphTree.read? u.document = none := by
  let t (name : String) : GraphTree := .node { kind := .directed, nodes := ⟨[(name, ∅)]⟩ } []
  refine ⟨t "a:\\\\\":c", t "a:\\\":c", by rfl, by rfl, ?_, ?_⟩
  · exact (read?_document [.create (some .directed) "", .edit 0 (.addNode "a:\\\\\":c" {} none)]
      0 (by rfl)).1.mpr (by decide)
  · exact (read?_document [.create (some .directed) "", .edit 0 (.addNode "a:\\\":c" {} none)]
      0 (by rfl)).2 (by decide)

end Session

end GraphScript
