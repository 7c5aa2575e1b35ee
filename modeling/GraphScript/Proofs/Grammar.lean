import GraphScript.Proofs.Tokens

/-!
# Reading statements

A reader takes the tokens of a script for the script that they were written from, unless something
in the script is more than the grammar admits. What a script *demands* of a reader is that names of
graphs, keys and values have as many parts as such names may have, that names of nodes do, and that
edges are of the kind of the document.

* `Script.parse_pieces`: the tokens of a script are read back exactly if all its demands are met.
  If one is not, they are refused.
* `Script.tree_ofTree`: the statements for a graph with its subgraphs give this graph.
-/

namespace GraphScript

/-! ### Demands -/

/-- What a reader has to admit in order to read a script. -/
inductive Demand where
  /-- The name of a graph, or the key or the value of an attribute. -/
  | plain (name : String)
  /-- The name of a node. -/
  | node (name : String)
  /-- An edge of a kind. -/
  | edge (kind : Kind)

/-- The number of parts of a name. -/
def Identifier.partCount (name : String) : Nat := (Identifier.segments name.toList).length

/-- Whether the grammar admits what is demanded, in a document of a kind. -/
def Demand.met (a : Arity) (kind : Kind) : Demand → Bool
  | plain name => a.plain (Identifier.partCount name)
  | node name => a.node (Identifier.partCount name)
  | edge k => k == kind

/-- The demands of attributes. -/
def Attributes.demands (es : List (String × String)) : List Demand :=
  es.flatMap fun a => [.plain a.1, .plain a.2]

/-- The demands of an edge without its attributes. -/
def Edge.demands (e : Edge) : List Demand := [.edge e.kind, .node e.tail, .node e.head]

namespace Statement

mutual

/-- The demands of a statement. -/
def demands : Statement → List Demand
  | subgraph name body => .plain name :: demandsAll body
  | assignment key value => Attributes.demands [(key, value)]
  | node name attrs => .node name :: Attributes.demands attrs.entries
  | edge e attrs => e.demands ++ Attributes.demands attrs.entries

/-- The demands of statements in a row. -/
def demandsAll : List Statement → List Demand
  | [] => []
  | s :: rest => demands s ++ demandsAll rest

end

theorem demandsAll_eq_flatMap (ss : List Statement) : demandsAll ss = ss.flatMap demands := by
  induction ss with
  | nil => rfl
  | cons s ss ih => rw [demandsAll, ih, List.flatMap_cons]

end Statement

/-- The demands of a script. -/
def Script.demands (s : Script) : List Demand := .plain s.name :: Statement.demandsAll s.body

/-! ### Results under a condition -/

/-- A result that is there only under a condition. -/
def given {α : Type} (b : Bool) (x : α) : Option α := if b then some x else none

section Given

variable {α β : Type} (b c : Bool) (x : α)

@[simp] theorem given_true : given true x = some x := rfl

@[simp] theorem given_false : given false x = none := rfl

@[simp] theorem map_given (f : α → β) : (given b x).map f = given b (f x) := by
  cases b <;> rfl

theorem given_bind_given (y : α → β) :
    ((given b x).bind fun x => given c (y x)) = given (b && c) (y x) := by
  cases b <;> rfl

theorem given_bind (f : α → Option β) :
    (given b x).bind f = if b then f x else none := by
  cases b <;> rfl

end Given

/-! ### Clauses -/

@[simp] theorem Token.text?_ofName (allowed : Nat → Bool) (name : String) :
    (Token.ofName name).text? allowed = given (allowed (Identifier.partCount name)) name := by
  rw [ofName, text?, Identifier.segments, Text.join_split, String.ofList_toList]
  rfl

namespace Piece

@[simp] theorem tokens_nil : tokens [] = [] := rfl

@[simp] theorem tokens_append (ps qs : List Piece) :
    tokens (ps ++ qs) = tokens ps ++ tokens qs := by
  simp [tokens]

@[simp] theorem tokens_cons_space (ps : List Piece) : tokens (.space :: ps) = tokens ps := rfl

@[simp] theorem tokens_cons_newline (ps : List Piece) : tokens (.newline :: ps) = tokens ps := rfl

@[simp] theorem tokens_cons_token (t : Token) (ps : List Piece) :
    tokens (.token t :: ps) = t :: tokens ps := rfl

@[simp] theorem tokens_cons_name (name : String) (ps : List Piece) :
    tokens (.ofName name :: ps) = .ofName name :: tokens ps := rfl

@[simp] theorem tokens_cons_sign (s : Sign) (ps : List Piece) :
    tokens (.ofSign s :: ps) = .sign s :: tokens ps := rfl

end Piece

open Piece (tokens)

variable (a : Arity) (kind : Kind)

namespace Attributes

theorem parsePairs_pieces {es : List (String × String)} (h : es ≠ []) :
    parsePairs a (tokens (pairsPieces es) ++ [.sign .closeBracket]) =
      given ((demands es).all (Demand.met a kind)) es := by
  fun_induction pairsPieces es with
  | case1 => exact absurd rfl h
  | case2 e =>
    simp [pairPieces, parsePairs, demands, given_bind_given, Demand.met]
  | case3 e rest hne ih =>
    have ih := ih (by simpa using hne)
    simp [pairPieces, parsePairs, ih, demands, given_bind_given, Demand.met]

/-- The tokens for attributes behind what has them. -/
def tokens (attrs : Attributes) : List Token :=
  if attrs.isEmpty then [] else Piece.tokens attrs.pieces

theorem parse_tokens (attrs : Attributes) :
    parse a attrs.tokens = given ((demands attrs.entries).all (Demand.met a kind)) attrs := by
  obtain ⟨es⟩ := attrs
  cases es with
  | nil => rfl
  | cons e es =>
    have hpairs := parsePairs_pieces a kind (List.cons_ne_nil e es)
    simp [tokens, Table.isEmpty, pieces, parse, hpairs]

end Attributes

namespace Statement

/-- The tokens of a statement without its semicolon, if it has one. -/
def clause : Statement → List Token
  | subgraph _ _ => []
  | assignment key value => tokens (Attributes.pairPieces (key, value))
  | node name attrs => .ofName name :: attrs.tokens
  | edge e attrs => tokens (edgePieces e) ++ attrs.tokens

private theorem tokens_linePieces (subject : List Piece) (attrs : Attributes) :
    tokens (linePieces subject attrs) = tokens subject ++ attrs.tokens ++ [.sign .semicolon] := by
  rw [linePieces, Attributes.tokens]
  split <;> simp

theorem parse_clause {s : Statement} (hs : ∀ name body, s ≠ subgraph name body) :
    parse a kind s.clause = given (s.demands.all (Demand.met a kind)) s := by
  cases s with
  | subgraph name body => exact absurd rfl (hs name body)
  | assignment key value =>
    simp [clause, Attributes.pairPieces, parse, demands, Attributes.demands, given_bind_given,
      Demand.met]
  | node name attrs =>
    have hattrs := Attributes.parse_tokens a kind attrs
    have hclause : parse a kind (.ofName name :: attrs.tokens) =
        ((Token.ofName name).text? a.node).bind fun name =>
          (Attributes.parse a attrs.tokens).map fun attrs => .node name attrs := by
      rw [Attributes.tokens]
      split
      · rfl
      · rfl
    rw [clause, hclause, hattrs]
    simp [demands, given_bind_given, Demand.met]
  | edge e attrs =>
    have hattrs := Attributes.parse_tokens a kind attrs
    obtain ⟨k, tail, head⟩ := e
    -- the connector is refused in a document of the other kind, before any attributes are read
    by_cases hk : k = kind
    · subst hk
      simp [clause, edgePieces, parse, hattrs, demands, Edge.demands, given_bind_given, Demand.met]
    · have hk' := beq_false_of_ne hk
      simp [clause, edgePieces, parse, hk, hk', demands, Edge.demands, Demand.met]

/-! ### Blocks -/

/-- A token that neither ends a clause nor opens or closes a block. -/
private def Inner (t : Token) : Prop :=
  t ≠ .sign .semicolon ∧ t ≠ .sign .openBrace ∧ t ≠ .sign .closeBrace

private theorem inner_sign {s : Sign} (h : s = .equals ∨ s = .comma ∨ s = .openBracket ∨
    s = .closeBracket) : Inner (.sign s) := by
  rcases h with rfl | rfl | rfl | rfl <;> exact ⟨by decide, by decide, by decide⟩

private theorem inner_name (name : String) : Inner (.ofName name) := ⟨nofun, nofun, nofun⟩

private theorem inner_pairsPieces (es : List (String × String)) :
    ∀ t ∈ tokens (Attributes.pairsPieces es), Inner t := by
  fun_induction Attributes.pairsPieces es with
  | case1 => exact fun t ht => absurd ht List.not_mem_nil
  | case2 e => simp [Attributes.pairPieces, inner_name, inner_sign]
  | case3 e rest hne ih =>
    simpa [Attributes.pairPieces, inner_name, inner_sign] using ih

private theorem inner_clause (s : Statement) : ∀ t ∈ s.clause, Inner t := by
  have hattrs : ∀ attrs : Attributes, ∀ t ∈ attrs.tokens, Inner t := by
    intro attrs
    rw [Attributes.tokens]
    split
    · exact fun t ht => absurd ht List.not_mem_nil
    · simpa [Attributes.pieces, inner_sign, or_imp, forall_and] using
        inner_pairsPieces attrs.entries
  cases s with
  | subgraph name body => exact fun t ht => absurd ht List.not_mem_nil
  | assignment key value => exact inner_pairsPieces [(key, value)]
  | node name attrs => simpa [clause, inner_name] using hattrs attrs
  | edge e attrs =>
    have hconnector : Inner (.connector e.kind) := ⟨nofun, nofun, nofun⟩
    simpa [clause, edgePieces, inner_name, hconnector] using hattrs attrs

private theorem parseBlock_cons_inner {t : Token} (ht : Inner t) (done : List Statement)
    (around : List (String × List Statement)) (clause ts : List Token) :
    parseBlock a kind done around clause (t :: ts) =
      parseBlock a kind done around (clause ++ [t]) ts := by
  cases t with
  | sign s =>
    cases s with
    | semicolon => exact absurd rfl ht.1
    | openBrace => exact absurd rfl ht.2.1
    | closeBrace => exact absurd rfl ht.2.2
    | _ => rw [parseBlock] <;> nofun
  | _ => rw [parseBlock] <;> nofun

/-- A reader comes to the semicolon at the end of a clause. -/
private theorem parseBlock_clause {cs : List Token} (hcs : ∀ t ∈ cs, Inner t)
    (done : List Statement) (around : List (String × List Statement)) (clause ts : List Token) :
    parseBlock a kind done around clause (cs ++ .sign .semicolon :: ts) =
      (parse a kind (clause ++ cs)).bind fun s => parseBlock a kind (done ++ [s]) around [] ts := by
  induction cs generalizing clause with
  | nil => rw [List.nil_append, List.append_nil, parseBlock]
  | cons t cs ih =>
    rw [List.cons_append, parseBlock_cons_inner a kind (hcs t List.mem_cons_self),
      ih fun t ht => hcs t (List.mem_cons_of_mem _ ht), List.append_assoc]
    rfl

mutual

/-- A statement that demands too much is refused, and any other is read as what it is. -/
theorem parseBlock_pieces (s : Statement) (done : List Statement)
    (around : List (String × List Statement)) (ts : List Token) :
    parseBlock a kind done around [] (tokens s.pieces ++ ts) =
      if s.demands.all (Demand.met a kind) then parseBlock a kind (done ++ [s]) around [] ts
      else none := by
  -- statements that end in a semicolon are read in one way, whatever sort they are of
  have hleaf : (∀ name body, s ≠ subgraph name body) →
      tokens s.pieces = s.clause ++ [.sign .semicolon] →
      parseBlock a kind done around [] (tokens s.pieces ++ ts) =
        if s.demands.all (Demand.met a kind) then parseBlock a kind (done ++ [s]) around [] ts
        else none := by
    intro hs htokens
    rw [htokens, List.append_assoc, List.singleton_append,
      parseBlock_clause a kind (inner_clause s), List.nil_append, parse_clause a kind hs,
      given_bind]
  cases s with
  | subgraph name body =>
    have hopen : ∀ rest, parseBlock a kind done around []
        (.keyword .subgraph :: .ofName name :: .sign .openBrace :: rest) =
          (given (a.plain (Identifier.partCount name)) name).bind fun name =>
            parseBlock a kind [] ((name, done) :: around) [] rest := fun rest => by
      rw [← Token.text?_ofName]
      rfl
    -- what was read so far waits in `around` until the block is closed
    have hbody := parseBlock_piecesAll body [] ((name, done) :: around) (.sign .closeBrace :: ts)
    have hpieces : tokens (subgraph name body).pieces ++ ts =
        .keyword .subgraph :: .ofName name :: .sign .openBrace ::
          (tokens (piecesAll body) ++ .sign .closeBrace :: ts) := by
      simp [pieces]
    rw [hpieces, hopen, given_bind, hbody, demands, List.all_cons, Demand.met, List.nil_append]
    have hclose : parseBlock a kind body ((name, done) :: around) [] (.sign .closeBrace :: ts) =
        parseBlock a kind (done ++ [subgraph name body]) around [] ts := by
      rw [parseBlock]
    rw [hclose]
    cases a.plain (Identifier.partCount name) <;> rfl
  | assignment key value => exact hleaf nofun (by simp [pieces, clause])
  | node name attrs => exact hleaf nofun (tokens_linePieces _ attrs)
  | edge e attrs => exact hleaf nofun (tokens_linePieces _ attrs)

/-- The same for statements in a row. -/
theorem parseBlock_piecesAll (ss : List Statement) (done : List Statement)
    (around : List (String × List Statement)) (ts : List Token) :
    parseBlock a kind done around [] (tokens (piecesAll ss) ++ ts) =
      if (demandsAll ss).all (Demand.met a kind) then parseBlock a kind (done ++ ss) around [] ts
      else none := by
  cases ss with
  | nil => rw [List.append_nil]; rfl
  | cons s ss =>
    rw [piecesAll, Piece.tokens_append, List.append_assoc, parseBlock_pieces s,
      parseBlock_piecesAll ss, demandsAll, List.all_append, List.append_assoc]
    cases s.demands.all (Demand.met a kind) <;> rfl

end

end Statement

/-- **The tokens of a script are read back if all its demands are met, and refused otherwise.** -/
theorem Script.parse_pieces (s : Script) :
    Script.parse a (tokens s.pieces) = given (s.demands.all (Demand.met a s.kind)) s := by
  have hpieces : tokens s.pieces = .keyword .strict :: .keyword s.kind.keywordToken ::
      .ofName s.name :: .sign .openBrace ::
        (tokens (Statement.piecesAll s.body) ++ [.sign .closeBrace]) := by
    simp [pieces]
  have hkind : s.kind.keywordToken.kind? = some s.kind := by cases s.kind <;> rfl
  have hbody := Statement.parseBlock_piecesAll a s.kind s.body [] [] [.sign .closeBrace]
  rw [hpieces, parse, hkind, Option.bind_some, Token.text?_ofName, hbody, given_bind, demands,
    List.all_cons, Demand.met]
  cases a.plain (Identifier.partCount s.name)
  · rfl
  · rw [Bool.true_and, given, List.nil_append, Statement.parseBlock, if_pos rfl]
    split <;> rfl

/-! ### The graph that a script gives -/

/-- All graphs of a tree and all their edges are of one kind. -/
inductive GraphTree.OfKind (kind : Kind) : GraphTree → Prop where
  | node {g : Graph} {ts : List GraphTree} (hg : g.kind = kind)
      (he : ∀ e ∈ g.edges.keys, e.kind = kind) (hts : ∀ t ∈ ts, OfKind kind t) :
    OfKind kind (.node g ts)

theorem GraphTree.OfKind.kind_eq {kind : Kind} {t : GraphTree} (h : t.OfKind kind) :
    t.graph.kind = kind := by
  obtain ⟨hg, -, -⟩ := h
  exact hg

namespace Statement

variable {kind : Kind}

theorem subtrees_append (ss ss' : List Statement) :
    subtrees kind (ss ++ ss') = subtrees kind ss ++ subtrees kind ss' := by
  fun_induction subtrees kind ss with
  | case1 => rfl
  | case2 name body rest _ ih => rw [List.cons_append, subtrees, ih, List.cons_append]
  | case3 s rest hs ih =>
    rw [List.cons_append, subtrees, ih]
    exact hs

/-- The statements of a graph alone give no subgraphs. -/
private theorem subtrees_graph (g : Graph) : subtrees kind g.statements = [] := by
  have hmap : ∀ {α : Type} (f : α → Statement) (xs : List α),
      (∀ x name body, f x ≠ subgraph name body) → subtrees kind (xs.map f) = [] := by
    intro α f xs hf
    induction xs with
    | nil => rw [List.map_nil, subtrees]
    | cons x xs ih =>
      rw [List.map_cons, subtrees, ih]
      exact hf x
  rw [Graph.statements, subtrees_append, subtrees_append, Graph.assignments, Graph.nodeStatements,
    Graph.edgeStatements, hmap _ _ (fun _ _ _ h => by cases h),
    hmap _ _ (fun _ _ _ h => by cases h), hmap _ _ (fun _ _ _ h => by cases h)]
  rfl

/-- The statements for a graph give this graph, sort by sort. -/
theorem collect_statements (t : GraphTree) :
    collect t.graph.kind t.graph.name t.statements = t.graph := by
  have hnone : ∀ {α β : Type} (f : α → Statement) (pick : Statement → Option β) (xs : List α),
      (∀ x, pick (f x) = none) → (xs.map f).filterMap pick = [] := by
    intro α β f pick xs h
    rw [List.filterMap_map, List.filterMap_eq_nil_iff]
    exact fun x _ => h x
  have hsome : ∀ {α : Type} (f : α → Statement) (pick : Statement → Option α) (xs : List α),
      (∀ x, pick (f x) = some x) → (xs.map f).filterMap pick = xs := by
    intro α f pick xs h
    rw [List.filterMap_map, show pick ∘ f = some from funext h, List.filterMap_some]
  -- for each sort, one of the four lists of statements is picked whole and three are passed over
  rw [collect, t.statements_eq, Graph.statements, Graph.assignments, Graph.nodeStatements,
    Graph.edgeStatements]
  simp only [List.filterMap_append]
  rw [hnone _ assignment? _ fun _ => rfl, hsome _ assignment? _ fun _ => rfl,
    hnone _ assignment? _ fun _ => rfl, hnone _ assignment? _ fun _ => rfl,
    hnone _ node? _ fun _ => rfl, hnone _ node? _ fun _ => rfl, hsome _ node? _ fun _ => rfl,
    hnone _ node? _ fun _ => rfl, hnone _ edge? _ fun _ => rfl, hnone _ edge? _ fun _ => rfl,
    hnone _ edge? _ fun _ => rfl, hsome _ edge? _ fun _ => rfl]
  simp only [List.nil_append, List.append_nil]

theorem subtrees_statements {t : GraphTree} (h : t.OfKind kind) :
    subtrees kind t.statements = t.subgraphs := by
  induction h with
  | @node g ts hg he hts ih =>
    rw [GraphTree.statements_eq, subtrees_append, subtrees_graph, List.append_nil,
      GraphTree.subgraphs]
    -- the induction over trees gives each subgraph, and this one puts them in a row
    clear hg he
    induction ts with
    | nil => rw [List.map_nil, subtrees]
    | cons t ts ihts =>
      have ht := ih t List.mem_cons_self
      have hcollect := collect_statements t
      rw [(hts t List.mem_cons_self).kind_eq] at hcollect
      rw [List.map_cons, GraphTree.block, subtrees, hcollect, ht,
        ihts (fun t h => hts t (List.mem_cons_of_mem _ h))
          fun t h => ih t (List.mem_cons_of_mem _ h)]
      cases t
      rfl

end Statement

/-- **The script of a graph with its subgraphs gives this graph back.** -/
theorem Script.tree_ofTree {kind : Kind} {t : GraphTree} (h : t.OfKind kind) :
    (Script.ofTree t).tree = t := by
  rw [tree, ofTree, Statement.collect_statements, h.kind_eq, Statement.subtrees_statements h]
  cases t
  rfl

end GraphScript
