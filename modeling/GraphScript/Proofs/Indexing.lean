import GraphScript.Proofs.Edits
import GraphScript.Proofs.Failures

/-!
# Reading and writing at indices

An index in brackets is the key of an attribute of the graph, or an item and a key: the item stands
for a node if it is a name, and for an edge otherwise. One step writes at an index, and one question
reads there. This module says how the two go together.

* **Places** (`Graph.attrs?_put`): what is put at one place of a graph is found there, also through
  an equal edge, and at every other place is found what was there before.
* **Indices** (`Graph.getItem_item`, `Graph.edit_setItem`): reading at an index looks at its place,
  if there is one, and writing puts attributes there.
* **Laws** (`Session.IndexLaws`): which indices can be written at, that the value is read back, and
  what the answers at all other indices are.
-/

namespace GraphScript

/-! ### Places -/

/-- Places are compared like what they are places of, so an edge without direction has one place
from whichever end it is written. -/
instance : BEq Slot where
  beq
    | .graph, .graph => true
    | .node name, .node other => name == other
    | .edge e, .edge f => e == f
    | _, _ => false

theorem Attributes.lookup_insert (a : Attributes) (key other value : String) :
    lookup (a.insert key value) (.text other) =
      if key = other then .ok value else a.lookup (.text other) := by
  have hfound := Table.get?_insert a key other value
  simp only [lookup, Item.text?, Option.bind_some, hfound, beq_iff_eq]
  by_cases hkey : key = other
  · rw [if_pos hkey, if_pos hkey]
  · rw [if_neg hkey, if_neg hkey]

theorem Attributes.lookup_empty (key : Item) :
    lookup ∅ key = .error (.notFound .attributeKey key) := by
  cases key <;> rfl

namespace Graph

variable {g : Graph} {slot slot' : Slot}

theorem attrs?_congr (h : (slot == slot') = true) : g.attrs? slot = g.attrs? slot' := by
  match slot, slot', h with
  | .graph, .graph, _ => rfl
  | .node name, .node other, h =>
    have hname : name = other := eq_of_beq h
    rw [hname]
  | .edge e, .edge f, h =>
    have hfind := g.edges.find?_congr (show (e == f) = true from h)
    rw [attrs?, attrs?, Table.get?, Table.get?, hfind]

/-- What is put at a place is found there and nowhere else. -/
theorem attrs?_put (g : Graph) (attrs : Attributes) (slot slot' : Slot) :
    (g.put attrs slot).attrs? slot' = if slot == slot' then some attrs else g.attrs? slot' := by
  match slot, slot' with
  | .node name, .node other => exact Table.get?_insert g.nodes name other attrs
  | .edge e, .edge f => exact Table.get?_insert g.edges e f attrs
  | .graph, .graph | .graph, .node _ | .graph, .edge _ | .node _, .graph | .node _, .edge _
  | .edge _, .graph | .edge _, .node _ => rfl

end Graph

/-! ### Indices -/

namespace Item

/-- The place that an item in an index stands for, if it is a name or an edge. -/
def slot? : Item → Option Slot
  | text name => some (.node name)
  | edge e => some (.edge e)
  | _ => none

/-- What an item in an index is taken for. -/
def sought : Item → Sought
  | text _ => .node
  | _ => .edge

end Item

/-- What stands in brackets behind a graph: the key of an attribute of the graph, or an item and the
key of an attribute of what the item stands for. -/
inductive Index where
  | graph (key : String)
  | part (target : Item) (key : String)

namespace Index

/-- The index as callers write it. -/
def item : Index → Item
  | graph key => .text key
  | part target key => .tuple [target, .text key]

/-- The key of the attribute. -/
def key : Index → String
  | graph key => key
  | part _ key => key

/-- The place of the attribute, if the item stands for one. -/
def slot? : Index → Option Slot
  | graph _ => some .graph
  | part target _ => target.slot?

/-- The question for the attribute of the graph, of the node or of the edge. -/
def query : Index → GraphQuery
  | graph key => .attr key
  | part (.text name) key => .nodeAttr name key
  | part target key => .edgeAttr target key

/-- Whether a graph of a kind takes values at an index. An item that is no name has to be an edge of
this kind. -/
def Admitted (kind : Kind) : Index → Prop
  | graph _ => True
  | part (.text _) _ => True
  | part (.edge e) _ => e.kind = kind
  | part _ _ => False

/-- Two indices are about one place: the graph, the same node, or equal edges. -/
def Meets (i j : Index) : Prop := ∃ slot ∈ i.slot?, ∃ slot' ∈ j.slot?, (slot == slot') = true

/-- Two indices mean the same attribute. -/
def Same (i j : Index) : Prop := i.Meets j ∧ i.key = j.key

/-- Writing at an index makes the node or the edge that another index is about. -/
def Makes (graph : Graph) (i j : Index) : Prop := i.Meets j ∧ i.slot?.bind graph.attrs? = none

/-- The place of an index that a graph takes values at. -/
theorem Admitted.exists_slot {kind : Kind} {i : Index} (h : i.Admitted kind) :
    ∃ slot, i.slot? = some slot := by
  match i, h with
  | graph key, _ => exact ⟨.graph, rfl⟩
  | part (.text name) key, _ => exact ⟨.node name, rfl⟩
  | part (.edge e) key, _ => exact ⟨.edge e, rfl⟩

/-- A graph takes values at an index unless its item is refused as an edge. -/
theorem exists_wrongEdge {kind : Kind} {i : Index} (h : ¬ i.Admitted kind) (value : String) :
    ∃ target, (∃ key, i = .part target key) ∧
      (GraphEdit.setItem i.item value).givenEdge? = some target ∧
        ∀ edge, kind.edgeOf target ≠ .ok edge := by
  match i, h with
  | graph key, h => exact absurd trivial h
  | part (.text name) key, h => exact absurd trivial h
  | part (.edge e) key, h =>
    refine ⟨.edge e, ⟨key, rfl⟩, rfl, fun edge hok => h ?_⟩
    obtain ⟨hedge, hkind⟩ := Kind.edgeOf_eq_ok_iff.mp hok
    exact Item.edge.inj hedge ▸ hkind
  | part .nothing key, _ => exact ⟨.nothing, ⟨key, rfl⟩, rfl, fun edge hok => by cases hok⟩
  | part (.tuple items) key, _ =>
    exact ⟨.tuple items, ⟨key, rfl⟩, rfl, fun edge hok => by cases hok⟩

end Index

namespace Graph

variable {g : Graph} {i j : Index} {slot : Slot}

/-- **Reading at an index** looks at its place. Where there is none, the answer says what was sought
and with which item. -/
theorem getItem_item (g : Graph) (i : Index) :
    g.getItem i.item =
      match i.slot?.bind g.attrs? with
      | some attrs => attrs.lookup (.text i.key)
      | none =>
        match i with
        | .graph key => .error (.notFound .attributeKey (.text key))
        | .part target _ => .error (.notFound target.sought target) := by
  match i with
  | .graph key => rfl
  | .part (.text name) key => rfl
  | .part (.edge e) key => rfl
  | .part .nothing key | .part (.tuple items) key => rfl

theorem getItem_of_attrs? {attrs : Attributes} (hslot : i.slot? = some slot)
    (h : g.attrs? slot = some attrs) : g.getItem i.item = attrs.lookup (.text i.key) := by
  rw [getItem_item, hslot, Option.bind_some, h]

/-- **Writing at an index** puts the value at its place, which is made if need be. -/
theorem edit_setItem (h : i.Admitted g.kind) (hslot : i.slot? = some slot) (value : String) :
    g.edit (.setItem i.item value) = g.setIn slot i.key value := by
  match i, h with
  | .graph key, _ | .part (.text name) key, _ =>
    obtain rfl := Option.some.inj hslot
    rfl
  | .part (.edge e) key, h =>
    obtain rfl := Option.some.inj hslot
    have hok : g.kind.edgeOf (.edge e) = .ok e := Kind.edgeOf_eq_ok_iff.mpr ⟨rfl, h⟩
    change g.setAt value (.edge (.edge e) (.text key)) = _
    simp only [setAt, hok]
    rfl

/-- The graph after a value was written at an index. -/
theorem edit_setItem_snd (h : i.Admitted g.kind) (hslot : i.slot? = some slot) (value : String) :
    (g.edit (.setItem i.item value)).2 = g.put ((g.attrsAt slot).insert i.key value) slot := by
  rw [edit_setItem h hslot, setIn]

/-- The value is read back through every index that means the same attribute. -/
theorem getItem_of_same (h : i.Admitted g.kind) (hij : i.Same j) (value : String) :
    (g.edit (.setItem i.item value)).2.getItem j.item = .ok value := by
  obtain ⟨⟨slot, hslot, slot', hslot', hbeq⟩, hkey⟩ := hij
  rw [edit_setItem_snd h hslot]
  rw [getItem_of_attrs? hslot' ((attrs?_put g _ slot slot').trans (if_pos hbeq)),
    Attributes.lookup_insert, if_pos hkey]

/-- At a node or an edge that was made, no other attribute is found. -/
theorem getItem_of_makes {target : Item} {key : String} (h : i.Admitted g.kind)
    (hij : i.Makes g (.part target key)) (hkey : i.key ≠ key) (value : String) :
    g.getItem (Index.part target key).item = .error (.notFound target.sought target) ∧
      (g.edit (.setItem i.item value)).2.getItem (Index.part target key).item =
        .error (.notFound .attributeKey (.text key)) := by
  obtain ⟨⟨slot, hslot, slot', hslot', hbeq⟩, hnone⟩ := hij
  rw [hslot, Option.bind_some] at hnone
  constructor
  · rw [getItem_item, hslot', Option.bind_some, ← attrs?_congr hbeq, hnone]
  · rw [edit_setItem_snd h hslot]
    rw [getItem_of_attrs? hslot' ((attrs?_put g _ slot slot').trans (if_pos hbeq)),
      Attributes.lookup_insert, Index.key, if_neg hkey, attrsAt, hnone]
    exact Attributes.lookup_empty _

/-- All other answers are the ones from before. -/
theorem getItem_of_ne (h : i.Admitted g.kind) (hsame : ¬ i.Same j) (hmakes : ¬ i.Makes g j)
    (value : String) :
    (g.edit (.setItem i.item value)).2.getItem j.item = g.getItem j.item := by
  obtain ⟨slot, hslot⟩ := h.exists_slot
  rw [edit_setItem_snd h hslot]
  by_cases hmeets : i.Meets j
  · -- the place was there, and the key is another one
    have hkey : i.key ≠ j.key := fun hkey => hsame ⟨hmeets, hkey⟩
    have hsome : g.attrs? slot ≠ none := fun hnone => hmakes ⟨hmeets, by rw [hslot]; exact hnone⟩
    obtain ⟨attrs, hattrs⟩ := Option.ne_none_iff_exists'.mp hsome
    obtain ⟨slot₁, hslot₁, slot', hslot', hbeq⟩ := hmeets
    obtain rfl := Option.some.inj (hslot.symm.trans hslot₁)
    rw [getItem_of_attrs? hslot' ((attrs?_put g _ slot slot').trans (if_pos hbeq)),
      getItem_of_attrs? hslot' ((attrs?_congr hbeq).symm.trans hattrs), Attributes.lookup_insert,
      if_neg hkey, attrsAt, hattrs, Option.getD_some]
  · have hplace : j.slot?.bind (g.put ((g.attrsAt slot).insert i.key value) slot).attrs? =
        j.slot?.bind g.attrs? := by
      cases hslot' : j.slot? with
      | none => rfl
      | some slot' =>
        have hbeq : ¬ (slot == slot') = true := fun hbeq =>
          hmeets ⟨slot, hslot, slot', hslot', hbeq⟩
        exact (attrs?_put g _ slot slot').trans (if_neg hbeq)
    rw [getItem_item, getItem_item, hplace]

end Graph

/-- Reading at an index is asking for the attribute of the graph, of the node or of the edge. -/
theorem GraphTree.answer_item (t : GraphTree) (i : Index) :
    t.answer (.item i.item) = t.answer i.query := by
  match i with
  | .graph key => rfl
  | .part (.text name) key => rfl
  | .part (.edge e) key => rfl
  | .part .nothing key | .part (.tuple items) key => rfl

/-! ### Indices in a session -/

namespace Session

variable {s : Session} {g : Nat} {graph : Graph} {i : Index} {value : String}

/-- A graph is the outermost one of its tree. -/
theorem exists_tree?_of_graph? (hg : s.graph? g = some graph) :
    ∃ t, s.tree? g = some t ∧ t.graph = graph := by
  obtain ⟨r, hr, rfl⟩ := Option.map_eq_some_iff.mp hg
  have htree : s.tree? g = _ := getElem?_treesFrom s 0 g s.graphs
  rw [hr, Option.map_some] at htree
  exact ⟨_, htree, rfl⟩

/-- The answer at an index is read off the graph as a plain value. -/
theorem step_ask_item (hg : s.graph? g = some graph) (index : Item) :
    (s.step (.ask g (.item index))).1 = (graph.getItem index).map .text := by
  obtain ⟨t, ht, rfl⟩ := exists_tree?_of_graph? hg
  rw [step_ask ht]
  rfl

theorem step_ask_query (hg : s.graph? g = some graph) (i : Index) :
    (s.step (.ask g i.query)).1 = (s.step (.ask g (.item i.item))).1 := by
  obtain ⟨t, ht, -⟩ := exists_tree?_of_graph? hg
  rw [step_ask ht, step_ask ht, GraphTree.answer_item]

/-- How writing at an index and reading at indices go together. -/
structure IndexLaws (s : Session) (g : Nat) (graph : Graph) (i : Index) (value : String) :
    Prop where
  /-- A value is taken at the keys of the graph, at names, and at edges of its kind. -/
  taken : (s.step (.edit g (.setItem i.item value))).1 = .ok .done ↔ i.Admitted graph.kind
  /-- At any other item it is refused, and nothing is changed. -/
  refused (h : ¬ i.Admitted graph.kind) : ∃ target, (∃ key, i = .part target key) ∧
    s.step (.edit g (.setItem i.item value)) = (.error (.wrongEdge graph.kind target), s)
  /-- The value is read back, in brackets or by asking for the attribute of the graph, of the node
  or of the edge, which may be written in any way that is equal. -/
  readBack (h : i.Admitted graph.kind) (j : Index) (hij : i.Same j) :
    let s' := (s.step (.edit g (.setItem i.item value))).2
    (s'.step (.ask g (.item j.item))).1 = .ok (.text value) ∧
      (s'.step (.ask g j.query)).1 = .ok (.text value)
  /-- If a node or an edge was made, it is no longer the node or the edge that is not found, but the
  attribute. -/
  made (h : i.Admitted graph.kind) (target : Item) (key : String)
    (hij : i.Makes graph (.part target key)) (hkey : i.key ≠ key) :
    let s' := (s.step (.edit g (.setItem i.item value))).2
    (s.step (.ask g (.item (Index.part target key).item))).1 =
        .error (.notFound target.sought target) ∧
      (s'.step (.ask g (.item (Index.part target key).item))).1 =
        .error (.notFound .attributeKey (.text key))
  /-- At all other indices the answer is the one from before. -/
  kept (h : i.Admitted graph.kind) (j : Index) (hsame : ¬ i.Same j) (hmakes : ¬ i.Makes graph j) :
    let s' := (s.step (.edit g (.setItem i.item value))).2
    (s'.step (.ask g (.item j.item))).1 = (s.step (.ask g (.item j.item))).1

/-- What is written at an index that the graph takes values at shows in the graph as it does in the
plain value. -/
theorem Exclusive.step_setItem (hs : s.Exclusive) (hwf : s.WellFormed)
    (hg : s.graph? g = some graph) (h : i.Admitted graph.kind) (value : String) :
    (Session.step s (.edit g (.setItem i.item value))).1 = .ok .done ∧
      (Session.step s (.edit g (.setItem i.item value))).2.graph? g =
        some (graph.edit (.setItem i.item value)).2 := by
  obtain ⟨r, hr, rfl⟩ := Option.map_eq_some_iff.mp hg
  obtain ⟨slot, hslot⟩ := h.exists_slot
  obtain ⟨houtcome, hgraph⟩ := hs.realizes_edit hwf hr (.setItem i.item value)
  rw [step_edit (record_eq_ok_iff.mpr hr)]
  refine ⟨?_, hgraph⟩
  rw [houtcome, Graph.edit_setItem h hslot]
  rfl

theorem step_setItem_of_not_admitted (hg : s.graph? g = some graph)
    (h : ¬ i.Admitted graph.kind) (value : String) : ∃ target, (∃ key, i = .part target key) ∧
      s.step (.edit g (.setItem i.item value)) = (.error (.wrongEdge graph.kind target), s) := by
  obtain ⟨r, hr, rfl⟩ := Option.map_eq_some_iff.mp hg
  obtain ⟨target, hpart, hgiven, hwrong⟩ := Index.exists_wrongEdge h value
  exact ⟨target, hpart, step_edit_of_wrongEdge (record_eq_ok_iff.mpr hr) hgiven hwrong⟩

/-- **What is written at an index is read back there, and shows nowhere else**, in every graph that
commands lead to. -/
theorem indexLaws_run (cs : List Command) (g : Nat) {graph : Graph}
    (hg : (run {} cs).2.graph? g = some graph) (i : Index) (value : String) :
    (run {} cs).2.IndexLaws g graph i value := by
  obtain ⟨hs, hwf⟩ := run_induction Move.wellFormed cs exclusive_empty wellFormed_empty
  have hrefused := fun h => step_setItem_of_not_admitted (i := i) hg h value
  have hwritten := fun h => hs.step_setItem (i := i) hwf hg h value
  constructor
  case taken =>
    refine ⟨fun hok => ?_, fun h => (hwritten h).1⟩
    by_contra hnot
    obtain ⟨target, -, hstep⟩ := hrefused hnot
    rw [hstep] at hok
    cases hok
  case refused => exact hrefused
  case readBack =>
    intro h j hij s'
    have hitem : (s'.step (.ask g (.item j.item))).1 = .ok (.text value) := by
      rw [step_ask_item (hwritten h).2, Graph.getItem_of_same h hij]
      rfl
    exact ⟨hitem, (step_ask_query (hwritten h).2 j).trans hitem⟩
  case made =>
    intro h target key hij hkey s'
    obtain ⟨hbefore, hafter⟩ := Graph.getItem_of_makes h hij hkey value
    rw [step_ask_item hg, step_ask_item (hwritten h).2, hbefore, hafter]
    exact ⟨rfl, rfl⟩
  case kept =>
    intro h j hsame hmakes s'
    rw [step_ask_item hg, step_ask_item (hwritten h).2, Graph.getItem_of_ne h hsame hmakes]

/-- A value that is written at an edge makes this edge, and is read back from its other end. Another
attribute of the edge was not found for want of the edge, and now is not found itself; what is asked
of a node stays as it was. -/
theorem indexLaws_other_end :
    let cs : List Command := [.create (some .undirected) "", .edit 0 (.addNode "a" {} none)]
    let edge : Item := .edge ⟨.undirected, "a", "b"⟩
    let swapped : Item := .edge ⟨.undirected, "b", "a"⟩
    let s := (run {} cs).2
    let s' := (s.step (.edit 0 (.setItem (.tuple [edge, .text "color"]) "red"))).2
    (s'.step (.ask 0 (.item (.tuple [swapped, .text "color"])))).1 = .ok (.text "red") ∧
      (s.step (.ask 0 (.item (.tuple [swapped, .text "style"])))).1 =
        .error (.notFound .edge swapped) ∧
      (s'.step (.ask 0 (.item (.tuple [swapped, .text "style"])))).1 =
        .error (.notFound .attributeKey (.text "style")) ∧
      (s'.step (.ask 0 (.item (.tuple [.text "a", .text "color"])))).1 =
        (s.step (.ask 0 (.item (.tuple [.text "a", .text "color"])))).1 := by
  intro cs edge swapped s s'
  let graph : Graph := { kind := .undirected, nodes := ⟨[("a", ∅)]⟩ }
  let i : Index := .part edge "color"
  have hg : (run {} cs).2.graph? 0 = some graph := by rfl
  have laws := indexLaws_run cs 0 hg i "red"
  have hmeets : ∀ key, i.Meets (.part swapped key) := fun key =>
    ⟨.edge ⟨.undirected, "a", "b"⟩, rfl, .edge ⟨.undirected, "b", "a"⟩, rfl, by decide⟩
  have hapart : ¬ i.Meets (.part (.text "a") "color") := by
    rintro ⟨slot, hslot, slot', hslot', hbeq⟩
    obtain rfl := Option.some.inj hslot
    obtain rfl := Option.some.inj hslot'
    cases hbeq
  obtain ⟨hbefore, hafter⟩ := laws.made rfl swapped "style" ⟨hmeets "style", by rfl⟩ (by decide)
  exact ⟨(laws.readBack rfl (.part swapped "color") ⟨hmeets "color", rfl⟩).1, hbefore, hafter,
    laws.kept rfl (.part (.text "a") "color") (fun h => hapart h.1) fun h => hapart h.1⟩

end Session

end GraphScript
