import GraphScript.Proofs.Ports
import GraphScript.Proofs.Repetitions
import Mathlib.Data.List.Forall2

/-!
# What orientation does not show in

An undirected edge may be written from either of its ends, and its spelling is kept where it is
first put in. Things are *alike* if they are the same but for the spelling of keys that are equal.

* **Tables** (`Table.Alike`): equal keys stand in the same places, with the same values. Looking up,
  writing and erasing keep it so, also under keys that are spelled differently.
* **Graphs** (`Graph.Alike`) and their trees: all that is asked of a graph has the same answer for
  graphs that are alike. Where edges are listed, equal edges are listed in the same order. The names
  of all nodes are the same, but may come in another order, as the ends of edges are named in the
  order in which they are written.
* **Errors** (`Error.Alike`): they are of the same cause, about items that are equal.
-/

namespace GraphScript

/-! ### Tables -/

namespace Table

variable {κ α β : Type} [BEq κ]

/-- Equal keys, however spelled, with the same value. -/
def SameEntry (x y : κ × α) : Prop := (x.1 == y.1) = true ∧ x.2 = y.2

/-- Equal keys stand in the same places, with the same values. -/
def Alike (t t' : Table κ α) : Prop := List.Forall₂ SameEntry t.entries t'.entries

variable {t t' : Table κ α} {k k' : κ}

theorem Alike.size_eq (h : t.Alike t') : t.size = t'.size := h.length_eq

theorem Alike.keys (h : t.Alike t') :
    List.Forall₂ (fun j k : κ => (j == k) = true) t.keys t'.keys :=
  List.forall₂_map_left_iff.mpr (List.forall₂_map_right_iff.mpr (h.imp fun _ _ hxy => hxy.1))

theorem Alike.map (h : t.Alike t') (f : α → β) : (t.map f).Alike (t'.map f) :=
  List.rel_map (fun _ _ hxy => ⟨hxy.1, congrArg f hxy.2⟩) h

theorem Alike.push (h : t.Alike t') (hk : (k == k') = true) (v : α) :
    (t.push k v).Alike (t'.push k' v) :=
  List.rel_append h (.cons ⟨hk, rfl⟩ .nil)

variable [EquivBEq κ]

theorem SameEntry.refl (x : κ × α) : SameEntry x x := ⟨BEq.rfl, rfl⟩

theorem SameEntry.beq_eq {x y : κ × α} (h : SameEntry x y) (hk : (k == k') = true) :
    (x.1 == k) = (y.1 == k') :=
  (BEq.congr_left h.1).trans (BEq.congr_right hk)

theorem Alike.refl (t : Table κ α) : t.Alike t := List.forall₂_same.mpr fun x _ => SameEntry.refl x

theorem Alike.get?_eq (h : t.Alike t') (hk : (k == k') = true) : t.get? k = t'.get? k' := by
  obtain ⟨entries⟩ := t
  obtain ⟨entries'⟩ := t'
  rw [get?, get?, find?, find?]
  change List.Forall₂ SameEntry entries entries' at h
  induction h with
  | nil => rfl
  | cons hxy _ ih =>
    rw [List.find?_cons, List.find?_cons, hxy.beq_eq hk]
    split
    · exact congrArg some hxy.2
    · exact ih

theorem Alike.contains_eq (h : t.Alike t') (hk : (k == k') = true) :
    t.contains k = t'.contains k' := by
  rw [← isSome_get?, ← isSome_get?, h.get?_eq hk]

theorem Alike.replace (h : t.Alike t') (hk : (k == k') = true) (v : α) :
    (t.replace k v).Alike (t'.replace k' v) := by
  refine List.rel_map (fun x y hxy => ?_) h
  rw [hxy.beq_eq hk]
  split
  · exact ⟨hxy.1, rfl⟩
  · exact hxy

theorem Alike.insert (h : t.Alike t') (hk : (k == k') = true) (v : α) :
    (t.insert k v).Alike (t'.insert k' v) := by
  rw [Table.insert, Table.insert, h.contains_eq hk]
  split
  · exact h.replace hk v
  · exact h.push hk v

end Table

namespace Shelf

variable {κ α : Type} [BEq κ]

/-- Equal keys stand at the same places, with the same values, and there is the same room. -/
structure Alike (s s' : Shelf κ α) : Prop where
  room : s.room = s'.room
  places : List.Forall₂ (Option.Rel Table.SameEntry) s.places s'.places

variable {s s' : Shelf κ α} {k k' : κ}

theorem Alike.table (h : s.Alike s') : s.table.Alike s'.table :=
  List.rel_filterMap (fun _ _ hxy => hxy) h.places

theorem Alike.size_eq (h : s.Alike s') : s.size = s'.size := h.table.size_eq

theorem Alike.pack (h : s.Alike s') : s.pack.Alike s'.pack where
  room := congrArg roomFor h.size_eq
  places := List.rel_map (fun _ _ hxy => .some hxy) h.table

theorem Alike.push (h : s.Alike s') (hk : (k == k') = true) (v : α) :
    (s.push k v).Alike (s'.push k' v) := by
  have hroom : (if s.places.length < s.room then s else s.pack).Alike
      (if s'.places.length < s'.room then s' else s'.pack) := by
    rw [h.places.length_eq, h.room]
    split
    · exact h
    · exact h.pack
  exact ⟨hroom.room, List.rel_append hroom.places (.cons (.some ⟨hk, rfl⟩) .nil)⟩

variable [EquivBEq κ]

theorem Alike.refl (s : Shelf κ α) : s.Alike s where
  room := rfl
  places := List.forall₂_same.mpr fun place _ => by
    cases place with
    | none => exact .none
    | some entry => exact .some (Table.SameEntry.refl entry)

theorem Alike.erase (h : s.Alike s') (hk : (k == k') = true) : (s.erase k).Alike (s'.erase k') where
  room := h.room
  places := by
    refine List.rel_map (fun x y hxy => ?_) h.places
    cases hxy with
    | none => exact .none
    | some hxy =>
      rw [Option.filter_some, Option.filter_some, hxy.beq_eq hk]
      split
      · exact .some hxy
      · exact .none

end Shelf

/-! ### Outcomes -/

/-- Two errors of the same cause, about equal items. -/
inductive Error.Alike : Error → Error → Prop
  | refl (e : Error) : Alike e e
  | notFound (sought : Sought) {x y : Item} (h : (x == y) = true) :
    Alike (.notFound sought x) (.notFound sought y)
  | absent {x y : Item} (h : (x == y) = true) : Alike (.absent x) (.absent y)
  | wrongEdge (kind : Kind) {x y : Item} (h : (x == y) = true) :
    Alike (.wrongEdge kind x) (.wrongEdge kind y)

/-- Two outcomes are alike if both are errors that are alike, or both are related results. -/
inductive Outcome.Alike {α β : Type} (R : α → β → Prop) : Except Error α → Except Error β → Prop
  | error {e e' : Error} (h : e.Alike e') : Alike R (.error e) (.error e')
  | ok {a : α} {b : β} (h : R a b) : Alike R (.ok a) (.ok b)

namespace Outcome

variable {α β γ δ : Type} {R : α → β → Prop} {S : γ → δ → Prop} {x : Except Error α}
  {y : Except Error β}

theorem Alike.of_eq {x y : Except Error α} (h : x = y) : Alike Eq x y := by
  subst h
  cases x with
  | error e => exact .error (.refl e)
  | ok a => exact .ok rfl

theorem Alike.bind (h : Alike R x y) {f : α → Except Error γ} {f' : β → Except Error δ}
    (hf : ∀ a b, R a b → Alike S (f a) (f' b)) : Alike S (x.bind f) (y.bind f') := by
  cases h with
  | error he => exact .error he
  | ok hab => exact hf _ _ hab

theorem Alike.map (h : Alike R x y) {f : α → γ} {f' : β → δ}
    (hf : ∀ a b, R a b → S (f a) (f' b)) : Alike S (x.map f) (y.map f') := by
  cases h with
  | error he => exact .error he
  | ok hab => exact .ok (hf _ _ hab)

/-- Two folds that may fail stay alike on rows that are alike. -/
theorem foldlM_alike {σ τ : Type} {T : σ → τ → Prop} {f : σ → α → Except Error σ}
    {f' : τ → β → Except Error τ} (hstep : ∀ a b x y, T a b → R x y → Alike T (f a x) (f' b y))
    {l : List α} {l' : List β} (hl : List.Forall₂ R l l') {a : σ} {b : τ} (hab : T a b) :
    Alike T (l.foldlM f a) (l'.foldlM f' b) := by
  induction hl generalizing a b with
  | nil => exact .ok hab
  | cons hxy _ ih =>
    rw [List.foldlM_cons, List.foldlM_cons]
    exact (hstep a b _ _ hab hxy).bind fun a b hab => ih hab

end Outcome

/-! ### Items -/

namespace Item

variable {x y : Item}

theorem length_eq_of_beqAll : ∀ {xs ys : List Item}, beqAll xs ys = true → xs.length = ys.length
  | [], [], _ => rfl
  | _ :: xs, _ :: ys, h => by
    rw [beqAll, Bool.and_eq_true] at h
    rw [List.length_cons, List.length_cons, length_eq_of_beqAll h.2]
  | [], _ :: _, h | _ :: _, [], h => by simp [beqAll] at h

theorem text?_eq (h : (x == y) = true) : x.text? = y.text? := by
  cases x <;> cases y <;> simp_all [BEq.beq, beq, text?]

theorem eq_text_of_beq {name : String} (h : (text name == y) = true) : y = text name := by
  cases y with
  | text name' =>
    have hname : (name == name') = true := h
    rw [eq_of_beq hname]
  | _ => cases h

theorem edge?_rel (h : (x == y) = true) :
    Option.Rel (fun e f : Edge => (e == f) = true) x.edge? y.edge? := by
  cases x with
  | edge e =>
    cases y with
    | edge f => exact .some h
    | _ => cases h
  | _ => cases y <;> first | exact .none | cases h

end Item

theorem Edge.kind_eq_of_beq {e f : Edge} (h : (e == f) = true) : e.kind = f.kind :=
  (Edge.beq_iff.mp h).1

theorem Kind.edgeOf_alike (kind : Kind) {x y : Item} (h : (x == y) = true) :
    Outcome.Alike (fun e f : Edge => (e == f) = true) (kind.edgeOf x) (kind.edgeOf y) := by
  cases x with
  | edge e =>
    cases y with
    | edge f =>
      have hef : (e == f) = true := h
      rw [Kind.edgeOf, Kind.edgeOf, Edge.kind_eq_of_beq hef]
      split
      · exact .ok hef
      · exact .error (.wrongEdge kind h)
    | _ => cases h
  | _ => cases y <;> first | exact .error (.wrongEdge kind h) | cases h

theorem Attributes.lookup_alike (a : Attributes) {x y : Item} (h : (x == y) = true) :
    Outcome.Alike Eq (a.lookup x) (a.lookup y) := by
  rw [lookup, lookup, Item.text?_eq h]
  split
  · exact .ok rfl
  · exact .error (.notFound _ h)

/-- Two addresses of the same sort with equal parts. -/
inductive Address.Alike : Address → Address → Prop
  | graph {key key' : Item} (h : (key == key') = true) : Alike (.graph key) (.graph key')
  | node (name : String) {key key' : Item} (h : (key == key') = true) :
    Alike (.node name key) (.node name key')
  | edge {target target' key key' : Item} (ht : (target == target') = true)
      (h : (key == key') = true) :
    Alike (.edge target key) (.edge target' key')

/-- A tuple of other than two parts is no address. -/
theorem Address.ofItem_of_length_ne {parts : List Item} (h : parts.length ≠ 2) :
    Address.ofItem (.tuple parts) = .error (.pairLength parts.length) := by
  match parts, h with
  | [], _ | [_], _ | _ :: _ :: _ :: _, _ => simp only [Address.ofItem]
  | [_, _], h => exact absurd rfl h

theorem Address.ofItem_alike {x y : Item} (h : (x == y) = true) :
    Outcome.Alike Address.Alike (Address.ofItem x) (Address.ofItem y) := by
  cases x with
  | tuple xs =>
    cases y with
    | tuple ys =>
      have hlength := Item.length_eq_of_beqAll h
      by_cases htwo : xs.length = 2
      · obtain ⟨x, key, rfl⟩ := List.length_eq_two.mp htwo
        obtain ⟨y, key', rfl⟩ := List.length_eq_two.mp (hlength.symm.trans htwo)
        obtain ⟨hx, hkey, -⟩ : (x == y) = true ∧ (key == key') = true ∧ True := by
          simpa [BEq.beq, Item.beq, Item.beqAll] using h
        cases x with
        | text name =>
          obtain rfl := Item.eq_text_of_beq hx
          exact .ok (.node name hkey)
        | _ => cases y <;> first | exact .ok (.edge hx hkey) | cases hx
      · rw [ofItem_of_length_ne htwo, ofItem_of_length_ne (hlength ▸ htwo), hlength]
        exact .error (.refl _)
    | _ => cases h
  | _ => cases y <;> first | exact .ok (.graph h) | cases h

/-! ### Graphs -/

theorem Edge.meets_congr {e f : Edge} (h : (e == f) = true) {side : Side}
    (hside : side = .either ∨ e.kind = .directed) (node : String) :
    e.meets side node = f.meets side node := by
  rcases hside with rfl | hkind
  · exact Edge.touches_congr h node
  · obtain ⟨-, ⟨htail, hhead⟩ | ⟨hundirected, -⟩⟩ := Edge.beq_iff.mp h
    · cases side <;> simp only [meets, touches, htail, hhead]
    · cases hkind.symm.trans hundirected

theorem Kind.allows_eq_ok_iff {kind : Kind} {side : Side} :
    kind.allows side = .ok () ↔ side = .either ∨ kind = .directed := by
  cases kind <;> cases side <;> simp [allows]

/-- Two graphs with all the same contents, except that equal edges may be written differently. -/
structure Graph.Alike (g g' : Graph) : Prop where
  kind : g.kind = g'.kind
  name : g.name = g'.name
  attrs : g.attrs = g'.attrs
  nodes : g.nodes = g'.nodes
  edges : g.edges.Alike g'.edges

namespace Graph

/-- No node is listed twice. -/
theorem nodup_nodeNames (g : Graph) : g.nodeNames.Nodup := nodup_eraseDups _

/-- The nodes that are listed are all there are. -/
theorem mem_nodeNames_iff_hasNode {g : Graph} {name : String} :
    name ∈ g.nodeNames ↔ g.hasNode name = true := by
  rw [mem_nodeNames_iff, hasNode, Table.contains_eq_any_keys]
  simp only [Edge.touches, Bool.or_eq_true, List.any_eq_true, beq_iff_eq, exists_eq_right,
    @eq_comm _ name]

namespace Alike

variable {g g' : Graph} {x y key key' : Item} {a a' : Address}

theorem hasNode_eq (h : g.Alike g') (name : String) : g.hasNode name = g'.hasNode name := by
  have hany : ∀ {es es' : List Edge}, List.Forall₂ (fun e f : Edge => (e == f) = true) es es' →
      es.any (·.touches name) = es'.any (·.touches name) := by
    intro es es' hes
    induction hes with
    | nil => rfl
    | cons hef _ ih => rw [List.any_cons, List.any_cons, Edge.touches_congr hef name, ih]
  rw [hasNode, hasNode, h.nodes, hany h.edges.keys]

/-- The same names are those of nodes, though they may be listed in another order. -/
theorem nodeNames_perm (h : g.Alike g') : g.nodeNames.Perm g'.nodeNames :=
  (List.perm_ext_iff_of_nodup g.nodup_nodeNames g'.nodup_nodeNames).mpr fun name => by
    rw [mem_nodeNames_iff_hasNode, mem_nodeNames_iff_hasNode, h.hasNode_eq]

theorem hasEdge_eq (h : g.Alike g') (hxy : (x == y) = true) : g.hasEdge x = g'.hasEdge y := by
  have hedges := Item.edge?_rel hxy
  rw [hasEdge, hasEdge]
  generalize x.edge? = e?, y.edge? = f? at hedges
  cases hedges with
  | none => rfl
  | some hef => exact h.edges.contains_eq hef

theorem holds_eq (h : g.Alike g') (hxy : (x == y) = true) : g.holds x = g'.holds y := by
  rw [holds, holds, Item.text?_eq hxy, funext h.hasNode_eq]

/-- Equal edges are met in the same order. -/
theorem walk (h : g.Alike g') (hg : ∀ e ∈ g.edges.keys, e.kind = g.kind) (side : Side)
    (node : String) :
    Outcome.Alike (List.Forall₂ fun e f : Edge => (e == f) = true) (g.walk side node)
      (g'.walk side node) := by
  rw [Graph.walk, Graph.walk, ← h.kind]
  cases hallows : g.kind.allows side with
  | error e => exact .error (.refl e)
  | ok u =>
    have hside := Kind.allows_eq_ok_iff.mp hallows
    have hkeys : List.Forall₂ (fun e f : Edge => e.kind = g.kind ∧ (e == f) = true) g.edges.keys
        g'.edges.keys :=
      (List.forall₂_and_left _ _).mpr ⟨hg, h.edges.keys⟩
    refine .ok ((List.rel_filter (fun e f hef => ?_) hkeys).imp fun _ _ hef => hef.2)
    change e.meets side node = true ↔ f.meets side node = true
    rw [Edge.meets_congr hef.2 (hef.1 ▸ hside)]

theorem nodeAttr (h : g.Alike g') (name : String) (hkey : (key == key') = true) :
    Outcome.Alike Eq (g.nodeAttr name key) (g'.nodeAttr name key') := by
  rw [Graph.nodeAttr, Graph.nodeAttr, h.nodes]
  split
  · exact Attributes.lookup_alike _ hkey
  · exact .error (.refl _)

theorem edgeAttr (h : g.Alike g') (hxy : (x == y) = true) (hkey : (key == key') = true) :
    Outcome.Alike Eq (g.edgeAttr x key) (g'.edgeAttr y key') := by
  have hfound : x.edge?.bind g.edges.get? = y.edge?.bind g'.edges.get? := by
    have hedges := Item.edge?_rel hxy
    generalize x.edge? = e?, y.edge? = f? at hedges
    cases hedges with
    | none => rfl
    | some hef => exact h.edges.get?_eq hef
  rw [Graph.edgeAttr, Graph.edgeAttr, hfound]
  split
  · exact Attributes.lookup_alike _ hkey
  · exact .error (.notFound .edge hxy)

theorem attrAt (h : g.Alike g') (ha : a.Alike a') :
    Outcome.Alike Eq (g.attrAt a) (g'.attrAt a') := by
  cases ha with
  | graph hkey =>
    rw [Graph.attrAt, Graph.attrAt, h.attrs]
    exact Attributes.lookup_alike _ hkey
  | node name hkey => exact h.nodeAttr name hkey
  | edge ht hkey => exact h.edgeAttr ht hkey

theorem getItem (h : g.Alike g') (hxy : (x == y) = true) :
    Outcome.Alike Eq (g.getItem x) (g'.getItem y) :=
  (Address.ofItem_alike hxy).bind fun _ _ => h.attrAt

end Alike

end Graph

/-! ### Trees -/

namespace GraphTree

mutual

/-- Two trees of the same shape, with graphs that are alike. -/
def Alike : GraphTree → GraphTree → Prop
  | node g ts, node g' ts' => g.Alike g' ∧ AlikeAll ts ts'

/-- Two rows of trees that are alike, tree by tree. -/
def AlikeAll : List GraphTree → List GraphTree → Prop
  | [], [] => True
  | t :: ts, t' :: ts' => Alike t t' ∧ AlikeAll ts ts'
  | _, _ => False

end

theorem Alike.graph : ∀ {t t' : GraphTree}, t.Alike t' → t.graph.Alike t'.graph
  | .node _ _, .node _ _, h => h.1

theorem alikeAll_of_forall₂ {ts ts' : List GraphTree} (h : List.Forall₂ Alike ts ts') :
    AlikeAll ts ts' := by
  induction h with
  | nil => trivial
  | cons ht _ ih => exact ⟨ht, ih⟩

mutual

/-- The graphs of trees that are alike are alike, one by one. -/
theorem Alike.visited : ∀ {t t' : GraphTree}, t.Alike t' →
    List.Forall₂ Graph.Alike t.visited t'.visited
  | .node _ _, .node _ _, h => List.rel_append (AlikeAll.visitedAll h.2) (.cons h.1 .nil)

theorem AlikeAll.visitedAll : ∀ {ts ts' : List GraphTree}, AlikeAll ts ts' →
    List.Forall₂ Graph.Alike (visitedAll ts) (visitedAll ts')
  | [], [], _ => .nil
  | _ :: _, _ :: _, h => List.rel_append (Alike.visited h.1) (AlikeAll.visitedAll h.2)
  | [], _ :: _, h | _ :: _, [], h => h.elim

end

end GraphTree

end GraphScript
