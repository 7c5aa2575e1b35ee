import GraphScript.Proofs.Flattening
import GraphScript.Proofs.Indexing

/-!
# Adding what is there already

A node or an edge may be added over and over again, each time with some attributes. This module says
that it comes to the same whether attributes are added call by call or all at once.

* **Attributes** (`Attributes.Takes`): a key that was there keeps its place, new ones come behind in
  the order in which they are mentioned first, and the last mention of a key gives its value. This
  leaves nothing open (`Table.Distinct.eq_of_get?_eq`), so mentioning the same once more changes
  nothing (`Attributes.insertMany_insertMany`).
* **Stores** (`Session.step_add`, `Session.Attached.step_add_again`): a call hands out the store of
  what it adds, and a later call finds this store again, also if an edge is written from its other
  end.
* **Calls** (`Session.Additions`): calls can be put together, and a call that is repeated changes
  nothing, in every session that commands lead to.
-/

namespace GraphScript

/-! ### Taking attributes -/

namespace Table

variable {κ α : Type} [BEq κ] [LawfulBEq κ] {t u : Table κ α}

/-- A table with distinct keys says no more than which keys it has, in which order, and what stands
under them. -/
theorem Distinct.entries_eq (ht : t.Distinct) :
    t.entries = t.keys.filterMap fun k => (t.get? k).map (k, ·) := by
  rw [keys, List.filterMap_map]
  have hfound : ∀ e ∈ t.entries, (t.get? e.1).map (e.1, ·) = some e := fun e he => by
    rw [ht.get?_of_mem he BEq.rfl, Option.map_some]
  calc t.entries = t.entries.filterMap some := (List.filterMap_some).symm
    _ = _ := List.filterMap_congr fun e he => (hfound e he).symm

theorem Distinct.eq_of_get?_eq (ht : t.Distinct) (hu : u.Distinct) (hkeys : t.keys = u.keys)
    (hget : ∀ k, t.get? k = u.get? k) : t = u := by
  have hentries : t.entries = u.entries := by
    rw [ht.entries_eq, hu.entries_eq, hkeys, funext hget]
  exact congrArg Table.mk hentries

/-- Keys that were there stay in front, and those that are new come behind, in the order in which
they are written first. -/
theorem Distinct.keys_insertMany (ht : t.Distinct) (es : List (κ × α)) :
    (t.insertMany es).keys =
      t.keys ++ (es.map (·.1)).eraseDups.filter fun k => !t.contains k := by
  have hkeys := eraseDups_of_nodup ht.nodup_keys
  have hmem : ∀ k, t.keys.elem k = t.contains k := fun k => by
    rw [Bool.eq_iff_iff, List.elem_iff, mem_keys_iff]
  rw [keys_insertMany_of_eraseDups hkeys.symm, List.eraseDups_append, List.removeAll,
    eraseDups_filter, hkeys]
  simp only [hmem]

end Table

namespace Attributes

/-- The value that a key was given last, if it was given one. -/
def lastMention? (mentions : List (String × String)) (key : String) : Option String :=
  (mentions.reverse.find? (·.1 == key)).map (·.2)

/-- The attributes that there are after some were mentioned. A key that was there keeps its place,
and the others come behind in the order in which they are mentioned first. -/
structure Takes (old : Attributes) (mentions : List (String × String)) (new : Attributes) :
    Prop where
  keys : new.keys =
    old.keys ++ (mentions.map (·.1)).eraseDups.filter fun key => !old.contains key
  values (key : String) : new.get? key = (lastMention? mentions key).or (old.get? key)

theorem lastMention?_cons (a : String × String) (mentions : List (String × String)) (key : String) :
    lastMention? (a :: mentions) key =
      (lastMention? mentions key).or (if a.1 == key then some a.2 else none) := by
  have hlast : ([a].find? (·.1 == key)).map (·.2) = if a.1 == key then some a.2 else none := by
    rw [List.find?_singleton]
    split <;> rfl
  rw [lastMention?, List.reverse_cons, List.find?_append, Option.map_or, hlast, lastMention?]

theorem get?_insertMany (old : Attributes) (mentions : List (String × String)) (key : String) :
    Table.get? (Table.insertMany old mentions) key =
      (lastMention? mentions key).or (old.get? key) := by
  induction mentions generalizing old with
  | nil => rfl
  | cons a mentions ih =>
    rw [Table.insertMany, List.foldl_cons, ← Table.insertMany, ih, Table.get?_insert,
      lastMention?_cons, Option.or_assoc]
    split <;> rfl

theorem takes_insertMany {old : Attributes} (hold : old.Distinct)
    (mentions : List (String × String)) : old.Takes mentions (Table.insertMany old mentions) :=
  ⟨hold.keys_insertMany mentions, get?_insertMany old mentions⟩

theorem contains_insertMany_of_mem {old : Attributes} (hold : old.Distinct)
    {mentions : List (String × String)} {key : String} (hkey : key ∈ mentions.map (·.1)) :
    Table.contains (Table.insertMany old mentions) key = true := by
  rw [← Table.mem_keys_iff, hold.keys_insertMany, List.mem_append, List.mem_filter,
    List.mem_eraseDups, Table.mem_keys_iff, Bool.not_eq_true']
  cases hc : old.contains key with
  | true => exact .inl rfl
  | false => exact .inr ⟨hkey, rfl⟩

/-- **Mentioning the same once more changes nothing.** -/
theorem insertMany_insertMany {old : Attributes} (hold : old.Distinct)
    (mentions : List (String × String)) :
    Table.insertMany (Table.insertMany old mentions) mentions = Table.insertMany old mentions := by
  have hnew := hold.insertMany mentions
  refine (hnew.insertMany mentions).eq_of_get?_eq hnew ?_ fun key => ?_
  · have hnone : ((mentions.map (·.1)).eraseDups.filter fun key =>
        !Table.contains (Table.insertMany old mentions) key) = [] := by
      refine List.filter_eq_nil_iff.mpr fun key hkey => ?_
      rw [contains_insertMany_of_mem hold (List.mem_eraseDups.mp hkey)]
      exact Bool.false_ne_true
    rw [hnew.keys_insertMany, hnone, List.append_nil]
  · -- a key that is mentioned has its last value already
    rw [get?_insertMany, get?_insertMany]
    cases lastMention? mentions key <;> rfl

theorem insertMany_append (old : Attributes) (es es' : List (String × String)) :
    Table.insertMany old (es ++ es') = Table.insertMany (Table.insertMany old es) es' :=
  List.foldl_append

end Attributes

/-! ### Calls that add something -/

namespace Mentions

/-- Pairs of two parts each, and named attributes. -/
def ofPairs (pairs : List (String × String)) (named : Attributes) : Mentions :=
  ⟨pairs.map fun a => [a.1, a.2], named⟩

theorem fault?_ofPairs (pairs : List (String × String)) (named : Attributes) :
    (ofPairs pairs named).fault? = none :=
  Attributes.fault?_mentions ⟨pairs⟩

theorem taken_ofPairs (pairs : List (String × String)) (named : Attributes) :
    (ofPairs pairs named).taken = pairs ++ named.entries := by
  rw [taken, fault?_ofPairs, ofPairs]
  refine congrArg (· ++ named.entries) ?_
  induction pairs with
  | nil => rfl
  | cons a pairs ih => exact congrArg (a :: ·) ih

end Mentions

/-- What can be added to a graph. -/
inductive Element where
  /-- A node under its name. -/
  | node (name : String)
  | edge (e : Edge)

namespace Element

/-- The place of its attributes. -/
def place : Element → Slot
  | node name => .node name
  | edge e => .edge e

/-- The call that adds it with attributes, which are given in pairs and under their names. -/
def add (x : Element) (pairs : List (String × String)) (named : Attributes)
    (keep : Option String) : GraphEdit :=
  match x with
  | node name => .addNode name (.ofPairs pairs named) keep
  | edge e => .addEdge (.edge e) (.ofPairs pairs named) keep

/-- Nodes can be added to every graph, and edges to the graphs of their kind. -/
def Fits (kind : Kind) : Element → Prop
  | node _ => True
  | edge e => e.kind = kind

/-- Its store in a graph of a session, which is made if need be. -/
def storeIn (s : Session) (g : Nat) (r : GraphRecord) : Element → Nat × Session
  | node name => s.nodeStore g r name
  | edge e => s.edgeStore g r e

variable {x y : Element}

theorem Fits.congr {kind : Kind} (hx : x.Fits kind) (hxy : (x.place == y.place) = true) :
    y.Fits kind := by
  match x, y, hxy with
  | node _, node _, _ => exact trivial
  | edge e, edge f, hxy => exact (Edge.beq_iff.mp hxy).1.symm.trans hx

variable {s : Session} {g id : Nat} {r : GraphRecord}

/-- A store that there is is found, and nothing is made. -/
theorem storeIn_of_store? (h : r.store? x.place = some id) : x.storeIn s g r = (id, s) := by
  cases x with
  | node name =>
    have hfound : r.nodes.get? name = some id := h
    rw [storeIn, Session.nodeStore, hfound]
  | edge e =>
    have hfound : r.edges.table.get? e = some id := h
    rw [storeIn, Session.edgeStore, hfound]

theorem moves_storeIn (hr : s.graphs[g]? = some r) (hx : x.Fits r.kind) :
    Session.Moves (some g) s (x.storeIn s g r).2 ∧
      (x.storeIn s g r).2.Holds g (x.storeIn s g r).1 := by
  cases x with
  | node name => exact Session.moves_nodeStore hr name
  | edge e => exact Session.moves_edgeStore hr hx

theorem attached_storeIn (hs : s.Exclusive) (hr : s.graphs[g]? = some r) :
    (x.storeIn s g r).2.Attached g (s.view r) x.place (x.storeIn s g r).1 := by
  cases x with
  | node name => exact hs.attached_nodeStore hr name
  | edge e => exact hs.attached_edgeStore hr e

end Element

/-- An edge without direction has one store from whichever end it is written. -/
theorem GraphRecord.store?_congr {r : GraphRecord} {slot slot' : Slot}
    (h : (slot == slot') = true) : r.store? slot = r.store? slot' := by
  match slot, slot', h with
  | .graph, .graph, _ => rfl
  | .node name, .node other, h =>
    have hname : name = other := eq_of_beq h
    rw [hname]
  | .edge e, .edge f, h => exact r.edges.table.get?_congr (show (e == f) = true from h)

namespace Session

variable {s : Session} {g id : Nat} {r : GraphRecord} {graph : Graph} {x y : Element}

/-! ### Taking attributes into a store -/

/-- The store at a place of a graph, if there is one. -/
def storeAt? (s : Session) (g : Nat) (slot : Slot) : Option Nat :=
  s.graphs[g]?.bind (·.store? slot)

/-- Takes attributes into a store, answers what is in it then, and keeps it under a name, if one is
given. -/
def take (s : Session) (id : Nat) (es : List (String × String)) (keep : Option String) :
    Except Error Reply × Session :=
  let attrs := (s.store id).insertMany es
  (.ok (.attributes attrs), (s.setStore id attrs).keep keep id)

theorem store_keep (s : Session) (name : Option String) (id : Nat) :
    (s.keep name id).store = s.store := by
  cases name <;> rfl

theorem graphs_keep (s : Session) (name : Option String) (id : Nat) :
    (s.keep name id).graphs = s.graphs := by
  cases name <;> rfl

theorem setStore_keep (s : Session) (name : Option String) (id i : Nat) (attrs : Attributes) :
    (s.keep name i).setStore id attrs = (s.setStore id attrs).keep name i := by
  cases name <;> rfl

theorem keep_keep (s : Session) (name : Option String) (id : Nat) :
    (s.keep name id).keep name id = s.keep name id := by
  cases name with
  | none => rfl
  | some name => rw [keep, keep, Table.insert_insert_self]

theorem setStore_setStore (s : Session) (id : Nat) (attrs attrs' : Attributes) :
    (s.setStore id attrs).setStore id attrs' = s.setStore id attrs' := by
  rw [setStore, setStore, List.set_set, setStore]

theorem graphs_take (s : Session) (id : Nat) (es : List (String × String))
    (keep : Option String) : (s.take id es keep).2.graphs = s.graphs :=
  graphs_keep _ keep id

theorem length_stores_take (s : Session) (id : Nat) (es : List (String × String))
    (keep : Option String) : (s.take id es keep).2.stores.length = s.stores.length := by
  cases keep <;> exact List.length_set

theorem store_take (hid : id < s.stores.length) (es : List (String × String))
    (keep : Option String) : (s.take id es keep).2.store id = (s.store id).insertMany es := by
  rw [take, store_keep, store_setStore_self hid]

theorem takes_take (hid : id < s.stores.length) (hstore : (s.store id).Distinct)
    (es : List (String × String)) (keep : Option String) :
    (s.store id).Takes es ((s.take id es keep).2.store id) := by
  rw [store_take hid]
  exact Attributes.takes_insertMany hstore es

/-- Attributes can be taken one after the other or all together. -/
theorem take_take (hid : id < s.stores.length) (es es' : List (String × String))
    (keep keep' : Option String) :
    (s.take id es keep).2.take id es' keep' = (s.keep keep id).take id (es ++ es') keep' := by
  rw [take, store_take hid, take, setStore_keep, setStore_setStore, take, store_keep,
    setStore_keep, Attributes.insertMany_append]

/-- A name under which a store is kept has no part in what is taken. -/
theorem take_keep (s : Session) (id : Nat) (es : List (String × String))
    (keep keep' : Option String) :
    let kept := (s.keep keep id).take id es keep'
    kept = ((s.take id es keep').1, { (s.take id es keep').2 with handles := kept.2.handles }) := by
  cases keep <;> cases keep' <;> rfl

/-- Taking the same attributes once more changes nothing. -/
theorem take_again (hid : id < s.stores.length) (hstore : (s.store id).Distinct)
    (es : List (String × String)) (keep : Option String) :
    (s.take id es keep).2.take id es keep = s.take id es keep := by
  rw [take, store_take hid, Attributes.insertMany_insertMany hstore, take, setStore_keep,
    setStore_setStore, keep_keep]

/-! ### Adding once and again -/

theorem mergeStore_ofPairs (s : Session) (id : Nat) (pairs : List (String × String))
    (named : Attributes) (keep : Option String) :
    s.mergeStore id (.ofPairs pairs named) keep =
      (.ok (some ((s.store id).insertMany (pairs ++ named.entries))),
        (s.take id (pairs ++ named.entries) keep).2) := by
  rw [mergeStore, Attributes.merge, Mentions.fault?_ofPairs, Mentions.taken_ofPairs]
  rfl

/-- **A call that adds something** takes the attributes into its store. -/
theorem step_add (hr : s.graphs[g]? = some r) (hx : x.Fits r.kind)
    (pairs : List (String × String)) (named : Attributes) (keep : Option String) :
    s.step (.edit g (x.add pairs named keep)) =
      (x.storeIn s g r).2.take (x.storeIn s g r).1 (pairs ++ named.entries) keep := by
  rw [step_edit (record_eq_ok_iff.mpr hr)]
  cases x with
  | node name =>
    simp only [Element.add, edit, mergeStore_ofPairs]
    rfl
  | edge e =>
    have hgiven : r.kind.edgeOf (.edge e) = .ok e := Kind.edgeOf_eq_ok_iff.mpr ⟨rfl, hx⟩
    simp only [Element.add, edit, hgiven, mergeStore_ofPairs]
    rfl

/-- The record of a graph in which something was added. -/
theorem Attached.exists_record (h : s.Attached g graph x.place id) :
    ∃ r, s.graphs[g]? = some r ∧ r.kind = graph.kind ∧ r.store? x.place = some id := by
  obtain ⟨r, hr, hid, hput⟩ := h.record
  refine ⟨r, hr, ?_, hid⟩
  have hkind := congrArg Graph.kind (hput ∅)
  cases x <;> exact hkind

/-- What is there already is found again, from whichever end an edge is written. -/
theorem Attached.step_add_again (h : s.Attached g graph x.place id) (hx : x.Fits graph.kind)
    (hxy : (x.place == y.place) = true) (es : List (String × String)) (keep : Option String)
    (pairs : List (String × String)) (named : Attributes) (keep' : Option String) :
    (s.take id es keep).2.step (.edit g (y.add pairs named keep')) =
      (s.take id es keep).2.take id (pairs ++ named.entries) keep' := by
  obtain ⟨r, hr, hkind, hid⟩ := h.exists_record
  have hr' : (s.take id es keep).2.graphs[g]? = some r := (graphs_take s id es keep) ▸ hr
  have hy : y.Fits r.kind := hkind ▸ hx.congr hxy
  rw [GraphRecord.store?_congr hxy] at hid
  rw [step_add hr' hy, Element.storeIn_of_store? hid]

/-- A call hands out the store at a place: it answers what is in the store and keeps it, if it is
told to, and whatever is written to the store later shows at the place. -/
structure HandsOut (outcome : Except Error Reply × Session) (g : Nat) (slot : Slot)
    (keep : Option String) (id : Nat) : Prop where
  reply : outcome.1 = .ok (.attributes (outcome.2.store id))
  kept (name : String) (hname : keep = some name) : outcome.2.handles.get? name = some id
  place : outcome.2.storeAt? g slot = some id
  live (attrs : Attributes) : ∃ graph : Graph,
    (outcome.2.setStore id attrs).graph? g = some graph ∧ graph.attrs? slot = some attrs

theorem handsOut_take {slot : Slot} (hr : s.graphs[g]? = some r) (hslot : r.store? slot = some id)
    (hid : id < s.stores.length) (es : List (String × String)) (keep : Option String) :
    HandsOut (s.take id es keep) g slot keep id where
  reply := by rw [store_take hid, take]
  kept name hname := by
    rw [hname]
    exact Table.get?_insert_self _ _ _
  place := by rw [storeAt?, graphs_take, hr, Option.bind_some, hslot]
  live attrs := by
    have hr' : ((s.take id es keep).2.setStore id attrs).graphs[g]? = some r :=
      (graphs_take s id es keep) ▸ hr
    refine ⟨_, graph?_eq hr', ?_⟩
    have hself : ((s.take id es keep).2.setStore id attrs).store id = attrs := by
      rw [take, setStore_keep, setStore_setStore, store_keep, store_setStore_self hid]
    rw [attrs?_view, hslot, Option.map_some, hself]

/-! ### Calls in a row -/

/-- How calls that add the same node or the same edge go together. -/
structure Additions (s : Session) (g : Nat) (graph : Graph) (x : Element) : Prop where
  /-- An edge of the other kind is refused, and nothing is changed. -/
  refused (hx : ¬ x.Fits graph.kind) (pairs : List (String × String)) (named : Attributes)
    (keep : Option String) : ∃ item,
      s.step (.edit g (x.add pairs named keep)) = (.error (.wrongEdge graph.kind item), s)
  /-- Two calls come to the same as one that is given all attributes, but for the name under which
  the first one may keep the store. The second one may write an edge in any way that is equal. -/
  batched (hx : x.Fits graph.kind) (y : Element) (hxy : (x.place == y.place) = true)
    (pairs pairs' : List (String × String)) (named named' : Attributes)
    (keep keep' : Option String) :
    let twice := (s.step (.edit g (x.add pairs named keep))).2.step
      (.edit g (y.add pairs' named' keep'))
    let once := s.step
      (.edit g (x.add (pairs ++ named.entries ++ pairs' ++ named'.entries) ∅ keep'))
    twice = (once.1, { once.2 with handles := twice.2.handles }) ∧ (keep = none → twice = once)
  /-- A call that is repeated answers the same and changes nothing. -/
  repeated (hx : x.Fits graph.kind) (y : Element) (hxy : (x.place == y.place) = true)
    (pairs : List (String × String)) (named : Attributes) (keep : Option String) :
    (s.step (.edit g (x.add pairs named keep))).2.step (.edit g (y.add pairs named keep)) =
      s.step (.edit g (x.add pairs named keep))
  /-- All calls hand out one store, which is the one that was there before, if there was one, and
  each takes the attributes that it is given into it. -/
  stored (hx : x.Fits graph.kind) (pairs : List (String × String)) (named : Attributes)
    (keep : Option String) :
    let once := s.step (.edit g (x.add pairs named keep))
    ∃ id, HandsOut once g x.place keep id ∧
      (∀ former, s.storeAt? g x.place = some former → id = former) ∧
      (graph.attrsAt x.place).Takes (pairs ++ named.entries) (once.2.store id) ∧
      ∀ y : Element, (x.place == y.place) = true → ∀ pairs' named' keep',
        let twice := once.2.step (.edit g (y.add pairs' named' keep'))
        HandsOut twice g y.place keep' id ∧
          (once.2.store id).Takes (pairs' ++ named'.entries) (twice.2.store id)

/-- All calls that add the same thing reach the same store in the same way, and differ only in what
they take into it. -/
theorem Exclusive.exists_store (hs : s.Exclusive) (hwf : s.WellFormed) (hr : s.graphs[g]? = some r)
    (hx : x.Fits r.kind) : ∃ (s' : Session) (id : Nat),
      s'.Attached g (s.view r) x.place id ∧ id < s'.stores.length ∧ (s'.store id).Distinct ∧
      (∀ former, s.storeAt? g x.place = some former → id = former) ∧
      ∀ pairs named keep, s.step (.edit g (x.add pairs named keep)) =
        s'.take id (pairs ++ named.entries) keep := by
  obtain ⟨hm, hholds⟩ := x.moves_storeIn hr hx
  refine ⟨(x.storeIn s g r).2, (x.storeIn s g r).1, x.attached_storeIn hs hr,
    (hm.keep Move.exclusive hs).made g _ hholds, (hm.keep Move.wellFormed hwf).store _,
    fun former hformer => ?_, step_add hr hx⟩
  rw [storeAt?, hr, Option.bind_some] at hformer
  rw [Element.storeIn_of_store? hformer]

theorem Exclusive.additions (hs : s.Exclusive) (hwf : s.WellFormed) (hr : s.graphs[g]? = some r)
    (x : Element) : s.Additions g (s.view r) x := by
  have hfits := fun hx => hs.exists_store (x := x) hwf hr hx
  constructor
  case refused =>
    intro hx pairs named keep
    cases x with
    | node name => exact absurd trivial hx
    | edge e =>
      refine ⟨.edge e, step_edit_of_wrongEdge (record_eq_ok_iff.mpr hr) rfl fun edge hok => hx ?_⟩
      obtain ⟨hedge, hkind⟩ := Kind.edgeOf_eq_ok_iff.mp hok
      exact (Item.edge.inj hedge) ▸ hkind
  case batched =>
    intro hx y hxy pairs pairs' named named' keep keep' twice once
    obtain ⟨s', id, hattached, hid, -, -, hstep⟩ := hfits hx
    have hnone : (∅ : Attributes).entries = [] := rfl
    have honce : once =
        s'.take id ((pairs ++ named.entries) ++ (pairs' ++ named'.entries)) keep' := by
      rw [← List.append_assoc, ← List.append_nil (_ ++ named'.entries), ← hnone]
      exact hstep _ ∅ keep'
    have htwice : twice = (s'.keep keep id).take id
        ((pairs ++ named.entries) ++ (pairs' ++ named'.entries)) keep' := by
      rw [← take_take hid, ← hattached.step_add_again hx hxy, ← hstep]
    rw [htwice, honce]
    refine ⟨take_keep s' id _ keep keep', ?_⟩
    rintro rfl
    rfl
  case repeated =>
    intro hx y hxy pairs named keep
    obtain ⟨s', id, hattached, hid, hstore, -, hstep⟩ := hfits hx
    rw [hstep, hattached.step_add_again hx hxy, take_again hid hstore]
  case stored =>
    intro hx pairs named keep once
    obtain ⟨s', id, hattached, hid, hstore, hformer, hstep⟩ := hfits hx
    have honce : once = s'.take id (pairs ++ named.entries) keep := hstep pairs named keep
    obtain ⟨r', hr', -, hslot⟩ := hattached.exists_record
    refine ⟨id, ?_, hformer, ?_, fun y hxy pairs' named' keep' => ?_⟩
    · rw [honce]
      exact handsOut_take hr' hslot hid _ keep
    · rw [honce, ← hattached.store]
      exact takes_take hid hstore _ keep
    · intro twice
      have htwice : twice = once.2.take id (pairs' ++ named'.entries) keep' := by
        have hagain := hattached.step_add_again hx hxy (pairs ++ named.entries) keep pairs' named'
          keep'
        rwa [← honce] at hagain
      have hid' : id < once.2.stores.length := by
        rw [honce, length_stores_take]
        exact hid
      have hr'' : once.2.graphs[g]? = some r' := by
        rw [honce, graphs_take, hr']
      have hstore' : (once.2.store id).Distinct := by
        rw [honce, store_take hid]
        exact hstore.insertMany _
      rw [htwice]
      exact ⟨handsOut_take hr'' ((GraphRecord.store?_congr hxy).symm.trans hslot) hid' _ keep',
        takes_take hid' hstore' _ keep'⟩

/-- **Adding is idempotent and can be batched**, in every graph that commands lead to. -/
theorem additions_run (cs : List Command) (g : Nat) {graph : Graph}
    (hg : (run {} cs).2.graph? g = some graph) (x : Element) :
    (run {} cs).2.Additions g graph x := by
  obtain ⟨hs, hwf⟩ := run_induction Move.wellFormed cs exclusive_empty wellFormed_empty
  obtain ⟨r, hr, rfl⟩ := Option.map_eq_some_iff.mp hg
  exact hs.additions hwf hr x

/-- The second call writes an edge from its other end. A label that was there keeps its place and
takes the new value, and of two colours the second one stays. -/
theorem additions_other_end :
    let edge : Edge := ⟨.undirected, "a", "b"⟩
    let other : Edge := ⟨.undirected, "b", "a"⟩
    let cs : List Command := [.create (some .undirected) "",
      .edit 0 (.addEdge (.edge edge) (.ofPairs [("label", "x"), ("style", "bold")] ∅) none)]
    let pairs := [("color", "red"), ("label", "y"), ("color", "blue")]
    let named : Attributes := ⟨[("width", "2")]⟩
    let s := (run {} cs).2
    let once := s.step (.edit 0 (.addEdge (.edge edge) (.ofPairs pairs named) none))
    once.2.step (.edit 0 (.addEdge (.edge other) (.ofPairs pairs named) none)) = once ∧
      once.2.step (.edit 0 (.addEdge (.edge other) (.ofPairs [("width", "3")] named) (some "e"))) =
        s.step (.edit 0 (.addEdge (.edge edge) (.ofPairs [("color", "red"), ("label", "y"),
          ("color", "blue"), ("width", "2"), ("width", "3"), ("width", "2")] ∅) (some "e"))) ∧
      ∃ id, HandsOut once 0 (.edge edge) none id ∧ once.2.store id =
        ⟨[("label", "y"), ("style", "bold"), ("color", "blue"), ("width", "2")]⟩ := by
  intro edge other cs pairs named s once
  let graph : Graph :=
    { kind := .undirected, edges := ⟨[(edge, ⟨[("label", "x"), ("style", "bold")]⟩)]⟩ }
  have hg : (run {} cs).2.graph? 0 = some graph := by rfl
  have laws := additions_run cs 0 hg (.edge edge)
  have hsame : ((Element.edge edge).place == (Element.edge other).place) = true := by decide
  obtain ⟨id, hid, hformer, -⟩ := laws.stored rfl pairs named none
  refine ⟨laws.repeated rfl (.edge other) hsame pairs named none,
    (laws.batched rfl (.edge other) hsame pairs [("width", "3")] named named none (some "e")).2 rfl,
    id, hid, ?_⟩
  rw [hformer 1 rfl]
  rfl

end Session

end GraphScript
