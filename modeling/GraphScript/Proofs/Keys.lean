import GraphScript.Proofs.Flattening
import Mathlib.Data.Finset.Insert
import Mathlib.Data.List.Sort
import Mathlib.Logic.Function.Basic

/-!
# Edges as keys

A table finds a key by its hash and then by `==`, so it relies on the laws of both. This module says
that the keys that callers may use keep these laws, and what a table comes to that is filled in
order.

* **Equality** (`Item.KeyLaws`): keys are equal when they are of one shape and their parts agree.
  The ends of an undirected edge count as a set, those of a directed edge as a pair.
* **Hashes** (`Item.Hashing.hash_eq`): keys that are equal have one hash, whatever function hashes
  their parts. So a table that looks at hashes first comes to the same as one that does not
  (`Edge.classesBy_hash`).
* **Filling a table** (`Edge.Grouping`): positions of equal edges are put together, under the one
  that comes first. This leaves nothing open (`Edge.Grouping.eq_classes`): the keys are the edges
  without repetitions, and under each stand the positions of all that equal it
  (`Edge.entries_classes`).
-/

namespace GraphScript

/-! ### When keys are equal -/

namespace Edge

variable {a b c d : String}

/-- An undirected edge is known by the set of its ends. -/
theorem undirected_beq_iff : ((⟨.undirected, a, b⟩ : Edge) == ⟨.undirected, c, d⟩) = true ↔
    ({a, b} : Finset String) = {c, d} := by
  rw [← Finset.coe_inj, Finset.coe_pair, Finset.coe_pair, Set.pair_eq_pair_iff]
  simp [beq_iff]

/-- A directed edge is known by the pair of its ends. -/
theorem directed_beq_iff : ((⟨.directed, a, b⟩ : Edge) == ⟨.directed, c, d⟩) = true ↔
    (a, b) = (c, d) := by
  simp [beq_iff]

end Edge

namespace Item

variable {x : Item}

theorem nothing_beq_iff : (nothing == x) = true ↔ x = .nothing := by
  cases x with
  | nothing => exact iff_of_true rfl rfl
  | _ => exact iff_of_false Bool.false_ne_true (by simp)

theorem text_beq_iff {s : String} : (text s == x) = true ↔ x = .text s := by
  cases x with
  | text t =>
    change (s == t) = true ↔ _
    rw [beq_iff_eq, Item.text.injEq, eq_comm]
  | _ => exact iff_of_false Bool.false_ne_true (by simp)

theorem edge_beq_iff {e : Edge} : (edge e == x) = true ↔ ∃ f, x = .edge f ∧ (e == f) = true := by
  cases x with
  | edge f =>
    simp only [Item.edge.injEq, exists_eq_left']
    rfl
  | _ => exact iff_of_false Bool.false_ne_true (by simp)

theorem beqAll_iff_forall₂ {xs ys : List Item} :
    beqAll xs ys = true ↔ List.Forall₂ (fun x y => (x == y) = true) xs ys := by
  induction xs generalizing ys with
  | nil => cases ys <;> simp [beqAll]
  | cons x xs ih =>
    cases ys with
    | nil => simp [beqAll]
    | cons y ys =>
      rw [beqAll, Bool.and_eq_true, List.forall₂_cons, ih]
      rfl

theorem tuple_beq_iff {xs : List Item} : (tuple xs == x) = true ↔
    ∃ ys, x = .tuple ys ∧ List.Forall₂ (fun x y => (x == y) = true) xs ys := by
  cases x with
  | tuple ys =>
    simp only [Item.tuple.injEq, exists_eq_left', ← beqAll_iff_forall₂]
    rfl
  | _ => exact iff_of_false Bool.false_ne_true (by simp)

/-! ### Hashes -/

/-- A function that hashes items in the way of keys: an undirected edge by the set of its ends, a
directed one by the pair of its ends, and a tuple by the hashes of its parts. Nothing is said of the
functions that are behind this. -/
structure Hashing (h : Item → UInt64) : Prop where
  undirected : ∃ ofEnds : Finset String → UInt64,
    ∀ a b, h (.edge ⟨.undirected, a, b⟩) = ofEnds {a, b}
  directed : ∃ ofPair : String × String → UInt64,
    ∀ a b, h (.edge ⟨.directed, a, b⟩) = ofPair (a, b)
  tuple : ∃ ofParts : List UInt64 → UInt64, ∀ items, h (.tuple items) = ofParts (items.map h)

theorem hashAll_eq_foldr (items : List Item) :
    hashAll items = (items.map hash).foldr mixHash 7 := by
  induction items with
  | nil => rfl
  | cons x items ih =>
    rw [hashAll, ih]
    rfl

/-- The hash of items is of this kind. -/
theorem hashing_hash : Hashing hash where
  undirected := by
    let ends (ab : String × String) : Finset String := {ab.1, ab.2}
    let hashEnds (ab : String × String) : UInt64 := hash (edge ⟨.undirected, ab.1, ab.2⟩)
    have hfactors : hashEnds.FactorsThrough ends := fun ab cd hends =>
      hashItem_eq (x := edge _) (y := edge _) (Edge.undirected_beq_iff.mpr hends)
    obtain ⟨ofEnds, hof⟩ := (Function.factorsThrough_iff hashEnds).mp hfactors
    exact ⟨ofEnds, fun a b => congrFun hof (a, b)⟩
  directed := ⟨fun ab => hash (edge ⟨.directed, ab.1, ab.2⟩), fun _ _ => rfl⟩
  tuple := ⟨fun hashes => mixHash 19 (hashes.foldr mixHash 7), fun items =>
    congrArg (mixHash 19) (hashAll_eq_foldr items)⟩

namespace Hashing

variable {h : Item → UInt64}

theorem hash_edge (hh : Hashing h) {e f : Edge} (hef : (e == f) = true) :
    h (.edge e) = h (.edge f) := by
  obtain ⟨ofEnds, hundirected⟩ := hh.undirected
  obtain ⟨k, a, b⟩ := e
  obtain ⟨k', c, d⟩ := f
  obtain rfl : k = k' := (Edge.beq_iff.mp hef).1
  cases k with
  | undirected => rw [hundirected, hundirected, Edge.undirected_beq_iff.mp hef]
  | directed =>
    obtain ⟨rfl, rfl⟩ := Prod.mk.inj (Edge.directed_beq_iff.mp hef)
    rfl

mutual

/-- **Equal items have one hash**, at whatever depth there are edges in them. -/
theorem hash_eq (hh : Hashing h) : ∀ {x y : Item}, (x == y) = true → h x = h y
  | .nothing, _, hxy => by rw [nothing_beq_iff.mp hxy]
  | .text s, _, hxy => by rw [text_beq_iff.mp hxy]
  | .edge e, _, hxy => by
    obtain ⟨f, rfl, hef⟩ := edge_beq_iff.mp hxy
    exact hh.hash_edge hef
  | .tuple xs, _, hxy => by
    obtain ⟨ofParts, htuple⟩ := hh.tuple
    obtain ⟨ys, rfl, hall⟩ := tuple_beq_iff.mp hxy
    rw [htuple, htuple, map_hash_eq hh hall]

theorem map_hash_eq (hh : Hashing h) : ∀ {xs ys : List Item},
    List.Forall₂ (fun x y => (x == y) = true) xs ys → xs.map h = ys.map h
  | [], _, hall => by rw [List.forall₂_nil_left_iff.mp hall]
  | x :: xs, _, hall => by
    obtain ⟨y, ys, hxy, htail, rfl⟩ := List.forall₂_cons_left_iff.mp hall
    rw [List.map_cons, List.map_cons, hash_eq hh hxy, map_hash_eq hh htail]

end

end Hashing

/-! ### Laws of keys -/

/-- What a table relies on: when items are equal, and that their hashes are equal then. -/
structure KeyLaws : Prop where
  equivalence : Equivalence fun x y : Item => (x == y) = true
  nothing (x : Item) : (Item.nothing == x) = true ↔ x = .nothing
  text (s : String) (x : Item) : (Item.text s == x) = true ↔ x = .text s
  edge (e : Edge) (x : Item) : (Item.edge e == x) = true ↔ ∃ f, x = .edge f ∧ (e == f) = true
  tuple (xs : List Item) (x : Item) : (Item.tuple xs == x) = true ↔
    ∃ ys, x = .tuple ys ∧ List.Forall₂ (fun x y => (x == y) = true) xs ys
  undirected (a b c d : String) : ((⟨.undirected, a, b⟩ : Edge) == ⟨.undirected, c, d⟩) = true ↔
    ({a, b} : Finset String) = {c, d}
  directed (a b c d : String) :
    ((⟨.directed, a, b⟩ : Edge) == ⟨.directed, c, d⟩) = true ↔ (a, b) = (c, d)
  /-- Edges of different kinds are never equal. -/
  mixed (a b c d : String) : ((⟨.undirected, a, b⟩ : Edge) == ⟨.directed, c, d⟩) = false ∧
    ((⟨.directed, c, d⟩ : Edge) == ⟨.undirected, a, b⟩) = false
  hashing : Hashing hash
  /-- Equal items have equal hashes, as soon as edges are hashed by their ends. -/
  hash_eq (h : Item → UInt64) (hh : Hashing h) (x y : Item) (hxy : (x == y) = true) : h x = h y

theorem keyLaws : KeyLaws where
  equivalence := ⟨fun _ => BEq.rfl, BEq.symm, BEq.trans⟩
  nothing _ := nothing_beq_iff
  text _ _ := text_beq_iff
  edge _ _ := edge_beq_iff
  tuple _ _ := tuple_beq_iff
  undirected _ _ _ _ := Edge.undirected_beq_iff
  directed _ _ _ _ := Edge.directed_beq_iff
  mixed _ _ _ _ := ⟨rfl, rfl⟩
  hashing := hashing_hash
  hash_eq _ hh _ _ := hh.hash_eq

end Item

/-! ### Positions of equal entries -/

section Positions

variable {α : Type} [BEq α] {l : List α} {a b : α}

theorem idxsOf_concat (l : List α) (a b : α) :
    (l ++ [a]).idxsOf b = if a == b then l.idxsOf b ++ [l.length] else l.idxsOf b := by
  rw [List.idxsOf_append, List.idxsOf_cons, List.idxsOf_nil, Nat.zero_add]
  split
  · rfl
  · exact List.append_nil _

theorem mem_idxsOf_iff {i : Nat} : i ∈ l.idxsOf a ↔ ∃ b, l[i]? = some b ∧ (b == a) = true := by
  rw [List.mem_idxsOf_iff_exists_getElem_pos]
  constructor
  · rintro ⟨hi, hb⟩
    exact ⟨l[i], List.getElem?_eq_getElem hi, hb⟩
  · rintro ⟨b, hi, hb⟩
    obtain ⟨hlt, rfl⟩ := List.getElem?_eq_some_iff.mp hi
    exact ⟨hlt, hb⟩

/-- The first position is the place where an entry is found. -/
theorem idxOf_eq_of_idxsOf_eq_cons {i : Nat} {rest : List Nat} (h : l.idxsOf a = i :: rest) :
    l.idxOf a = i := by
  have hpos : 0 < (l.idxsOf a).length := by
    rw [h]
    exact Nat.succ_pos _
  rw [← List.getElem_zero_idxsOf_eq_idxOf hpos]
  simp only [h, List.getElem_cons_zero]

variable [EquivBEq α]

theorem exists_idxsOf_eq_cons (h : a ∈ l.eraseDups) :
    ∃ rest, l.idxsOf a = l.idxOf a :: rest ∧ l[l.idxOf a]? = some a := by
  have hplace := mem_eraseDups_iff_getElem?.mp h
  obtain ⟨hlt, -⟩ := List.getElem?_eq_some_iff.mp hplace
  obtain ⟨i, rest, hpositions⟩ :=
    List.exists_cons_of_ne_nil (List.ne_nil_of_mem (List.idxOf_mem_idxsOf hlt))
  exact ⟨rest, by rw [idxOf_eq_of_idxsOf_eq_cons hpositions, hpositions], hplace⟩

/-- **Every position is one of exactly one entry that is kept.** -/
theorem perm_flatMap_idxsOf (l : List α) :
    (l.eraseDups.flatMap l.idxsOf).Perm (List.range l.length) := by
  have hdisjoint : l.eraseDups.Pairwise fun a b => (l.idxsOf a).Disjoint (l.idxsOf b) := by
    refine (pairwise_eraseDups l).imp fun {a b} hne i ha hb => ?_
    obtain ⟨c, hc, hca⟩ := mem_idxsOf_iff.mp ha
    obtain ⟨c', hc', hcb⟩ := mem_idxsOf_iff.mp hb
    obtain rfl := Option.some.inj (hc.symm.trans hc')
    rw [BEq.trans (BEq.symm hca) hcb] at hne
    cases hne
  have hnodup : (l.eraseDups.flatMap l.idxsOf).Nodup :=
    List.nodup_flatMap.mpr ⟨fun _ _ => List.nodup_idxsOf, hdisjoint⟩
  refine (List.perm_ext_iff_of_nodup hnodup List.nodup_range).mpr fun i => ?_
  rw [List.mem_flatMap, List.mem_range]
  constructor
  · rintro ⟨a, -, ha⟩
    exact (List.mem_idxsOf_iff_exists_getElem_pos.mp ha).1
  · intro hi
    obtain ⟨a, ha, hsame⟩ := exists_mem_eraseDups (List.getElem_mem hi)
    exact ⟨a, ha, mem_idxsOf_iff.mpr ⟨l[i], List.getElem?_eq_getElem hi, BEq.symm hsame⟩⟩

end Positions

/-! ### Filling a table -/

/-- A table whose values are those of a function of the keys. -/
theorem Table.entries_eq_map {κ α : Type} {t : Table κ α} {f : κ → α}
    (h : ∀ entry ∈ t.entries, entry.2 = f entry.1) :
    t.entries = t.keys.map fun k => (k, f k) := by
  have hentry : ∀ entry ∈ t.entries, (entry.1, f entry.1) = entry := fun entry hmem => by
    rw [← h entry hmem]
  rw [keys, List.map_map]
  exact ((List.map_congr_left hentry).trans (List.map_id' _)).symm

namespace Edge

/-- How a table groups the positions of a list: each is in one entry, and two are in the same one
if the edges there are equal. -/
structure Grouping (edges : List Edge) (groups : Table Edge (List Nat)) : Prop where
  each : groups.values.flatten.Perm (List.range edges.length)
  share {i j : Nat} {e f : Edge} (hi : edges[i]? = some e) (hj : edges[j]? = some f) :
    (∃ group ∈ groups.values, i ∈ group ∧ j ∈ group) ↔ (e == f) = true
  /-- The positions of an entry increase, and its key is the edge at the first of them. -/
  key {entry : Edge × List Nat} (h : entry ∈ groups.entries) : entry.2.Pairwise (· < ·) ∧
    ∃ first rest, entry.2 = first :: rest ∧ edges[first]? = some entry.1
  /-- Entries stand in the order of their first positions. -/
  order : groups.values.Pairwise fun group later =>
    ∃ i j, group.head? = some i ∧ later.head? = some j ∧ i < j

theorem classes_concat (edges : List Edge) (e : Edge) : classes (edges ++ [e]) =
    (classes edges).insert e (((classes edges).get? e).getD [] ++ [edges.length]) := by
  rw [classes, List.zipIdx_append, List.foldl_append, Nat.zero_add, ← classes]
  rfl

theorem keys_classes (edges : List Edge) : (classes edges).keys = edges.eraseDups := by
  induction edges using List.reverseRecOn with
  | nil => rfl
  | append_singleton edges e ih =>
    rw [classes_concat, Table.keys_insert_of_eraseDups ih]

/-- Under an edge stand the positions of all that equal it. -/
theorem getD_get?_classes (edges : List Edge) (e : Edge) :
    ((classes edges).get? e).getD [] = edges.idxsOf e := by
  induction edges using List.reverseRecOn with
  | nil => rfl
  | append_singleton edges f ih =>
    rw [classes_concat, Table.get?_insert, idxsOf_concat]
    split
    · next hsame => rw [Option.getD_some, Table.get?_congr _ hsame, ih]
    · exact ih

/-- **What filling a table leads to.** -/
theorem entries_classes (edges : List Edge) :
    (classes edges).entries = edges.eraseDups.map fun e => (e, edges.idxsOf e) := by
  have hdistinct : (classes edges).Distinct := by
    rw [Table.distinct_iff_keys, keys_classes]
    exact pairwise_eraseDups edges
  rw [← keys_classes]
  refine Table.entries_eq_map fun entry hentry => ?_
  rw [← getD_get?_classes, hdistinct.get?_of_mem hentry BEq.rfl, Option.getD_some]

/-- Edges of two kinds, and some of them written from their other end. -/
example : (classes [⟨.undirected, "a", "b"⟩, ⟨.directed, "b", "a"⟩, ⟨.undirected, "b", "a"⟩,
      ⟨.directed, "a", "b"⟩, ⟨.directed, "b", "a"⟩]).entries =
    [(⟨.undirected, "a", "b"⟩, [0, 2]), (⟨.directed, "b", "a"⟩, [1, 4]),
      (⟨.directed, "a", "b"⟩, [3])] := by rfl

theorem values_classes (edges : List Edge) :
    (classes edges).values = edges.eraseDups.map edges.idxsOf := by
  rw [Table.values, entries_classes, List.map_map]
  rfl

theorem grouping_classes (edges : List Edge) : Grouping edges (classes edges) where
  each := by
    rw [values_classes, ← List.flatMap_def]
    exact perm_flatMap_idxsOf edges
  share {i j e f} hi hj := by
    simp only [values_classes, List.mem_map, exists_exists_and_eq_and, mem_idxsOf_iff, hi, hj,
      Option.some.injEq, exists_eq_left']
    constructor
    · rintro ⟨k, -, hek, hfk⟩
      exact BEq.trans hek (BEq.symm hfk)
    · intro hef
      obtain ⟨k, hk, hsame⟩ := exists_mem_eraseDups (List.mem_of_getElem? hi)
      exact ⟨k, hk, BEq.symm hsame, BEq.trans (BEq.symm hef) (BEq.symm hsame)⟩
  key {entry} hentry := by
    rw [entries_classes] at hentry
    obtain ⟨e, he, rfl⟩ := List.mem_map.mp hentry
    obtain ⟨rest, hpositions, hplace⟩ := exists_idxsOf_eq_cons he
    exact ⟨List.pairwise_idxsOf, _, rest, hpositions, hplace⟩
  order := by
    rw [values_classes, List.pairwise_map]
    refine (pairwise_idxOf_eraseDups edges).imp_of_mem fun {e f} he hf hlt => ?_
    obtain ⟨_, hpositions, -⟩ := exists_idxsOf_eq_cons he
    obtain ⟨_, hpositions', -⟩ := exists_idxsOf_eq_cons hf
    rw [hpositions, hpositions']
    exact ⟨_, _, rfl, rfl, hlt⟩

namespace Grouping

variable {edges : List Edge} {groups : Table Edge (List Nat)}

/-- A position is in one entry only. -/
theorem eq_of_mem (hg : Grouping edges groups) {group group' : List Nat} (h : group ∈ groups.values)
    (h' : group' ∈ groups.values) {i : Nat} (hi : i ∈ group) (hi' : i ∈ group') :
    group = group' := by
  have hdisjoint := (List.nodup_flatten.mp (hg.each.nodup_iff.mpr List.nodup_range)).2
  have : Std.Symm (List.Disjoint (α := Nat)) := ⟨fun _ _ => List.Disjoint.symm⟩
  by_contra hne
  exact hdisjoint.forall h h' hne hi hi'

theorem exists_mem_iff (hg : Grouping edges groups) {i : Nat} :
    (∃ group ∈ groups.values, i ∈ group) ↔ i < edges.length := by
  rw [← List.mem_flatten, hg.each.mem_iff, List.mem_range]

theorem positions_eq (hg : Grouping edges groups) {entry : Edge × List Nat}
    (h : entry ∈ groups.entries) : entry.2 = edges.idxsOf entry.1 := by
  obtain ⟨hincrease, first, rest, hfirst, hkey⟩ := hg.key h
  have hgroup : entry.2 ∈ groups.values := List.mem_map_of_mem h
  have hmem : first ∈ entry.2 := by
    rw [hfirst]
    exact List.mem_cons_self
  refine hincrease.eq_of_mem_iff List.pairwise_idxsOf fun i => ?_
  rw [mem_idxsOf_iff]
  constructor
  · intro hi
    have hplace := List.getElem?_eq_getElem (hg.exists_mem_iff.mp ⟨_, hgroup, hi⟩)
    exact ⟨_, hplace, (hg.share hplace hkey).mp ⟨_, hgroup, hi, hmem⟩⟩
  · rintro ⟨f, hi, hf⟩
    obtain ⟨group, hgroup', hi', hmem'⟩ := (hg.share hi hkey).mpr hf
    rwa [hg.eq_of_mem hgroup hgroup' hmem hmem']

/-- The key of an entry stands where its first position is. -/
theorem place (hg : Grouping edges groups) {entry : Edge × List Nat} (h : entry ∈ groups.entries) :
    entry.2.head? = some (edges.idxOf entry.1) ∧ edges[edges.idxOf entry.1]? = some entry.1 := by
  obtain ⟨-, first, rest, hfirst, hkey⟩ := hg.key h
  rw [idxOf_eq_of_idxsOf_eq_cons ((hg.positions_eq h).symm.trans hfirst), hfirst]
  exact ⟨rfl, hkey⟩

theorem keys_eq (hg : Grouping edges groups) : groups.keys = edges.eraseDups := by
  have horder : groups.keys.Pairwise (InvImage (· < ·) edges.idxOf) := by
    refine List.pairwise_map.mpr ((List.pairwise_map.mp hg.order).imp_of_mem ?_)
    rintro entry later hentry hlater ⟨i, j, hi, hj, hlt⟩
    rw [(hg.place hentry).1, Option.some.injEq] at hi
    rw [(hg.place hlater).1, Option.some.injEq] at hj
    rwa [InvImage, hi, hj]
  refine horder.eq_of_mem_iff (pairwise_idxOf_eraseDups edges) fun e => ?_
  rw [mem_eraseDups_iff_getElem?]
  constructor
  · intro he
    obtain ⟨entry, hentry, rfl⟩ := List.mem_map.mp he
    exact (hg.place hentry).2
  · intro hplace
    obtain ⟨hlt, -⟩ := List.getElem?_eq_some_iff.mp hplace
    obtain ⟨_, hgroup, hmem⟩ := hg.exists_mem_iff.mpr hlt
    obtain ⟨entry, hentry, rfl⟩ := List.mem_map.mp hgroup
    rw [hg.positions_eq hentry, mem_idxsOf_iff] at hmem
    obtain ⟨f, hf, hsame⟩ := hmem
    obtain rfl := Option.some.inj (hplace.symm.trans hf)
    -- equal edges are found at one place, and there is one edge
    have hkey := (hg.place hentry).2
    rw [← idxOf_congr hsame, hplace] at hkey
    rw [Option.some.inj hkey]
    exact List.mem_map_of_mem hentry

/-- There is one table that groups positions in this way. -/
theorem eq_classes (hg : Grouping edges groups) : groups = classes edges := by
  have hentries : groups.entries = (classes edges).entries := by
    rw [entries_classes, ← hg.keys_eq]
    exact Table.entries_eq_map fun entry hentry => hg.positions_eq hentry
  exact congrArg Table.mk hentries

end Grouping

/-- The classes of equal edges as a table finds them whose keys are compared by `same`. -/
def classesBy (same : Edge → Edge → Bool) (edges : List Edge) : Table Edge (List Nat) :=
  letI : BEq Edge := ⟨same⟩
  edges.zipIdx.foldl (fun t p => t.insert p.1 ((t.get? p.1).getD [] ++ [p.2])) ∅

/-- Looking at hashes first changes nothing. -/
theorem classesBy_hash {h : Item → UInt64} (hh : Item.Hashing h) (edges : List Edge) :
    classesBy (fun e f => h (.edge e) == h (.edge f) && e == f) edges = classes edges := by
  have hsame : (fun e f : Edge => h (.edge e) == h (.edge f) && e == f) = (· == ·) := by
    funext e f
    rw [Bool.and_eq_right_iff_imp]
    exact fun hef => beq_iff_eq.mpr (hh.hash_edge hef)
  rw [hsame]
  rfl

/-- **Edges are lawful keys**, and a table that is keyed by them groups the positions of a list by
equality. -/
theorem lawfulKeys : Item.KeyLaws ∧ ∀ edges,
    (∀ groups, Grouping edges groups ↔ groups = classes edges) ∧ ∀ h, Item.Hashing h →
      classesBy (fun e f => h (.edge e) == h (.edge f) && e == f) edges = classes edges := by
  refine ⟨Item.keyLaws, fun edges => ⟨fun groups => ⟨Grouping.eq_classes, ?_⟩, fun h hh => ?_⟩⟩
  · rintro rfl
    exact grouping_classes edges
  · exact classesBy_hash hh edges

end Edge

end GraphScript
