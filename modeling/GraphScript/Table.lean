/-!
# Ordered tables

A table is a list of entries in the order in which their keys were first put in. Keys are
compared with `==`, which may identify keys that can still be told apart when they are shown:
an undirected edge equals the same edge written from its other end. The table therefore keeps
the *key it was given first*, and writing to a key that is present changes its value alone.

* `Table.insert` keeps the place and the spelling of a key that is present, and appends a
  key that is absent.
* `Table.erase` forgets the place, so a key that comes back goes last.
* `Table.Distinct` says that no two entries have equal keys. Every operation keeps it.
-/

namespace GraphScript

/-- Entries in the order in which their keys were first put in. -/
structure Table (κ α : Type) where
  entries : List (κ × α) := []
  deriving Repr

namespace Table

variable {κ α β : Type}

instance : Inhabited (Table κ α) := ⟨⟨[]⟩⟩

instance : EmptyCollection (Table κ α) := ⟨⟨[]⟩⟩

/-- The keys, as first written. -/
def keys (t : Table κ α) : List κ := t.entries.map (·.1)

/-- The values, in the order of their keys. -/
def values (t : Table κ α) : List α := t.entries.map (·.2)

/-- The number of entries. -/
def size (t : Table κ α) : Nat := t.entries.length

/-- Whether there is no entry. -/
def isEmpty (t : Table κ α) : Bool := t.entries.isEmpty

/-- The table with the same keys and each value replaced by its image. -/
def map (f : α → β) (t : Table κ α) : Table κ β := ⟨t.entries.map fun e => (e.1, f e.2)⟩

/-- Adds an entry behind all others. Meant for a key that is absent. -/
def push (t : Table κ α) (k : κ) (v : α) : Table κ α := ⟨t.entries ++ [(k, v)]⟩

@[simp] theorem entries_empty : (∅ : Table κ α).entries = [] := rfl

@[simp] theorem keys_map (f : α → β) (t : Table κ α) : (t.map f).keys = t.keys := by
  simp [keys, map]

@[simp] theorem keys_push (t : Table κ α) (k : κ) (v : α) : (t.push k v).keys = t.keys ++ [k] := by
  simp [keys, push]

@[simp] theorem values_push (t : Table κ α) (k : κ) (v : α) :
    (t.push k v).values = t.values ++ [v] := by
  simp [values, push]

variable [BEq κ]

/-- The entry of a key, with the key as first written. -/
def find? (t : Table κ α) (k : κ) : Option (κ × α) := t.entries.find? (·.1 == k)

/-- The value of a key. -/
def get? (t : Table κ α) (k : κ) : Option α := (t.find? k).map (·.2)

/-- Whether a key is present. -/
def contains (t : Table κ α) (k : κ) : Bool := t.entries.any (·.1 == k)

/-- Gives a key that is present a new value, in its place and under its first spelling. -/
def replace (t : Table κ α) (k : κ) (v : α) : Table κ α :=
  ⟨t.entries.map fun e => if e.1 == k then (e.1, v) else e⟩

/-- Writes a value: a key that is present keeps its place and its spelling, a new one goes
last. -/
def insert (t : Table κ α) (k : κ) (v : α) : Table κ α :=
  if t.contains k then t.replace k v else t.push k v

/-- Removes the entry of a key, if there is one. -/
def erase (t : Table κ α) (k : κ) : Table κ α := ⟨t.entries.filter fun e => !(e.1 == k)⟩

/-- Writes entries one after the other, so that the last value of a key wins and the first
mention fixes its place. -/
def insertMany (t : Table κ α) (es : List (κ × α)) : Table κ α :=
  es.foldl (fun t e => t.insert e.1 e.2) t

/-- The table that a list of entries describes. -/
def ofList (es : List (κ × α)) : Table κ α := insertMany ∅ es

/-- Two tables hold the same values under the same keys, in whatever order. Meant for tables
with distinct keys. -/
def sameEntries [BEq α] (s t : Table κ α) : Bool :=
  s.size == t.size && s.entries.all fun e => t.get? e.1 == some e.2

/-- No two entries have equal keys. -/
def Distinct (t : Table κ α) : Prop := t.entries.Pairwise fun x y => (x.1 == y.1) = false

/-! ### What a look-up sees -/

@[simp] theorem contains_empty (k : κ) : (∅ : Table κ α).contains k = false := rfl

@[simp] theorem get?_empty (k : κ) : (∅ : Table κ α).get? k = none := rfl

theorem isSome_find? (t : Table κ α) (k : κ) : (t.find? k).isSome = t.contains k := by
  rw [Bool.eq_iff_iff, find?, contains, List.find?_isSome, List.any_eq_true]

@[simp] theorem isSome_get? (t : Table κ α) (k : κ) : (t.get? k).isSome = t.contains k := by
  rw [get?, Option.isSome_map, isSome_find?]

theorem get?_eq_none_iff {t : Table κ α} {k : κ} : t.get? k = none ↔ t.contains k = false := by
  rw [← isSome_get?, Option.isSome_eq_false_iff, Option.isNone_iff_eq_none]

/-- What is found under a key is one of the values. -/
theorem mem_values_of_get? {t : Table κ α} {k : κ} {v : α} (h : t.get? k = some v) :
    v ∈ t.values := by
  obtain ⟨e, he, rfl⟩ := Option.map_eq_some_iff.1 h
  exact List.mem_map.2 ⟨e, List.mem_of_find?_eq_some he, rfl⟩

theorem find?_congr [PartialEquivBEq κ] (t : Table κ α) {j k : κ} (h : (j == k) = true) :
    t.find? j = t.find? k := by
  have : (fun e : κ × α => e.1 == j) = fun e => e.1 == k := funext fun e => BEq.congr_right h
  rw [find?, find?, this]

theorem contains_congr [PartialEquivBEq κ] (t : Table κ α) {j k : κ} (h : (j == k) = true) :
    t.contains j = t.contains k := by
  rw [← isSome_find?, ← isSome_find?, find?_congr t h]

theorem contains_eq_any_keys (t : Table κ α) (k : κ) : t.contains k = t.keys.any (· == k) := by
  rw [contains, keys, List.any_map]
  rfl

theorem contains_map (f : α → β) (t : Table κ α) (k : κ) :
    (t.map f).contains k = t.contains k := by
  rw [contains_eq_any_keys, keys_map, ← contains_eq_any_keys]

/-! ### Writing -/

theorem keys_replace (t : Table κ α) (k : κ) (v : α) : (t.replace k v).keys = t.keys := by
  simp only [keys, replace, List.map_map]
  exact List.map_congr_left fun e _ => by simp only [Function.comp]; split <;> rfl

theorem keys_insert_of_contains {t : Table κ α} {k : κ} (v : α) (h : t.contains k = true) :
    (t.insert k v).keys = t.keys := by
  rw [insert, if_pos h, keys_replace]

theorem keys_insert_of_not_contains {t : Table κ α} {k : κ} (v : α) (h : t.contains k = false) :
    (t.insert k v).keys = t.keys ++ [k] := by
  simp [insert, h, push, keys]

theorem contains_push (t : Table κ α) (k : κ) (v : α) (j : κ) :
    (t.push k v).contains j = (t.contains j || k == j) := by
  rw [contains_eq_any_keys, keys_push, List.any_append, ← contains_eq_any_keys, List.any_cons,
    List.any_nil, Bool.or_false]

theorem contains_replace (t : Table κ α) (k : κ) (v : α) (j : κ) :
    (t.replace k v).contains j = t.contains j := by
  rw [contains_eq_any_keys, keys_replace, ← contains_eq_any_keys]

/-- Writing a value takes no key away. -/
theorem contains_insert_of_contains {t : Table κ α} {j : κ} (h : t.contains j = true) (k : κ)
    (v : α) : (t.insert k v).contains j = true := by
  rw [insert]
  split
  · rw [contains_replace, h]
  · rw [contains_push, h, Bool.true_or]

/-- Every value after writing one was there before or is the one written. -/
theorem mem_values_insert {t : Table κ α} {k : κ} {v x : α} (h : x ∈ (t.insert k v).values) :
    x ∈ t.values ∨ x = v := by
  rw [insert] at h
  split at h
  · obtain ⟨e, he, rfl⟩ := List.mem_map.1 h
    obtain ⟨e, he', rfl⟩ := List.mem_map.1 he
    split
    · exact .inr rfl
    · exact .inl (List.mem_map_of_mem he')
  · simpa using h

theorem find?_push_of_ne {t : Table κ α} {j k : κ} (v : α) (h : (k == j) = false) :
    (t.push k v).find? j = t.find? j := by
  simp [find?, push, h]

theorem find?_replace_self {t : Table κ α} {k : κ} (v : α) :
    (t.replace k v).find? k = (t.find? k).map fun e => (e.1, v) := by
  simp only [find?, replace]
  induction t.entries with
  | nil => rfl
  | cons e es ih => by_cases h : (e.1 == k) = true <;> simp [h, ih]

theorem find?_replace_of_ne [PartialEquivBEq κ] {t : Table κ α} {j k : κ} (v : α)
    (h : (k == j) = false) : (t.replace k v).find? j = t.find? j := by
  simp only [find?, replace]
  induction t.entries with
  | nil => rfl
  | cons e es ih =>
    by_cases hk : (e.1 == k) = true
    · have hj : (e.1 == j) = false := by rw [BEq.congr_left hk]; exact h
      simp [hk, hj, ih]
    · simp only [Bool.not_eq_true] at hk
      by_cases hj : (e.1 == j) = true <;> simp [hk, hj, ih]

/-- A value that was written is read back, also through an equal key. -/
theorem get?_insert_self [EquivBEq κ] (t : Table κ α) (k : κ) (v : α) :
    (t.insert k v).get? k = some v := by
  by_cases h : t.contains k = true
  · rw [insert, if_pos h, get?, find?_replace_self]
    rw [← isSome_find?, Option.isSome_iff_exists] at h
    obtain ⟨e, he⟩ := h
    simp [he]
  · simp only [contains, List.any_eq_true, not_exists, not_and, Bool.not_eq_true] at h
    have hn : t.entries.find? (fun e => e.1 == k) = none :=
      List.find?_eq_none.2 fun e he => by simp [h e he]
    have hc : t.contains k = false := by
      simpa [contains] using fun a b he => h (a, b) he
    simp [insert, hc, get?, push, find?, hn]

/-- Writing leaves every other key as it was. -/
theorem get?_insert_of_ne [PartialEquivBEq κ] (t : Table κ α) {j k : κ} (v : α)
    (h : (k == j) = false) : (t.insert k v).get? j = t.get? j := by
  rw [insert]
  split
  · rw [get?, find?_replace_of_ne v h, ← get?]
  · rw [get?, find?_push_of_ne v h, ← get?]

/-! ### Erasing -/

theorem keys_erase (t : Table κ α) (k : κ) :
    (t.erase k).keys = t.keys.filter fun j => !(j == k) := by
  simp only [keys, erase, List.filter_map]
  rfl

theorem values_erase_sublist (t : Table κ α) (k : κ) : (t.erase k).values.Sublist t.values :=
  List.filter_sublist.map _

/-! ### Keys stay distinct -/

theorem distinct_iff_keys (t : Table κ α) :
    t.Distinct ↔ t.keys.Pairwise fun j k => (j == k) = false := by
  simp [Distinct, keys, List.pairwise_map]

/-- Among distinct keys, those that are equal are one and the same. -/
theorem Distinct.eq_of_beq [PartialEquivBEq κ] {t : Table κ α} (h : t.Distinct) {j k : κ}
    (hj : j ∈ t.keys) (hk : k ∈ t.keys) (he : (j == k) = true) : j = k := by
  rw [distinct_iff_keys, List.pairwise_iff_getElem] at h
  obtain ⟨a, ha, rfl⟩ := List.getElem_of_mem hj
  obtain ⟨b, hb, rfl⟩ := List.getElem_of_mem hk
  rcases Nat.lt_trichotomy a b with hlt | rfl | hlt
  · rw [h a b ha hb hlt] at he
    exact absurd he Bool.noConfusion
  · rfl
  · rw [BEq.comm, h b a hb ha hlt] at he
    exact absurd he Bool.noConfusion

@[simp] theorem distinct_map {f : α → β} {t : Table κ α} : (t.map f).Distinct ↔ t.Distinct := by
  rw [distinct_iff_keys, distinct_iff_keys, keys_map]

theorem distinct_empty : (∅ : Table κ α).Distinct := List.Pairwise.nil

theorem Distinct.push {t : Table κ α} (h : t.Distinct) {k : κ} (hk : t.contains k = false)
    (v : α) : (t.push k v).Distinct := by
  rw [distinct_iff_keys] at h ⊢
  rw [keys_push, List.pairwise_append]
  refine ⟨h, List.pairwise_singleton _ _, fun j hj l hl => ?_⟩
  obtain rfl := List.mem_singleton.1 hl
  simp only [contains, List.any_eq_false, Bool.not_eq_true] at hk
  obtain ⟨e, he, rfl⟩ := List.mem_map.1 hj
  exact hk e he

theorem Distinct.insert {t : Table κ α} (h : t.Distinct) (k : κ) (v : α) :
    (t.insert k v).Distinct := by
  by_cases hk : t.contains k = true
  · rw [distinct_iff_keys] at h ⊢
    rwa [keys_insert_of_contains v hk]
  · rw [Table.insert, if_neg hk]
    exact h.push (Bool.not_eq_true _ ▸ hk) v

theorem Distinct.erase {t : Table κ α} (h : t.Distinct) (k : κ) : (t.erase k).Distinct :=
  List.Pairwise.filter _ h

theorem Distinct.insertMany {t : Table κ α} (h : t.Distinct) (es : List (κ × α)) :
    (t.insertMany es).Distinct := by
  induction es generalizing t with
  | nil => exact h
  | cons e es ih => exact ih (h.insert e.1 e.2)

theorem distinct_ofList (es : List (κ × α)) : (ofList es).Distinct := distinct_empty.insertMany es

end Table

end GraphScript
