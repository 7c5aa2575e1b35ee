import GraphScript.Proofs.Edits
import GraphScript.Proofs.Repetitions

/-!
# Merging attributes

Attributes that are told more than once are merged: a key stays where it came first, and has the
value that it was given last. `Attributes.Merges` says this of the outcome alone, in terms of all
that was told, and `Attributes.merges_mergeAll` says that merging one after the other leads there.

The keys of a table that is written to, entry by entry, are those that are written without their
repetitions: `Table.keys_insertMany_of_eraseDups`.
-/

namespace GraphScript

/-! ### Writing many entries -/

namespace Table

variable {κ α : Type} [BEq κ]

theorem mem_keys_iff [LawfulBEq κ] {t : Table κ α} {k : κ} :
    k ∈ t.keys ↔ t.contains k = true := by
  rw [contains_eq_any_keys, any_beq_iff_mem]

section Keys

variable [EquivBEq κ] {t : Table κ α} {l : List κ}

theorem contains_of_eraseDups (h : t.keys = l.eraseDups) (k : κ) :
    t.contains k = l.any (· == k) := by
  rw [contains_eq_any_keys, h, any_eraseDups]

/-- A key that is written comes behind all others, unless it was there. -/
theorem keys_insert_of_eraseDups (h : t.keys = l.eraseDups) (k : κ) (v : α) :
    (t.insert k v).keys = (l ++ [k]).eraseDups := by
  rw [eraseDups_concat, ← contains_of_eraseDups h]
  cases hk : t.contains k with
  | true => rw [keys_insert_of_contains v hk, if_pos rfl, h]
  | false => rw [keys_insert_of_not_contains v hk, if_neg Bool.false_ne_true, h]

theorem keys_insertMany_of_eraseDups (h : t.keys = l.eraseDups) (es : List (κ × α)) :
    (t.insertMany es).keys = (l ++ es.map (·.1)).eraseDups := by
  induction es generalizing t l with
  | nil =>
    rw [List.map_nil, List.append_nil]
    exact h
  | cons e es ih =>
    have hrest := ih (keys_insert_of_eraseDups h e.1 e.2)
    rw [List.append_assoc] at hrest
    exact hrest

end Keys

theorem get?_cons (e : κ × α) (es : List (κ × α)) (k : κ) :
    (⟨e :: es⟩ : Table κ α).get? k = if e.1 == k then some e.2 else get? ⟨es⟩ k := by
  rw [get?, find?, List.find?_cons]
  cases e.1 == k <;> rfl

/-- Behind an entry there is no key that equals its own. -/
theorem Distinct.not_contains_of_cons [EquivBEq κ] {e : κ × α} {es : List (κ × α)}
    (h : (⟨e :: es⟩ : Table κ α).Distinct) {k : κ} (hk : (e.1 == k) = true) :
    contains ⟨es⟩ k = false := by
  rw [contains, List.any_eq_false]
  intro x hx heq
  have hne := (List.pairwise_cons.mp h).1 x hx
  rw [BEq.trans hk (BEq.symm heq)] at hne
  cases hne

/-- A value under some key is the one that was written last. -/
theorem get?_insertMany [EquivBEq κ] {u : Table κ α} (hu : u.Distinct) (t : Table κ α) (k : κ) :
    (t.insertMany u.entries).get? k = (u.get? k).or (t.get? k) := by
  obtain ⟨es⟩ := u
  induction es generalizing t with
  | nil => rfl
  | cons e es ih =>
    have htail := ih (t.insert e.1 e.2) (List.pairwise_cons.mp hu).2
    rw [insertMany, List.foldl_cons, ← insertMany, htail, get?_cons, get?_insert]
    by_cases hk : (e.1 == k) = true
    · rw [if_pos hk, if_pos hk, get?_eq_none_iff.mpr (hu.not_contains_of_cons hk), Option.none_or,
        Option.some_or]
    · rw [if_neg hk, if_neg hk]

end Table

/-! ### What merging leads to -/

namespace Attributes

/-- Attributes that come of stores which are told one after the other: each key at the place where
it came first, with the value that it was given last. -/
structure Merges (attrs : Attributes) (stores : List Attributes) : Prop where
  keys : attrs.keys = (stores.flatMap Table.keys).eraseDups
  values (key : String) : attrs.get? key = stores.reverse.findSome? (·.get? key)

/-- Attributes with the contents of stores, one after the other. -/
def mergeAll (attrs : Attributes) (stores : List Attributes) : Attributes :=
  stores.foldl (fun attrs store => attrs.insertMany store.entries) attrs

/-- **Each key stays where it came first and takes its last value** when stores are merged one after
the other. -/
theorem merges_mergeAll {stores : List Attributes} (hstores : ∀ a ∈ stores, a.Distinct) :
    (mergeAll ∅ stores).Merges stores := by
  induction stores using List.reverseRecOn with
  | nil => exact ⟨rfl, fun _ => rfl⟩
  | append_singleton stores store ih =>
    have hbefore := ih fun a ha => hstores a (List.mem_append_left _ ha)
    have hlast : mergeAll ∅ (stores ++ [store]) =
        (mergeAll ∅ stores).insertMany store.entries := by
      rw [mergeAll, List.foldl_append]
      rfl
    constructor
    case keys =>
      rw [hlast, Table.keys_insertMany_of_eraseDups hbefore.keys, List.flatMap_append,
        List.flatMap_singleton]
      rfl
    case values =>
      intro key
      have hstore := hstores store (List.mem_append_right _ List.mem_cons_self)
      rw [hlast, Table.get?_insertMany hstore, hbefore.values, List.reverse_append,
        List.findSome?_append, List.reverse_singleton, List.findSome?_singleton]

/-- Attributes that come of nothing are none. -/
theorem Merges.eq_empty {attrs : Attributes} (h : attrs.Merges []) : attrs = ∅ := by
  obtain ⟨entries⟩ := attrs
  exact congrArg Table.mk (List.map_eq_nil_iff.mp h.keys)

end Attributes

end GraphScript
