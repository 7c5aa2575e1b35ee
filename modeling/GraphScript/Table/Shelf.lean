import GraphScript.Table

/-!
# Shelves

A shelf is a table whose entries stand at numbered places.

* **An entry keeps its place**, and when it is erased its place stays empty.
* **A new entry** takes the place behind all that have been taken so far.
* **When all places have been taken**, the shelf is packed before a new entry comes: the entries
  move together to the front, in their order, and there are new places behind them.

Only who goes along a shelf and remembers a place can tell where an entry stands: behind a place
that was passed there may be fewer entries after packing than before. To all others a shelf is
the table `Shelf.table`, and `Shelf.table_push` and `Shelf.table_erase` say that adding and
erasing do to it what they do to a table. By `Shelf.lt_roomFor`, a packed shelf has a place for
one more entry.
-/

namespace GraphScript

/-- The number of places on a packed shelf with so many entries. An empty shelf has five. On any
other, it is two thirds of a power of two, rounded down, and the power is the least one above three
times the number of entries, and no less than sixteen. -/
def Shelf.roomFor : (entries : Nat) → Nat
  | 0 => 5
  | n + 1 => 2 * Nat.pow 2 ((max 8 (3 * (n + 1))).log2 + 1) / 3

/-- Entries that stand at numbered places. -/
structure Shelf (κ α : Type) where
  /-- The places taken so far. A place is empty when its entry was erased. -/
  places : List (Option (κ × α)) := []
  /-- The number of all places. -/
  room : Nat := Shelf.roomFor 0

namespace Shelf

variable {κ α : Type}

instance : Inhabited (Shelf κ α) := ⟨{}⟩

instance : EmptyCollection (Shelf κ α) := ⟨{}⟩

/-- The entries, without their places. -/
def table (s : Shelf κ α) : Table κ α := ⟨s.places.filterMap id⟩

/-- The number of entries. -/
def size (s : Shelf κ α) : Nat := s.table.size

/-- The entries moved together, with new places behind them. -/
def pack (s : Shelf κ α) : Shelf κ α := ⟨s.table.entries.map some, roomFor s.size⟩

/-- Adds an entry behind all others, on a packed shelf if all places have been taken. Meant for
a key that is absent. -/
def push (s : Shelf κ α) (k : κ) (v : α) : Shelf κ α :=
  let s := if s.places.length < s.room then s else s.pack
  { s with places := s.places ++ [some (k, v)] }

/-- Empties the place of a key, if it has one. -/
def erase [BEq κ] (s : Shelf κ α) (k : κ) : Shelf κ α :=
  { s with places := s.places.map (Option.filter fun e => !(e.1 == k)) }

/-- There is a place for one more entry. -/
theorem lt_roomFor (entries : Nat) : entries < roomFor entries := by
  cases entries with
  | zero => decide
  | succ n =>
    have h := Nat.lt_log2_self (n := max 8 (3 * (n + 1)))
    rw [roomFor, Nat.pow_eq]
    omega

/-! ### The table on a shelf -/

@[simp] theorem table_empty : (∅ : Shelf κ α).table = ∅ := rfl

@[simp] theorem table_pack (s : Shelf κ α) : s.pack.table = s.table := by
  simp [pack, table, List.filterMap_map]

theorem table_push (s : Shelf κ α) (k : κ) (v : α) : (s.push k v).table = s.table.push k v := by
  have h : (if s.places.length < s.room then s else s.pack).table = s.table := by
    split
    · rfl
    · exact table_pack s
  rw [push, table, List.filterMap_append, Table.push, ← h]
  rfl

theorem table_erase [BEq κ] (s : Shelf κ α) (k : κ) : (s.erase k).table = s.table.erase k := by
  simp [erase, table, Table.erase, List.filterMap_map, List.filter_filterMap]

end Shelf

end GraphScript
