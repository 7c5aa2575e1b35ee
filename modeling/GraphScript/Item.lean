import GraphScript.Edge
import GraphScript.Text.Display

/-!
# Items

Callers may ask a graph about anything: a name, an edge, nothing at all, or a tuple of such
items. An `Item` is what they ask about. Most items address nothing in a graph, and the error
that says so displays the item.

Items are compared like the keys of a table: texts by their characters, edges by the equality
of edges, tuples part by part, and items of different shapes are never equal.
-/

namespace GraphScript

/-- Anything that can be used as a key. -/
inductive Item where
  /-- No item at all. -/
  | nothing
  /-- A name. -/
  | text (s : String)
  /-- An edge. -/
  | edge (e : Edge)
  /-- Several items in a row. -/
  | tuple (items : List Item)
  deriving Inhabited

namespace Item

mutual

/-- Equality of items. -/
def beq : Item → Item → Bool
  | nothing, nothing => true
  | text s, text t => s == t
  | edge e, edge f => e == f
  | tuple xs, tuple ys => beqAll xs ys
  | _, _ => false

/-- Equality of items, part by part. -/
def beqAll : List Item → List Item → Bool
  | [], [] => true
  | x :: xs, y :: ys => beq x y && beqAll xs ys
  | _, _ => false

end

instance : BEq Item := ⟨beq⟩

mutual

/-- A hash that equal items share. -/
def hashItem : Item → UInt64
  | nothing => 11
  | text s => mixHash 13 (hash s)
  | edge e => mixHash 17 (hash e)
  | tuple items => mixHash 19 (hashAll items)

/-- The hashes of items in a row, mixed. -/
def hashAll : List Item → UInt64
  | [] => 7
  | x :: xs => mixHash (hashItem x) (hashAll xs)

end

instance : Hashable Item := ⟨hashItem⟩

/-- The name that an item is, if it is one. -/
def text? : Item → Option String
  | text s => some s
  | _ => none

/-- The edge that an item is, if it is one. -/
def edge? : Item → Option Edge
  | edge e => some e
  | _ => none

/-! ### Laws of equality -/

mutual

theorem beq_self : ∀ x : Item, beq x x = true
  | nothing => rfl
  | text s => by simp [beq]
  | edge e => by simp [beq]
  | tuple items => by rw [beq, beqAll_self items]

theorem beqAll_self : ∀ xs : List Item, beqAll xs xs = true
  | [] => rfl
  | x :: xs => by rw [beqAll, beq_self x, beqAll_self xs, Bool.and_self]

end

mutual

theorem beq_comm : ∀ x y : Item, beq x y = beq y x
  | nothing, y => by cases y <;> simp [beq]
  | text s, y => by cases y <;> simp [beq, Bool.beq_comm]
  | edge e, y => by cases y <;> simp [beq, BEq.comm]
  | tuple xs, y => by
    cases y with
    | tuple ys => rw [beq, beq, beqAll_comm xs ys]
    | _ => simp [beq]

theorem beqAll_comm : ∀ xs ys : List Item, beqAll xs ys = beqAll ys xs
  | [], ys => by cases ys <;> simp [beqAll]
  | x :: xs, ys => by
    cases ys with
    | nil => simp [beqAll]
    | cons y ys => rw [beqAll, beqAll, beq_comm x y, beqAll_comm xs ys]

end

mutual

theorem beq_trans : ∀ {x y z : Item}, beq x y = true → beq y z = true → beq x z = true
  | nothing, y, z, h, h' => by cases y <;> cases z <;> simp_all [beq]
  | text s, y, z, h, h' => by cases y <;> cases z <;> simp_all [beq]
  | edge e, y, z, h, h' => by
    cases y with
    | edge f =>
      cases z with
      | edge g =>
        rw [beq] at h h' ⊢
        exact BEq.trans h h'
      | _ => simp [beq] at h'
    | _ => simp [beq] at h
  | tuple xs, y, z, h, h' => by
    cases y with
    | tuple ys =>
      cases z with
      | tuple zs =>
        rw [beq] at h h' ⊢
        exact beqAll_trans h h'
      | _ => simp [beq] at h'
    | _ => simp [beq] at h

theorem beqAll_trans : ∀ {xs ys zs : List Item},
    beqAll xs ys = true → beqAll ys zs = true → beqAll xs zs = true
  | [], ys, zs, h, h' => by cases ys <;> cases zs <;> simp_all [beqAll]
  | x :: xs, ys, zs, h, h' => by
    cases ys with
    | nil => simp [beqAll] at h
    | cons y ys =>
      cases zs with
      | nil => simp [beqAll] at h'
      | cons z zs =>
        rw [beqAll, Bool.and_eq_true] at h h' ⊢
        exact ⟨beq_trans h.1 h'.1, beqAll_trans h.2 h'.2⟩

end

instance : EquivBEq Item where
  rfl := beq_self _
  symm h := (beq_comm _ _).trans h
  trans h h' := beq_trans h h'

mutual

theorem hashItem_eq : ∀ {x y : Item}, beq x y = true → hashItem x = hashItem y
  | nothing, y, h => by cases y <;> simp_all [beq]
  | text s, y, h => by cases y <;> simp_all [beq]
  | edge e, y, h => by
    cases y with
    | edge f => rw [hashItem, hashItem, LawfulHashable.hash_eq e f h]
    | _ => simp [beq] at h
  | tuple xs, y, h => by
    cases y with
    | tuple ys =>
      rw [beq] at h
      rw [hashItem, hashItem, hashAll_eq h]
    | _ => simp [beq] at h

theorem hashAll_eq : ∀ {xs ys : List Item}, beqAll xs ys = true → hashAll xs = hashAll ys
  | [], ys, h => by cases ys <;> simp_all [beqAll]
  | x :: xs, ys, h => by
    cases ys with
    | nil => simp [beqAll] at h
    | cons y ys =>
      rw [beqAll, Bool.and_eq_true] at h
      rw [hashAll, hashAll, hashItem_eq h.1, hashAll_eq h.2]

end

instance : LawfulHashable Item where
  hash_eq _ _ := hashItem_eq

end Item

/-! ### Display -/

/-- An edge as messages show it: its kind and both ends as written. -/
def Edge.display (e : Edge) : String :=
  e.kind.edgeName ++ "(a=" ++ Text.display e.tail ++ ", b=" ++ Text.display e.head ++ ")"

namespace Item

mutual

/-- An item as messages show it. -/
def display : Item → String
  | nothing => "None"
  | text s => Text.display s
  | edge e => e.display
  | tuple items =>
    match displayAll items with
    | [part] => "(" ++ part ++ ",)"
    | parts => "(" ++ ", ".intercalate parts ++ ")"

/-- The displays of items in a row. -/
def displayAll : List Item → List String
  | [] => []
  | x :: xs => display x :: displayAll xs

end

end Item

end GraphScript
