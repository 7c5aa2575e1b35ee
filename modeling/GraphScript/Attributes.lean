import GraphScript.Error

/-!
# Attributes

The attributes of a graph, a node or an edge are texts under texts, in the order in which their
keys were first given. A call may *mention* attributes in two ways: as pairs in a row, and under
their names. The pairs are taken first and one by one, so a pair that is not made of two parts
stops the call after the pairs in front of it have been taken and before any named attribute is.

* `Attributes.merge` takes what a call mentions; the last mention of a key gives its value and
  the first its place.
* `Mentions.taken` and `Mentions.fault?` say what is taken of a call and what stops it.
-/

namespace GraphScript

/-- Texts under texts, in the order of their keys. -/
abbrev Attributes := Table String String

/-- The attributes that a call mentions: pairs, normally of two parts, and named values. -/
structure Mentions where
  pairs : List (List String) := []
  named : Attributes := ∅

namespace Mentions

/-- The pairs in front of the first one that is not made of two parts. -/
def wellFormed : List (List String) → List (String × String)
  | [key, value] :: rest => (key, value) :: wellFormed rest
  | _ => []

/-- What is wrong with the first pair that is not made of two parts, if there is one. -/
def firstFault? : List (List String) → Option Error
  | [] => none
  | [_, _] :: rest => firstFault? rest
  | parts :: _ => some (.pairLength parts.length)

/-- What stops a call, if anything does. -/
def fault? (m : Mentions) : Option Error := firstFault? m.pairs

/-- What is taken of a call, in order. -/
def taken (m : Mentions) : List (String × String) :=
  match m.fault? with
  | none => wellFormed m.pairs ++ m.named.entries
  | some _ => wellFormed m.pairs

end Mentions

namespace Attributes

/-- Takes the attributes that a call mentions. What was taken before a fault stays. -/
def merge (a : Attributes) (m : Mentions) : Except Error Unit × Attributes :=
  (match m.fault? with
    | none => .ok ()
    | some e => .error e,
  a.insertMany m.taken)

/-- The value of an attribute. Only texts are keys. -/
def lookup (a : Attributes) (key : Item) : Except Error String :=
  match key.text?.bind a.get? with
  | some value => .ok value
  | none => .error (.notFound .attributeKey key)

/-! ### Changing one collection of attributes -/

/-- A change to a collection of attributes. -/
inductive Edit where
  /-- Gives an attribute a value. -/
  | set (key value : String)
  /-- Removes an attribute that is there. -/
  | erase (key : String)
  /-- Removes an attribute that is there and answers its value. -/
  | pop (key : String)
  /-- Gives an attribute a value unless it has one, and answers the value it has then. -/
  | setDefault (key value : String)
  /-- Removes all attributes. -/
  | clear
  /-- Takes the attributes that a call mentions. -/
  | merge (mentions : Mentions)

/-- Makes a change. The answer is a value if the change is one that answers a value. -/
def edit (a : Attributes) : Edit → Except Error (Option String) × Attributes
  | .set key value => (.ok none, a.insert key value)
  | .erase key =>
    if a.contains key then (.ok none, Table.erase a key) else (.error (.absent (.text key)), a)
  | .pop key =>
    match a.get? key with
    | some value => (.ok (some value), Table.erase a key)
    | none => (.error (.absent (.text key)), a)
  | .setDefault key value =>
    match a.get? key with
    | some current => (.ok (some current), a)
    | none => (.ok (some value), a.push key value)
  | .clear => (.ok none, ∅)
  | .merge mentions =>
    let (outcome, merged) := a.merge mentions
    (outcome.map fun _ => none, merged)

/-! ### Keys stay distinct -/

theorem distinct_merge {a : Attributes} (h : a.Distinct) (m : Mentions) :
    (a.merge m).2.Distinct :=
  h.insertMany m.taken

theorem distinct_edit {a : Attributes} (h : a.Distinct) (e : Edit) : (a.edit e).2.Distinct := by
  cases e with
  | set key value => exact h.insert key value
  | erase key =>
    rw [edit]
    split
    · exact h.erase key
    · exact h
  | pop key =>
    rw [edit]
    split
    · exact h.erase key
    · exact h
  | setDefault key value =>
    rw [edit]
    split
    · exact h
    · next hn => exact h.push (Table.get?_eq_none_iff.1 hn) value
  | clear => exact Table.distinct_empty
  | merge mentions => exact distinct_merge h mentions

end Attributes

end GraphScript
