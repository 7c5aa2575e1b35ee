import GraphScript.Proofs.Prefixes

/-!
# Colons where no port can be

In a script a colon separates a node from its port. Only nodes have ports, so a key, a value and the
name of a graph have to be one identifier each: a word that is no keyword, a numeral, or one quoted
text. All the same they are written as nodes are, cut at their colons. This module reads them where
they stand, one identifier at each place and nothing else.

* `Attributes.readList` reads attributes in brackets, and `Attributes.readLines` the attributes of
  the graph itself, one to a line.
* `Script.readTitle` reads the name in front of a block.

Where no backslashes interfere, what was meant is read back exactly if it has no colons, and is
refused otherwise (`GraphTree.read_singles`). So a time of day is no value, although it could be
written as one: between quotation marks.
-/

namespace GraphScript

namespace Identifier

/-! ### One identifier -/

/-- A text without backslashes. -/
def Unescaped (name : String) : Prop := '\\' ∉ name.toList

/-- A text without colons. -/
def Single (name : String) : Prop := ':' ∉ name.toList

instance (name : String) : Decidable (Unescaped name) := inferInstanceAs (Decidable (_ ∉ _))

instance (name : String) : Decidable (Single name) := inferInstanceAs (Decidable (_ ∉ _))

/-- Whether an identifier ends in front of a text, with no port behind it. -/
def stops (cs : List Char) : Bool := cs.head?.any fun c => !Token.isBareChar c && c != ':'

theorem exists_cons_of_stops {cs : List Char} (h : stops cs = true) :
    ∃ c rest, cs = c :: rest ∧ Token.isBareChar c = false ∧ c ≠ ':' := by
  cases cs with
  | nil => exact absurd h Bool.noConfusion
  | cons c rest =>
    rw [stops, List.head?_cons, Option.any_some, Bool.and_eq_true, Bool.not_eq_true',
      bne_iff_ne] at h
    exact ⟨c, rest, rfl, h⟩

theorem stops_append {sign : List Char} (h : stops sign = true) (rest : List Char) :
    stops (sign ++ rest) = true := by
  obtain ⟨c, behind, rfl, -⟩ := exists_cons_of_stops h
  exact h

/-- Reads one identifier and a sign behind it, and answers the text behind the sign. -/
def readBefore (sign cs : List Char) : Option (String × List Char) :=
  (readSegment cs).bind fun r =>
    (sign.isPrefixOf? r.2).map fun rest => (String.ofList r.1, rest)

theorem length_of_readBefore {sign cs : List Char} {r : String × List Char}
    (h : readBefore sign cs = some r) : r.2.length < cs.length := by
  obtain ⟨s, hs, h⟩ := Option.bind_eq_some_iff.mp h
  obtain ⟨rest, hrest, rfl⟩ := Option.map_eq_some_iff.mp h
  have hlength := length_of_readSegment hs
  rw [← List.append_eq_of_isPrefixOf?_eq_some hrest, List.length_append] at hlength
  exact Nat.lt_of_le_of_lt (Nat.le_add_left ..) hlength

/-- The segments of a name without backslashes close. -/
theorem Unescaped.closes {name : String} (h : Unescaped name) {piece : List Char}
    (hpiece : piece ∈ segments name.toList) : closes false piece = true := by
  refine closes_of_not_mem fun hback => h ?_
  rw [← Text.join_split ':' name.toList]
  exact Text.mem_join hpiece hback

/-- **What is written of a name is one identifier exactly if the name has no colons.** Otherwise a
reader stops in front of the first one. -/
theorem readBefore_write {name : String} (hname : Unescaped name) {sign t : List Char}
    (hsign : stops sign = true) (ht : stops t = true) :
    readBefore sign ((write name).toList ++ t) =
      if Single name then (sign.isPrefixOf? t).map (name, ·) else none := by
  have hcloses := @hname.closes
  rw [toList_write, writeChars, readBefore]
  split
  · next hsingle =>
    rw [segments, Text.split_eq_singleton hsingle] at hcloses ⊢
    obtain ⟨c, rest, rfl, hc, -⟩ := exists_cons_of_stops ht
    rw [List.map_singleton, Text.join, readSegment_write_cons (hcloses List.mem_cons_self) hc,
      Option.bind_some, String.ofList_toList]
  · next hcolon =>
    obtain ⟨piece, behind, hpieces, hne⟩ := Text.exists_split_of_mem (not_not.mp hcolon)
    rw [segments, hpieces] at hcloses ⊢
    obtain ⟨c, rest, rfl, -, hc⟩ := exists_cons_of_stops hsign
    rw [List.map_cons, Text.join_cons (by simpa using hne), List.append_assoc, List.cons_append,
      readSegment_write_cons (hcloses List.mem_cons_self) rfl, Option.bind_some, List.isPrefixOf?,
      beq_false_of_ne hc]
    rfl

end Identifier

open Identifier (stops readBefore readBefore_write write)

/-! ### Attributes -/

namespace Attributes

/-- Keys and values without backslashes. -/
def Unescaped (attrs : Attributes) : Prop :=
  ∀ a ∈ attrs.entries, Identifier.Unescaped a.1 ∧ Identifier.Unescaped a.2

/-- Keys and values without colons. -/
def Single (attrs : Attributes) : Prop :=
  ∀ a ∈ attrs.entries, Identifier.Single a.1 ∧ Identifier.Single a.2

instance (attrs : Attributes) : Decidable attrs.Unescaped :=
  inferInstanceAs (Decidable (∀ a ∈ attrs.entries, _))

instance (attrs : Attributes) : Decidable attrs.Single :=
  inferInstanceAs (Decidable (∀ a ∈ attrs.entries, _))

/-- Reads a key, an equals sign, a value, and a sign behind it. -/
def readPair (sign cs : List Char) : Option ((String × String) × List Char) :=
  (readBefore ['='] cs).bind fun key =>
    (readBefore sign key.2).map fun value => ((key.1, value.1), value.2)

theorem length_of_readPair {sign cs : List Char} {r : (String × String) × List Char}
    (h : readPair sign cs = some r) : r.2.length < cs.length := by
  obtain ⟨key, hkey, h⟩ := Option.bind_eq_some_iff.mp h
  obtain ⟨value, hvalue, rfl⟩ := Option.map_eq_some_iff.mp h
  exact (Identifier.length_of_readBefore hvalue).trans (Identifier.length_of_readBefore hkey)

/-- Reads attributes with a sign between neighbours, up to the sign that ends the text. -/
def readPairs (between last cs : List Char) : Option (List (String × String)) :=
  match readPair last cs with
  | some (a, []) => some [a]
  | _ =>
    match _h : readPair between cs with
    | some (a, rest) => (readPairs between last rest).map (a :: ·)
    | none => none
termination_by cs.length
decreasing_by exact length_of_readPair _h

/-- Reads attributes in brackets. Nothing at all stands for no attributes. -/
def readList (text : String) : Option (List (String × String)) :=
  match text.toList with
  | [] => some []
  | c :: cs => if c = '[' then readPairs [',', ' '] [']'] cs else none

/-- Reads attributes that stand on lines of their own. -/
def readLines (text : String) : Option (List (String × String)) :=
  if text.toList = [] then some [] else readPairs [';', '\n'] [';', '\n'] text.toList

section Reading

variable {between last : List Char}

theorem readPairs_of_last {cs : List Char} {a : String × String}
    (h : readPair last cs = some (a, [])) : readPairs between last cs = some [a] := by
  rw [readPairs, h]

theorem readPairs_of_between {cs : List Char} (h : ∀ a, readPair last cs ≠ some (a, [])) :
    readPairs between last cs =
      (readPair between cs).bind fun r => (readPairs between last r.2).map (r.1 :: ·) := by
  rw [readPairs]
  split
  · next a hlast => exact absurd hlast (h a)
  · split <;> simp_all

theorem toList_assignment_eq (key value : String) :
    (assignment key value).toList = (write key).toList ++ '=' :: (write value).toList := by
  simp [assignment]

/-- An attribute is read back exactly if neither its key nor its value has colons. -/
theorem readPair_assignment {a : String × String}
    (ha : Identifier.Unescaped a.1 ∧ Identifier.Unescaped a.2) {sign t : List Char}
    (hsign : stops sign = true) (ht : stops t = true) :
    readPair sign ((assignment a.1 a.2).toList ++ t) =
      if Identifier.Single a.1 ∧ Identifier.Single a.2 then (sign.isPrefixOf? t).map (a, ·)
      else none := by
  have hkey := @readBefore_write a.1 ha.1 ['='] ('=' :: ((write a.2).toList ++ t)) rfl rfl
  have hvalue := readBefore_write ha.2 hsign ht
  rw [readPair, toList_assignment_eq, List.append_assoc, List.cons_append, hkey]
  by_cases hk : Identifier.Single a.1
  · have hequals : ['='].isPrefixOf? ('=' :: ((write a.2).toList ++ t)) =
        some ((write a.2).toList ++ t) := rfl
    rw [if_pos hk, hequals, Option.map_some, Option.bind_some, hvalue]
    by_cases hv : Identifier.Single a.2
    · rw [if_pos hv, if_pos ⟨hk, hv⟩, Option.map_map]
      rfl
    · rw [if_neg hv, if_neg fun h => hv h.2, Option.map_none]
  · rw [if_neg hk, if_neg fun h => hk h.1, Option.bind_none]

/-- Attributes in writing, with a sign between neighbours. -/
def written (between : List Char) (es : List (String × String)) : List Char :=
  between.intercalate (es.map fun a => (assignment a.1 a.2).toList)

/-- The last attribute is the one with nothing behind its sign. -/
theorem readPairs_last {a : String × String}
    (ha : Identifier.Unescaped a.1 ∧ Identifier.Unescaped a.2) (hbetween : stops between = true)
    (hlast : stops last = true) :
    readPairs between last ((assignment a.1 a.2).toList ++ last) =
      if Identifier.Single a.1 ∧ Identifier.Single a.2 then some [a] else none := by
  have hread := readPair_assignment ha hlast hlast
  have hwhole : last.isPrefixOf? last = some [] :=
    List.isPrefixOf?_eq_some_iff_append_eq.mpr (List.append_nil last)
  split
  · next hsingle =>
    rw [if_pos hsingle, hwhole] at hread
    exact readPairs_of_last hread
  · next hcolon =>
    rw [if_neg hcolon] at hread
    rw [readPairs_of_between (by simp [hread]), readPair_assignment ha hbetween hlast,
      if_neg hcolon, Option.bind_none]

/-- An attribute with more behind it is not taken for the last one. -/
theorem readPairs_cons {a : String × String}
    (ha : Identifier.Unescaped a.1 ∧ Identifier.Unescaped a.2) (hbetween : stops between = true)
    (hlast : stops last = true) {more : List Char}
    (hmore : last.length < (between ++ more).length) :
    readPairs between last ((assignment a.1 a.2).toList ++ (between ++ more)) =
      if Identifier.Single a.1 ∧ Identifier.Single a.2 then
        (readPairs between last more).map (a :: ·) else none := by
  have ht := Identifier.stops_append hbetween more
  have hnot : ∀ b, readPair last ((assignment a.1 a.2).toList ++ (between ++ more)) ≠
      some (b, []) := by
    intro b hb
    rw [readPair_assignment ha hlast ht] at hb
    split at hb
    · obtain ⟨rest, hrest, hpair⟩ := Option.map_eq_some_iff.mp hb
      obtain ⟨-, rfl⟩ := Prod.mk.inj hpair
      have hwhole := List.append_eq_of_isPrefixOf?_eq_some hrest
      rw [← hwhole, List.append_nil] at hmore
      exact absurd hmore (Nat.lt_irrefl _)
    · cases hb
  rw [readPairs_of_between hnot, readPair_assignment ha hbetween ht,
    List.isPrefixOf?_eq_some_iff_append_eq.mpr rfl]
  split <;> rfl

/-- Attributes in a row are read back exactly if no key and no value has colons. -/
theorem readPairs_written {es : List (String × String)} (hne : es ≠ [])
    (hes : ∀ a ∈ es, Identifier.Unescaped a.1 ∧ Identifier.Unescaped a.2)
    (hbetween : stops between = true) (hlast : stops last = true) :
    readPairs between last (written between es ++ last) =
      if ∀ a ∈ es, Identifier.Single a.1 ∧ Identifier.Single a.2 then some es else none := by
  induction es with
  | nil => exact absurd rfl hne
  | cons a es ih =>
    obtain ⟨ha, hes⟩ := List.forall_mem_cons.mp hes
    simp only [List.forall_mem_cons]
    by_cases hend : es = []
    · subst hend
      have hread := readPairs_last ha hbetween hlast
      rw [written, List.map_singleton, List.intercalate_singleton, hread]
      simp
    · have hmore : last.length < (between ++ (written between es ++ last)).length := by
        obtain ⟨c, rest, rfl, -⟩ := Identifier.exists_cons_of_stops hbetween
        simp only [List.length_append, List.length_cons]
        omega
      rw [written, List.map_cons, List.intercalate_cons_of_ne_nil (by simpa using hend),
        List.append_assoc, List.append_assoc, ← written, readPairs_cons ha hbetween hlast hmore,
        ih hend hes]
      by_cases hsingle : Identifier.Single a.1 ∧ Identifier.Single a.2
      · simp only [hsingle, true_and, if_true]
        split <;> rfl
      · rw [if_neg hsingle, if_neg fun h => hsingle h.1]

end Reading

/-- **Attributes in brackets are read back exactly if no key and no value has colons**, and refused
otherwise. -/
theorem readList_script {attrs : Attributes} (h : attrs.Unescaped) :
    readList attrs.script = if attrs.Single then some attrs.entries else none := by
  by_cases hempty : attrs.isEmpty
  · obtain ⟨es⟩ := attrs
    obtain rfl := List.isEmpty_iff.mp hempty
    rfl
  · have hne : attrs.entries ≠ [] := fun hnil => hempty (List.isEmpty_iff.mpr hnil)
    have htext : attrs.script.toList = '[' :: (written [',', ' '] attrs.entries ++ [']']) := by
      simp [script, hempty, written, Function.comp_def]
    rw [readList, htext]
    exact readPairs_written hne h rfl rfl

/-- Assignments in writing, one to a line. -/
theorem toList_textAll_assignments {es : List (String × String)} (hne : es ≠ []) :
    (Statement.textAll (es.map fun a => .assignment a.1 a.2)).toList =
      written [';', '\n'] es ++ [';', '\n'] := by
  induction es with
  | nil => exact absurd rfl hne
  | cons a es ih =>
    rw [List.map_cons, Statement.textAll, Statement.text, String.toList_append,
      String.toList_append]
    by_cases hend : es = []
    · subst hend
      simp [written, Statement.textAll]
    · rw [ih hend, written, written, List.map_cons,
        List.intercalate_cons_of_ne_nil (by simpa using hend)]
      simp

/-- **The lines for the attributes of a graph are read back exactly if no key and no value has
colons**, and refused otherwise. -/
theorem readLines_assignments {g : Graph} (h : g.attrs.Unescaped) :
    readLines (Statement.textAll g.assignments) =
      if g.attrs.Single then some g.attrs.entries else none := by
  rw [Graph.assignments]
  by_cases hempty : g.attrs.entries = []
  · have hsingle : g.attrs.Single := fun a ha => absurd ha (hempty ▸ List.not_mem_nil)
    rw [if_pos hsingle, hempty]
    rfl
  · rw [readLines, toList_textAll_assignments hempty, if_neg (by simp)]
    exact readPairs_written hempty h rfl rfl

end Attributes

/-! ### Names of graphs -/

/-- Reads the name between the words that open a script or a block and its brace. -/
def Script.readTitle (opening text : String) : Option String :=
  (opening.toList.isPrefixOf? text.toList).bind fun cs =>
    (readBefore [' ', '\x7b'] cs).map Prod.fst

/-- The words that open a script. -/
def Script.opening (kind : Kind) : String := "strict " ++ kind.keyword ++ " "

theorem Script.readTitle_eq {opening text name : String} (hname : Identifier.Unescaped name)
    {rest : List Char}
    (htext : text.toList = opening.toList ++ ((write name).toList ++ ' ' :: '\x7b' :: rest)) :
    readTitle opening text = if Identifier.Single name then some name else none := by
  have hread := @readBefore_write name hname [' ', '\x7b'] (' ' :: '\x7b' :: rest) rfl rfl
  rw [readTitle, htext, List.isPrefixOf?_eq_some_iff_append_eq.mpr rfl, Option.bind_some, hread]
  split <;> rfl

namespace GraphTree

/-- **Keys, values and names of graphs are one identifier each in a script exactly if they have no
colons.** All are without backslashes here. -/
theorem read_singles (attrs : Attributes) (t : GraphTree) (hattrs : attrs.Unescaped)
    (hgraph : t.graph.attrs.Unescaped) (hname : Identifier.Unescaped t.graph.name) :
    Attributes.readList attrs.script = (if attrs.Single then some attrs.entries else none) ∧
    Attributes.readLines (t.part .assignments) =
      (if t.graph.attrs.Single then some t.graph.attrs.entries else none) ∧
    Script.readTitle (Script.opening t.graph.kind) (t.part .document) =
      (if Identifier.Single t.graph.name then some t.graph.name else none) ∧
    Script.readTitle "subgraph " (t.part .subgraph) =
      (if Identifier.Single t.graph.name then some t.graph.name else none) := by
  have hdocument : ∃ rest, (t.part .document).toList = (Script.opening t.graph.kind).toList ++
      ((write t.graph.name).toList ++ ' ' :: '\x7b' :: rest) := by
    simp [part, document, Script.ofTree, Script.text, Script.opening, Script.block]
  have hblock : ∃ rest, (t.part .subgraph).toList = "subgraph ".toList ++
      ((write t.graph.name).toList ++ ' ' :: '\x7b' :: rest) := by
    simp [part, block, Statement.text]
  obtain ⟨_, hdocument⟩ := hdocument
  obtain ⟨_, hblock⟩ := hblock
  exact ⟨Attributes.readList_script hattrs, Attributes.readLines_assignments hgraph,
    Script.readTitle_eq hname hdocument, Script.readTitle_eq hname hblock⟩

/-- A label is read back, also as an attribute of a graph with a name in two words, and a time of
day is refused. -/
theorem read_singles_clock :
    let attrs : Attributes := ⟨[("label", "A to B"), ("start", "12:30")]⟩
    let t : GraphTree := .node ⟨.directed, "my graph", ⟨[("label", "say \"hi\"")]⟩, ∅, ∅⟩ []
    Attributes.readList attrs.script = none ∧
    Attributes.readLines (t.part .assignments) = some [("label", "say \"hi\"")] ∧
    Script.readTitle (Script.opening .directed) (t.part .document) = some "my graph" ∧
    Script.readTitle "subgraph " (t.part .subgraph) = some "my graph" := by
  intro attrs t
  obtain ⟨hlist, hlines, hdocument, hblock⟩ :=
    read_singles attrs t (by decide) (by decide) (by decide)
  rw [if_neg (by decide)] at hlist
  rw [if_pos (by decide)] at hlines hdocument hblock
  exact ⟨hlist, hlines, hdocument, hblock⟩

/-- A time of day is written as two numerals with a colon between them, so what is written of
attributes is not always read back. -/
theorem not_read_singles_clock :
    ¬ ∀ (attrs : Attributes) (t : GraphTree), attrs.Unescaped → t.graph.attrs.Unescaped →
      Identifier.Unescaped t.graph.name →
        Attributes.readList attrs.script = some attrs.entries ∧
        Attributes.readLines (t.part .assignments) = some t.graph.attrs.entries ∧
        Script.readTitle (Script.opening t.graph.kind) (t.part .document) = some t.graph.name ∧
        Script.readTitle "subgraph " (t.part .subgraph) = some t.graph.name := by
  intro h
  let attrs : Attributes := ⟨[("start", "12:30")]⟩
  have hattrs : attrs.Unescaped := by decide
  obtain ⟨hlist, -⟩ := h attrs (.node { kind := .undirected } []) hattrs (by decide) (by decide)
  rw [Attributes.readList_script hattrs, if_neg (by decide)] at hlist
  cases hlist

end GraphTree

end GraphScript
