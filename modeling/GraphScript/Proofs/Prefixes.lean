import GraphScript.Proofs.Documents
import Mathlib.Data.List.Infix

/-!
# Identifiers in front of other text

In a script an identifier is followed by more text, and a reader has to find where it ends. This
module reads a name from the front of a text (`Identifier.readName`): identifiers with colons
between them, as far as they go.

* **A word or a numeral** is made as long as it can be.
* **A quoted text** ends at the first mark that is not behind a backslash. Two backslashes are taken
  together and stand for themselves, so a mark behind them is not behind a backslash.

What is written of a name is read back, and nothing of the text behind it is taken, exactly if there
is an even number of backslashes in front of each mark and at the end of each segment
(`Identifier.readName_write`). No text at all is read as any other name
(`Identifier.closes_of_readName`), so no other way of writing would do better.
-/

namespace GraphScript.Identifier

/-! ### Reading a name -/

/-- Reads up to the mark that closes a quoted text, and answers what it says and the text behind
it. -/
def readQuoted : List Char → Option (List Char × List Char)
  | [] => none
  | '\x22' :: rest => some ([], rest)
  | '\\' :: '\x22' :: rest => (readQuoted rest).map fun r => (quoteMark :: r.1, r.2)
  | '\\' :: '\\' :: rest => (readQuoted rest).map fun r => ('\\' :: '\\' :: r.1, r.2)
  | c :: rest => (readQuoted rest).map fun r => (c :: r.1, r.2)

/-- The longest word or numeral that a text begins with. -/
def longestBare? (cs : List Char) : Option (List Char) :=
  cs.inits.reverse.find? fun p => isWord p || isNumeral p

/-- Reads one segment of a name, and answers the text behind it. Keywords are no segments. -/
def readSegment : List Char → Option (List Char × List Char)
  | '\x22' :: rest => readQuoted rest
  | cs => (longestBare? cs).bind fun p =>
    if isKeyword p then none else some (p, cs.drop p.length)

theorem length_of_readQuoted {cs : List Char} {r : List Char × List Char}
    (h : readQuoted cs = some r) : r.2.length < cs.length := by
  fun_induction readQuoted cs generalizing r with
  | case1 => cases h
  | case2 rest =>
    obtain rfl := Option.some.inj h
    simp
  | case3 rest ih | case4 rest ih | case5 c rest _ _ _ ih =>
    obtain ⟨r, hr, rfl⟩ := Option.map_eq_some_iff.mp h
    have := ih hr
    simp only [List.length_cons]
    omega

/-- A longest word or numeral is one, and the text begins with it. -/
theorem of_longestBare? {cs p : List Char} (h : longestBare? cs = some p) :
    p <+: cs ∧ (isWord p || isNumeral p) = true := by
  have hmem := List.mem_of_find?_eq_some h
  have hbare := List.find?_some h
  rw [List.mem_reverse, List.mem_inits] at hmem
  exact ⟨hmem, hbare⟩

theorem length_of_readSegment {cs : List Char} {r : List Char × List Char}
    (h : readSegment cs = some r) : r.2.length < cs.length := by
  rw [readSegment.eq_def] at h
  split at h
  · have := length_of_readQuoted h
    simp only [List.length_cons]
    omega
  · obtain ⟨p, hp, h⟩ := Option.bind_eq_some_iff.mp h
    split at h
    · cases h
    · obtain rfl := Option.some.inj h
      obtain ⟨hpre, hbare⟩ := of_longestBare? hp
      have hne : p ≠ [] := by
        rintro rfl
        exact absurd hbare (by decide)
      have := List.length_pos_iff.mpr hne
      have := hpre.length_le
      rw [List.length_drop]
      omega

/-- Reads segments with colons between them, and answers the text behind the last one. -/
def readName (cs : List Char) : Option (List (List Char) × List Char) :=
  match _h : readSegment cs with
  | none => none
  | some (piece, ':' :: rest) => (readName rest).map fun r => (piece :: r.1, r.2)
  | some (piece, rest) => some ([piece], rest)
termination_by cs.length
decreasing_by
  have := length_of_readSegment (by assumption)
  simp only [List.length_cons] at this
  omega

theorem readName_of_colon {cs piece rest : List Char}
    (h : readSegment cs = some (piece, ':' :: rest)) :
    readName cs = (readName rest).map fun r => (piece :: r.1, r.2) := by
  rw [readName]
  split <;> simp_all

theorem readName_of_end {cs piece rest : List Char} (h : readSegment cs = some (piece, rest))
    (hrest : rest.head? ≠ some ':') : readName cs = some ([piece], rest) := by
  rw [readName]
  split
  · simp_all
  · next piece' rest' h' =>
    obtain rfl := (Prod.mk.inj (Option.some.inj (h.symm.trans h'))).2
    exact absurd rfl hrest
  · simp_all

/-! ### What can be read -/

theorem readQuoted_cons {c : Char} (hmark : c ≠ quoteMark) (hback : c ≠ '\\')
    (rest : List Char) :
    readQuoted (c :: rest) = (readQuoted rest).map fun r => (c :: r.1, r.2) := by
  rw [readQuoted]
  · exact hmark
  · exact fun _ hc => absurd hc hback
  · exact fun _ hc => absurd hc hback

/-- Whatever is read between marks closes. -/
theorem closes_of_readQuoted {cs : List Char} {r : List Char × List Char}
    (h : readQuoted cs = some r) : closes false r.1 = true := by
  fun_induction readQuoted cs generalizing r with
  | case1 => cases h
  | case2 rest =>
    obtain rfl := Option.some.inj h
    rfl
  | case3 rest ih | case4 rest ih =>
    obtain ⟨r, hr, rfl⟩ := Option.map_eq_some_iff.mp h
    have hread := ih hr
    exact hread
  | case5 c rest hmark hescape hpair ih =>
    obtain ⟨r, hr, rfl⟩ := Option.map_eq_some_iff.mp h
    have hread := ih hr
    by_cases hc : c = '\\'
    · -- a single backslash stands for itself, as neither a mark nor another one is behind it
      cases rest with
      | nil => cases hr
      | cons d rest =>
        have hd : d ≠ quoteMark := fun hd => hescape rest hc (congrArg (· :: rest) hd)
        have hd' : d ≠ '\\' := fun hd => hpair rest hc (congrArg (· :: rest) hd)
        rw [readQuoted_cons hd hd'] at hr
        obtain ⟨r, -, rfl⟩ := Option.map_eq_some_iff.mp hr
        rw [closes, beq_false_of_ne hd'] at hread
        rw [hc, closes, beq_self_eq_true, closes, bne_iff_ne.mpr hd, hread, Bool.true_and]
    · rw [closes, beq_false_of_ne hc, hread]

/-- Whatever is read as a segment closes. -/
theorem closes_of_readSegment {cs : List Char} {r : List Char × List Char}
    (h : readSegment cs = some r) : closes false r.1 = true := by
  rw [readSegment.eq_def] at h
  split at h
  · exact closes_of_readQuoted h
  · obtain ⟨p, hp, h⟩ := Option.bind_eq_some_iff.mp h
    split at h
    · cases h
    · next hkeyword =>
      obtain rfl := Option.some.inj h
      refine closes_of_isPlain ?_
      rw [isPlain, (of_longestBare? hp).2, Bool.eq_false_iff.mpr hkeyword]
      rfl

/-- **No name is read that does not close**, whatever the text is. -/
theorem closes_of_readName {cs : List Char} {r : List (List Char) × List Char}
    (h : readName cs = some r) : ∀ piece ∈ r.1, Closes piece := by
  fun_induction readName cs generalizing r with
  | case1 cs _ => cases h
  | case2 cs piece rest hpiece ih =>
    obtain ⟨r, hr, rfl⟩ := Option.map_eq_some_iff.mp h
    rw [List.forall_mem_cons, ← closes_iff]
    exact ⟨closes_of_readSegment hpiece, ih hr⟩
  | case3 cs piece rest _ hpiece =>
    obtain rfl := Option.some.inj h
    rw [List.forall_mem_singleton, ← closes_iff]
    exact closes_of_readSegment hpiece

/-! ### Reading what was written -/

theorem readQuoted_mark (rest : List Char) :
    readQuoted ('\\' :: quoteMark :: rest) =
      (readQuoted rest).map fun r => (quoteMark :: r.1, r.2) := by
  rw [quoteMark, readQuoted]
  rfl

theorem readQuoted_pair (rest : List Char) :
    readQuoted ('\\' :: '\\' :: rest) =
      (readQuoted rest).map fun r => ('\\' :: '\\' :: r.1, r.2) := by
  rw [readQuoted]

theorem readQuoted_single {c : Char} (hmark : c ≠ quoteMark) (hback : c ≠ '\\')
    (rest : List Char) :
    readQuoted ('\\' :: c :: rest) =
      (readQuoted rest).map fun r => ('\\' :: c :: r.1, r.2) := by
  have hcons : readQuoted ('\\' :: c :: rest) =
      (readQuoted (c :: rest)).map fun r => ('\\' :: r.1, r.2) := by
    rw [readQuoted]
    · exact fun hc => absurd hc (by decide)
    · exact fun _ _ hc => hmark (List.cons.inj hc).1
    · exact fun _ _ hc => hback (List.cons.inj hc).1
  rw [hcons, readQuoted_cons hmark hback, Option.map_map]
  rfl

/-- A quoted text that closes is read back, also behind a backslash that is still pending. -/
theorem readQuoted_escaped (cs rest : List Char) :
    (closes false cs = true →
      readQuoted (cs.flatMap escapeChar ++ quoteMark :: rest) = some (cs, rest)) ∧
    (closes true cs = true →
      readQuoted ('\\' :: (cs.flatMap escapeChar ++ quoteMark :: rest)) =
        some ('\\' :: cs, rest)) := by
  induction cs with
  | nil => exact ⟨fun _ => rfl, fun h => absurd h Bool.noConfusion⟩
  | cons c cs ih =>
    obtain ⟨hread, hpending⟩ := ih
    rw [List.flatMap_cons, escapeChar]
    by_cases hmark : c = quoteMark
    · subst hmark
      rw [if_pos rfl, List.append_assoc, List.cons_append, List.singleton_append]
      refine ⟨fun h => ?_, fun h => absurd h Bool.noConfusion⟩
      rw [readQuoted_mark, hread h]
      rfl
    · rw [if_neg hmark, List.append_assoc, List.singleton_append]
      by_cases hback : c = '\\'
      · subst hback
        refine ⟨fun h => hpending h, fun h => ?_⟩
        rw [closes, Bool.and_eq_true] at h
        rw [readQuoted_pair, hread h.2]
        rfl
      · refine ⟨fun h => ?_, fun h => ?_⟩
        · rw [closes, beq_false_of_ne hback] at h
          rw [readQuoted_cons hmark hback, hread h]
          rfl
        · rw [closes, Bool.and_eq_true] at h
          rw [readQuoted_single hmark hback, hread h.2]
          rfl

/-- A word or a numeral is the longest one if what follows can belong to none. -/
theorem longestBare?_append {p : List Char} (hp : (isWord p || isNumeral p) = true) {t : List Char}
    (ht : ∀ c ∈ t.head?, Token.isBareChar c = false) : longestBare? (p ++ t) = some p := by
  have hlonger : ((t.inits.tail.map (p ++ ·)).reverse.find? fun p => isWord p || isNumeral p) =
      none := by
    rw [List.find?_eq_none]
    intro q hq hbare
    obtain ⟨e, he, rfl⟩ := List.mem_map.mp (List.mem_reverse.mp hq)
    cases t with
    | nil => exact absurd he List.not_mem_nil
    | cons c t =>
      rw [List.inits_cons, List.tail_cons] at he
      obtain ⟨e, -, rfl⟩ := List.mem_map.mp he
      have hopens : Token.opens (p ++ c :: e) = true := by rw [Token.opens, hbare, Bool.true_or]
      have hc := Token.isBareChar_of_opens hopens (List.mem_append_right _ List.mem_cons_self)
      rw [ht c rfl] at hc
      exact absurd hc Bool.noConfusion
  have hwhole : ∃ shorter, p.inits.reverse = p :: shorter := by
    rw [List.inits_eq_tails, List.reverse_reverse]
    cases hreverse : p.reverse with
    | nil => exact ⟨[], by rw [List.reverse_eq_nil_iff.mp hreverse]; rfl⟩
    | cons c cs =>
      rw [List.tails_cons, List.map_cons, ← hreverse, List.reverse_reverse]
      exact ⟨_, rfl⟩
  obtain ⟨shorter, hwhole⟩ := hwhole
  rw [longestBare?, List.inits_append, List.reverse_append, List.find?_append, hlonger, hwhole,
    List.find?_cons, hp]
  rfl

/-- A segment is read back if it closes and what follows cannot belong to it. -/
theorem readSegment_write {piece t : List Char} (hpiece : closes false piece = true)
    (ht : ∀ c ∈ t.head?, Token.isBareChar c = false) :
    readSegment (writeSegment piece ++ t) = some (piece, t) := by
  rw [writeSegment]
  split
  · next hplain =>
    rw [isPlain, Bool.and_eq_true, Bool.not_eq_true'] at hplain
    have hmark : ∀ rest, piece ++ t ≠ quoteMark :: rest := by
      intro rest heq
      cases piece with
      | nil => exact absurd hplain.2 (by decide)
      | cons c cs =>
        obtain ⟨rfl, -⟩ := List.cons.inj heq
        have hopens : Token.opens (quoteMark :: cs) = true := by
          rw [Token.opens, hplain.2, Bool.true_or]
        exact absurd (Token.isBareChar_of_opens hopens List.mem_cons_self) (by decide)
    rw [readSegment, longestBare?_append hplain.2 ht, Option.bind_some, if_neg (by simp [hplain.1]),
      List.drop_left]
    exact hmark
  · rw [quote, List.cons_append, List.cons_append, List.append_assoc, List.singleton_append]
    exact (readQuoted_escaped piece t).1 hpiece

theorem readSegment_write_cons {piece : List Char} (hpiece : closes false piece = true) {c : Char}
    (hc : Token.isBareChar c = false) (t : List Char) :
    readSegment (writeSegment piece ++ c :: t) = some (piece, c :: t) := by
  refine readSegment_write hpiece fun d hd => ?_
  obtain rfl := Option.some.inj hd
  exact hc

/-- Segments that close are read back with the colons between them. -/
theorem readName_join {pieces : List (List Char)} (hne : pieces ≠ [])
    (h : ∀ piece ∈ pieces, closes false piece = true) {t : List Char}
    (ht : ∀ c ∈ t.head?, Token.isBareChar c = false) (hcolon : t.head? ≠ some ':') :
    readName (Text.join ':' (pieces.map writeSegment) ++ t) = some (pieces, t) := by
  induction pieces with
  | nil => exact absurd rfl hne
  | cons piece rest ih =>
    obtain ⟨hpiece, hrest⟩ := List.forall_mem_cons.mp h
    by_cases hlast : rest = []
    · subst hlast
      exact readName_of_end (readSegment_write hpiece ht) hcolon
    · have hread := @readSegment_write_cons piece hpiece ':' rfl
        (Text.join ':' (rest.map writeSegment) ++ t)
      rw [List.map_cons, Text.join_cons (by simpa using hlast), List.append_assoc, List.cons_append,
        readName_of_colon hread, ih hlast hrest]
      rfl

/-- **What is written of a name is read back, and nothing of the text behind it is taken, exactly if
the name closes**: in each of its segments there is an even number of backslashes in front of each
mark and at the end. If any text at all is read as the name, then what is written of it is. -/
theorem readName_write (name : String) {t : List Char} {c : Char} (ht : t.head? = some c)
    (hc : c ∈ [' ', '=', ';', ',', ']']) :
    (readName ((write name).toList ++ t) = some (segments name.toList, t) ↔
      ∀ piece ∈ segments name.toList, Closes piece) ∧
    ((∃ text rest, readName text = some (segments name.toList, rest)) →
      readName ((write name).toList ++ t) = some (segments name.toList, t)) := by
  have hends : ∀ d ∈ [' ', '=', ';', ',', ']'], Token.isBareChar d = false ∧ d ≠ ':' := by
    intro d hd
    simp only [List.mem_cons, List.not_mem_nil, or_false] at hd
    rcases hd with rfl | rfl | rfl | rfl | rfl <;> decide
  have hbare : ∀ d ∈ t.head?, Token.isBareChar d = false := fun d hd =>
    Option.some.inj (ht.symm.trans hd) ▸ (hends c hc).1
  have hcolon : t.head? ≠ some ':' := fun h =>
    (hends c hc).2 (Option.some.inj (ht.symm.trans h))
  have hback : (∀ piece ∈ segments name.toList, Closes piece) →
      readName ((write name).toList ++ t) = some (segments name.toList, t) := by
    intro hcloses
    rw [toList_write, writeChars]
    exact readName_join (Text.split_ne_nil ':' _) (fun p hp => (closes_iff p).mpr (hcloses p hp))
      hbare hcolon
  refine ⟨⟨fun hread => closes_of_readName hread, hback⟩, ?_⟩
  rintro ⟨text, rest, hread⟩
  exact hback (closes_of_readName hread)

/-- Marks behind two backslashes, also at the end of a segment, do no harm. -/
theorem readName_write_pairs :
    readName ((write "a b\\\\:\\\\\"x").toList ++ " [k=v];".toList) =
      some (["a b\\\\".toList, "\\\\\"x".toList], " [k=v];".toList) :=
  (readName_write "a b\\\\:\\\\\"x" rfl (by decide)).1.mpr (by decide)

/-- A backslash at the end of a name takes the closing mark away, so the reader does not stop
there. -/
theorem not_readName_write_backslash :
    ¬ ∀ (name : String) (t : List Char), (∃ c ∈ [' ', '=', ';', ',', ']'], t.head? = some c) →
      readName ((write name).toList ++ t) = some (segments name.toList, t) := by
  intro h
  have hread := h "a\\" [';'] ⟨';', by decide, rfl⟩
  exact absurd (closes_of_readName hread) (by decide)

end GraphScript.Identifier
