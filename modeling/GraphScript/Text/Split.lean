/-!
# Cutting at a separator

`split sep` cuts a text at every occurrence of one character, and `join sep` puts the pieces
together again. A text without the separator is one piece, and the empty text is one empty
piece, so there is always one piece more than there are separators.

* `join_split`: nothing is lost by cutting.
* `split_join`: pieces that are free of the separator are found again.
-/

namespace GraphScript.Text

/-- The pieces between the occurrences of a separator, empty ones included. -/
def split (sep : Char) : List Char → List (List Char)
  | [] => [[]]
  | c :: cs => if c = sep then [] :: split sep cs else (split sep cs).modifyHead (c :: ·)

/-- The pieces in order, with a separator between neighbours. -/
def join (sep : Char) : List (List Char) → List Char
  | [] => []
  | [piece] => piece
  | piece :: rest => piece ++ sep :: join sep rest

/-! ### Cutting and joining undo each other -/

theorem split_ne_nil (sep : Char) (cs : List Char) : split sep cs ≠ [] := by
  cases cs with
  | nil => simp [split]
  | cons c cs =>
    rw [split]
    split
    · simp
    · simp [split_ne_nil sep cs]

theorem join_cons {sep : Char} {piece : List Char} {rest : List (List Char)} (h : rest ≠ []) :
    join sep (piece :: rest) = piece ++ sep :: join sep rest := by
  cases rest with
  | nil => exact absurd rfl h
  | cons _ _ => rfl

theorem join_modifyHead_cons {sep c : Char} {pieces : List (List Char)} (h : pieces ≠ []) :
    join sep (pieces.modifyHead (c :: ·)) = c :: join sep pieces := by
  cases pieces with
  | nil => exact absurd rfl h
  | cons piece rest =>
    by_cases hr : rest = []
    · subst hr; rfl
    · rw [List.modifyHead_cons, join_cons hr, join_cons hr, List.cons_append]

/-- Nothing is lost by cutting. -/
theorem join_split (sep : Char) (cs : List Char) : join sep (split sep cs) = cs := by
  induction cs with
  | nil => rfl
  | cons c cs ih =>
    rw [split]
    split
    · next h => rw [join_cons (split_ne_nil sep cs), ih, List.nil_append, h]
    · rw [join_modifyHead_cons (split_ne_nil sep cs), ih]

/-- A text without the separator is one piece. -/
theorem split_eq_singleton {sep : Char} {cs : List Char} (h : sep ∉ cs) :
    split sep cs = [cs] := by
  induction cs with
  | nil => rfl
  | cons c cs ih =>
    have hc : c ≠ sep := fun he => h (he ▸ List.mem_cons_self)
    rw [split, if_neg hc, ih fun hm => h (List.mem_cons_of_mem _ hm), List.modifyHead_cons]

/-- The first separator ends the first piece. -/
theorem split_append_cons {sep : Char} {piece : List Char} (h : sep ∉ piece) (cs : List Char) :
    split sep (piece ++ sep :: cs) = piece :: split sep cs := by
  induction piece with
  | nil => rw [List.nil_append, split, if_pos rfl]
  | cons c piece ih =>
    have hc : c ≠ sep := fun he => h (he ▸ List.mem_cons_self)
    rw [List.cons_append, split, if_neg hc, ih fun hm => h (List.mem_cons_of_mem _ hm),
      List.modifyHead_cons]

/-- Pieces that are free of the separator are found again. -/
theorem split_join {sep : Char} {pieces : List (List Char)} (hne : pieces ≠ [])
    (h : ∀ piece ∈ pieces, sep ∉ piece) : split sep (join sep pieces) = pieces := by
  induction pieces with
  | nil => exact absurd rfl hne
  | cons piece rest ih =>
    have hp := h piece List.mem_cons_self
    by_cases hr : rest = []
    · subst hr; exact split_eq_singleton hp
    · rw [join_cons hr, split_append_cons hp,
        ih hr fun q hq => h q (List.mem_cons_of_mem _ hq)]

/-- Whatever stands in a piece stands in the whole. -/
theorem mem_join {sep c : Char} {pieces : List (List Char)} {piece : List Char}
    (hpiece : piece ∈ pieces) (hc : c ∈ piece) : c ∈ join sep pieces := by
  induction pieces with
  | nil => exact absurd hpiece List.not_mem_nil
  | cons first rest ih =>
    by_cases hr : rest = []
    · subst hr
      obtain rfl := List.mem_singleton.1 hpiece
      exact hc
    · rw [join_cons hr, List.mem_append]
      rcases List.mem_cons.1 hpiece with rfl | hpiece
      · exact .inl hc
      · exact .inr (List.mem_cons_of_mem _ (ih hpiece))

/-- A text with a separator has more than one piece. -/
theorem exists_split_of_mem {sep : Char} {cs : List Char} (h : sep ∈ cs) :
    ∃ piece rest, split sep cs = piece :: rest ∧ rest ≠ [] := by
  obtain ⟨piece, behind, rfl, hpiece⟩ := List.eq_append_cons_of_mem h
  exact ⟨piece, split sep behind, split_append_cons hpiece behind, split_ne_nil sep behind⟩

/-- There is one piece more than there are separators. -/
theorem length_split (sep : Char) (cs : List Char) :
    (split sep cs).length = cs.count sep + 1 := by
  induction cs with
  | nil => rfl
  | cons c cs ih =>
    rw [split]
    split
    · next h => rw [List.length_cons, ih, h, List.count_cons_self]
    · next h => rw [List.length_modifyHead, ih, List.count_cons_of_ne h]

/-- No piece holds the separator. -/
theorem not_mem_of_mem_split {sep : Char} {cs piece : List Char} (h : piece ∈ split sep cs) :
    sep ∉ piece := by
  induction cs generalizing piece with
  | nil => simp_all [split]
  | cons c cs ih =>
    rw [split] at h
    split at h
    · rcases List.mem_cons.1 h with rfl | h
      · simp
      · exact ih h
    · next hc =>
      cases hs : split sep cs with
      | nil => exact absurd hs (split_ne_nil sep cs)
      | cons q rest =>
        rw [hs, List.modifyHead_cons] at h
        rcases List.mem_cons.1 h with rfl | h
        · intro hm
          rcases List.mem_cons.1 hm with rfl | hm
          · exact hc rfl
          · exact ih (hs ▸ List.mem_cons_self) hm
        · exact ih (hs ▸ List.mem_cons_of_mem _ h)

end GraphScript.Text
