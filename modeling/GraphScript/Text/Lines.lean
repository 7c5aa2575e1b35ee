/-!
# Line ends

A line may end with a carriage return, a line feed, or one behind the other. `unifyLineEnds`
writes every line end as one line feed.
-/

namespace GraphScript.Text

/-- What becomes of a character behind another one: a carriage return is a line end, and a line
feed behind it is part of the same line end. -/
def unifyBehind (before c : Char) : List Char :=
  if c = '\r' then ['\n'] else if c = '\n' ∧ before = '\r' then [] else [c]

/-- The text with every line end written as one line feed. -/
def unifyLineEnds (cs : List Char) : List Char :=
  (List.zipWith unifyBehind ('\n' :: cs) cs).flatten

/-- No carriage return is left. -/
theorem not_mem_unifyLineEnds (cs : List Char) : '\r' ∉ unifyLineEnds cs := by
  intro h
  obtain ⟨piece, hp, hm⟩ := List.mem_flatten.1 h
  obtain ⟨i, hi, rfl⟩ := List.mem_iff_getElem.1 hp
  rw [List.getElem_zipWith, unifyBehind] at hm
  split at hm
  · simp at hm
  · next hc =>
    split at hm
    · simp at hm
    · exact hc (List.mem_singleton.1 hm).symm

end GraphScript.Text
