import Mathlib.Data.List.Induction

/-!
# Lists without their repetitions

`List.eraseDups` leaves out of a list what was there before. Entries are compared with `==`, which
may identify entries that can still be told apart, so it matters which of them is kept.

* **One entry more** (`eraseDups_concat`): it comes last, unless one that equals it was there. All
  else follows from this by going along the list.
* **Which entries are kept**: one of each (`any_eraseDups`, `pairwise_eraseDups`), and among equal
  ones the first (`getElem?_idxOf_of_mem_eraseDups`).
* **Their order** (`pairwise_idxOf_eraseDups`) is that of the first occurrences.
-/

namespace GraphScript

section Repetitions

variable {α β : Type} [BEq α]

/-- What occurs in a list is found at the same place when the list goes on. -/
theorem idxOf_append_of_any {l : List α} {a : α} (h : l.any (· == a) = true) (l' : List α) :
    (l ++ l').idxOf a = l.idxOf a ∧ l.idxOf a < l.length := by
  have hlt : l.findIdx (· == a) < l.length := List.findIdx_lt_length.mpr (List.any_eq_true.mp h)
  rw [List.idxOf, List.findIdx_append, if_pos hlt]
  exact ⟨rfl, hlt⟩

section Equivalence

variable [EquivBEq α] {l : List α} {a b : α}

theorem idxOf_congr (h : (a == b) = true) (l : List α) : l.idxOf a = l.idxOf b := by
  have hsame : (fun c : α => c == a) = fun c => c == b := funext fun c => BEq.congr_right h
  rw [List.idxOf, List.idxOf, hsame]

/-- What does not occur in a list is found behind it when it comes last. -/
theorem idxOf_concat_self (h : l.any (· == a) = false) : (l ++ [a]).idxOf a = l.length := by
  have hnot : ¬ l.findIdx (· == a) < l.length := fun hlt =>
    Bool.eq_false_iff.mp h (List.any_eq_true.mpr (List.findIdx_lt_length.mp hlt))
  rw [List.idxOf, List.findIdx_append, if_neg hnot, List.findIdx_cons, BEq.rfl]
  exact Nat.zero_add _

/-- Leaving out what equals one entry takes away nothing that equals another one. -/
theorem any_filter_of_ne (hne : (b == a) = false) (l : List α) :
    (l.filter fun c => !c == b).any (· == a) = l.any (· == a) := by
  rw [List.any_filter]
  congr 1
  funext c
  cases hca : c == a with
  | false => exact Bool.and_false _
  | true =>
    have hcb : (c == b) = false := by rw [BEq.congr_left hca, BEq.comm, hne]
    rw [hcb]
    rfl

/-- One more entry comes last, unless one that equals it was there. -/
theorem eraseDups_concat (l : List α) (a : α) :
    (l ++ [a]).eraseDups = if l.any (· == a) then l.eraseDups else l.eraseDups ++ [a] := by
  induction hn : l.length using Nat.strongRecOn generalizing l with
  | _ n ih =>
    cases l with
    | nil => rfl
    | cons b l =>
      have hrest := ih _ (hn ▸ Nat.lt_succ_of_le (List.length_filter_le (fun c => !c == b) l))
        (l.filter fun c => !c == b) rfl
      rw [List.cons_append, List.eraseDups_cons, List.eraseDups_cons, List.any_cons,
        List.filter_append, List.filter_cons, List.filter_nil, BEq.comm (a := a)]
      cases hba : b == a with
      | true => simp
      | false =>
        rw [any_filter_of_ne hba] at hrest
        rw [Bool.not_false, if_pos rfl, hrest, Bool.false_or]
        split
        · rfl
        · rfl

theorem any_eraseDups (l : List α) (a : α) : l.eraseDups.any (· == a) = l.any (· == a) := by
  induction l using List.reverseRecOn with
  | nil => rfl
  | append_singleton l b ih =>
    rw [eraseDups_concat, List.any_append, List.any_cons, List.any_nil, Bool.or_false]
    split
    · next hb =>
      rw [ih]
      cases hba : b == a with
      | false => exact (Bool.or_false _).symm
      | true =>
        have hsame : (fun c : α => c == b) = fun c => c == a := funext fun c => BEq.congr_right hba
        rw [← hsame, hb]
        rfl
    · rw [List.any_append, ih, List.any_cons, List.any_nil, Bool.or_false]

/-- Whatever occurs, something that equals it is kept. -/
theorem exists_mem_eraseDups (h : a ∈ l) : ∃ b ∈ l.eraseDups, (b == a) = true := by
  rw [← List.any_eq_true, any_eraseDups]
  exact List.any_eq_true.mpr ⟨a, h, BEq.rfl⟩

theorem any_of_mem_eraseDups (h : a ∈ l.eraseDups) : l.any (· == a) = true := by
  rw [← any_eraseDups]
  exact List.any_eq_true.mpr ⟨a, h, BEq.rfl⟩

/-- Of equal entries, the first is the one that is kept. -/
theorem getElem?_idxOf_of_mem_eraseDups (h : a ∈ l.eraseDups) : l[l.idxOf a]? = some a := by
  induction l using List.reverseRecOn with
  | nil => cases h
  | append_singleton l b ih =>
    have hkept : a ∈ l.eraseDups → (l ++ [b])[(l ++ [b]).idxOf a]? = some a := fun h => by
      obtain ⟨hsame, hlt⟩ := idxOf_append_of_any (any_of_mem_eraseDups h) [b]
      rw [hsame, List.getElem?_append_left hlt, ih h]
    rw [eraseDups_concat] at h
    split at h
    · exact hkept h
    · next hb =>
      rcases List.mem_append.mp h with h | h
      · exact hkept h
      · obtain rfl := List.mem_singleton.mp h
        rw [idxOf_concat_self (Bool.eq_false_iff.mpr hb), List.getElem?_concat_length]

theorem mem_eraseDups_iff_getElem? : a ∈ l.eraseDups ↔ l[l.idxOf a]? = some a := by
  refine ⟨getElem?_idxOf_of_mem_eraseDups, fun hplace => ?_⟩
  -- what is kept in its stead has the same place
  obtain ⟨b, hb, hba⟩ := exists_mem_eraseDups (List.mem_of_getElem? hplace)
  have hkept := getElem?_idxOf_of_mem_eraseDups hb
  rw [idxOf_congr hba, hplace] at hkept
  rwa [Option.some.inj hkept]

/-- **What is kept stands in the order in which it first occurs.** -/
theorem pairwise_idxOf_eraseDups (l : List α) :
    l.eraseDups.Pairwise fun a b => l.idxOf a < l.idxOf b := by
  induction l using List.reverseRecOn with
  | nil => exact List.Pairwise.nil
  | append_singleton l c ih =>
    have hkept : ∀ {a}, a ∈ l.eraseDups → (l ++ [c]).idxOf a = l.idxOf a ∧ l.idxOf a < l.length :=
      fun ha => idxOf_append_of_any (any_of_mem_eraseDups ha) [c]
    have hbefore : l.eraseDups.Pairwise fun a b => (l ++ [c]).idxOf a < (l ++ [c]).idxOf b :=
      ih.imp_of_mem fun ha hb hlt => by rwa [(hkept ha).1, (hkept hb).1]
    rw [eraseDups_concat]
    split
    · exact hbefore
    · next hc =>
      refine List.pairwise_append.mpr ⟨hbefore, List.pairwise_singleton _ _, fun a ha b hb => ?_⟩
      obtain rfl := List.mem_singleton.mp hb
      rw [(hkept ha).1, idxOf_concat_self (Bool.eq_false_iff.mpr hc)]
      exact (hkept ha).2

/-- No two entries that are kept are equal. -/
theorem pairwise_eraseDups (l : List α) : l.eraseDups.Pairwise fun a b => (a == b) = false :=
  (pairwise_idxOf_eraseDups l).imp fun hlt => Bool.eq_false_iff.mpr fun hab =>
    Nat.ne_of_lt hlt (idxOf_congr hab l)

theorem eraseDups_eraseDups (l : List α) : l.eraseDups.eraseDups = l.eraseDups := by
  induction l using List.reverseRecOn with
  | nil => rfl
  | append_singleton l a ih =>
    rw [eraseDups_concat]
    split
    · exact ih
    · next ha => rw [eraseDups_concat, any_eraseDups, if_neg ha, ih]

end Equivalence

/-! ### Where equal entries are the same -/

section Lawful

variable [LawfulBEq α]

theorem any_beq_iff_mem {l : List α} {a : α} : l.any (· == a) = true ↔ a ∈ l := by
  rw [List.any_beq', List.elem_iff]

theorem nodup_eraseDups (l : List α) : l.eraseDups.Nodup :=
  (pairwise_eraseDups l).imp fun h => by simpa using h

theorem eraseDups_of_nodup {l : List α} (h : l.Nodup) : l.eraseDups = l := by
  induction l using List.reverseRecOn with
  | nil => rfl
  | append_singleton l a ih =>
    obtain ⟨hl, -, hdisjoint⟩ := List.nodup_append.mp h
    have ha : a ∉ l := fun hmem => hdisjoint a hmem a List.mem_cons_self rfl
    rw [eraseDups_concat, if_neg (mt any_beq_iff_mem.mp ha), ih hl]

theorem eraseDups_filter (p : α → Bool) (l : List α) :
    (l.filter p).eraseDups = l.eraseDups.filter p := by
  induction l using List.reverseRecOn with
  | nil => rfl
  | append_singleton l a ih =>
    rw [List.filter_append, List.filter_cons, List.filter_nil, eraseDups_concat]
    cases hp : p a with
    | false =>
      rw [if_neg Bool.false_ne_true, List.append_nil, ih]
      split
      · rfl
      · simp [hp]
    | true =>
      have hiff : (l.filter p).any (· == a) = l.any (· == a) := by
        rw [Bool.eq_iff_iff, any_beq_iff_mem, any_beq_iff_mem, List.mem_filter, hp]
        exact and_iff_left rfl
      rw [if_pos rfl, eraseDups_concat, hiff, ih]
      split
      · rfl
      · simp [hp]

/-- Repetitions may be dropped early. -/
theorem eraseDups_append_congr {l l' m m' : List α} (hl : l.eraseDups = l'.eraseDups)
    (hm : m.eraseDups = m'.eraseDups) : (l ++ m).eraseDups = (l' ++ m').eraseDups := by
  have hmem : ∀ a, l.elem a = l'.elem a := fun a => by
    rw [Bool.eq_iff_iff, List.elem_iff, List.elem_iff, ← List.mem_eraseDups, hl,
      List.mem_eraseDups]
  simp only [List.eraseDups_append, List.removeAll, eraseDups_filter, hl, hm, hmem]

theorem eraseDups_flatMap_congr {f f' : β → List α} (h : ∀ b, (f b).eraseDups = (f' b).eraseDups)
    (l : List β) : (l.flatMap f).eraseDups = (l.flatMap f').eraseDups := by
  induction l with
  | nil => rfl
  | cons b l ih =>
    rw [List.flatMap_cons, List.flatMap_cons]
    exact eraseDups_append_congr (h b) ih

end Lawful

end Repetitions

end GraphScript
