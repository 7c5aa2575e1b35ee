import GraphScript.Proofs.Layout
import Mathlib.Data.List.Induction

/-!
# Quoted texts

A quoted text is written with a backslash in front of every quotation mark in it and with all its
own backslashes left alone. So a backslash of the text may come to stand in front of a mark, and
then a reader takes the two of them for something else. This module says what follows from that.

* **Reading** (`Lexeme.cut_textAll`): lexemes are read back exactly if each quoted text among them
  `closes`, that is, if it has an even number of backslashes in front of each of its marks and at
  its end (`Identifier.closes_iff`). One that does not close leaves the reader on the wrong side of
  all later marks, and nothing that follows can repair it.
* **Telling apart** (`Lexeme.textAll_injective`): all the same no two rows of lexemes are written
  alike. They are told apart from the right: from its closing mark a quoted text goes back to the
  next mark that has no backslash in front of it.
-/

namespace GraphScript

namespace Identifier

/-! ### Quoted texts that close -/

/-- Whether a reader finds the end of a quoted text. A backslash is *pending* if it may belong to
the character behind it. -/
def closes : (pending : Bool) → List Char → Bool
  | pending, [] => !pending
  | false, c :: cs => closes (c == '\\') cs
  | true, c :: cs => c != quoteMark && closes false cs

/-- The number of backslashes at the end. -/
def trailing (cs : List Char) : Nat := (cs.reverse.takeWhile (· == '\\')).length

/-- There is an even number of backslashes in front of each quotation mark and at the end. -/
def Closes (cs : List Char) : Prop :=
  ∀ before behind, cs = before ++ behind → (behind = [] ∨ behind.head? = some quoteMark) →
    trailing before % 2 = 0

private theorem trailing_concat (cs : List Char) (c : Char) :
    trailing (cs ++ [c]) = if c = '\\' then trailing cs + 1 else 0 := by
  rw [trailing, List.reverse_append, List.reverse_singleton, List.singleton_append,
    List.takeWhile_cons]
  split <;> simp_all [trailing]

/-- The condition behind what was read already. -/
private theorem closes_iff_append (read cs : List Char) :
    closes (trailing read % 2 == 1) cs = true ↔ ∀ before behind, cs = before ++ behind →
      (behind = [] ∨ behind.head? = some quoteMark) → trailing (read ++ before) % 2 = 0 := by
  induction cs generalizing read with
  | nil =>
    constructor
    · intro h before behind heq _
      obtain ⟨rfl, rfl⟩ := List.append_eq_nil_iff.mp heq.symm
      rw [List.append_nil]
      simp only [closes, Bool.not_eq_true', beq_eq_false_iff_ne] at h
      omega
    · intro h
      have := h [] [] rfl (.inl rfl)
      rw [List.append_nil] at this
      simp [closes, this]
  | cons c cs ih =>
    have hstep : closes (trailing read % 2 == 1) (c :: cs) = true ↔
        (c = quoteMark → trailing read % 2 = 0) ∧
          closes (trailing (read ++ [c]) % 2 == 1) cs = true := by
      rw [trailing_concat]
      rcases Nat.mod_two_eq_zero_or_one (trailing read) with h | h
      · by_cases hc : c = '\\'
        · simp [closes, h, hc, Nat.add_mod]
        · simp [closes, h, hc, beq_false_of_ne hc]
      · by_cases hc : c = '\\'
        · simp [closes, h, hc, Nat.add_mod, quoteMark]
        · simp [closes, h, hc]
    -- a mark asks for its condition on the spot, and all else is handed on with `c` read
    rw [hstep, ih]
    constructor
    · rintro ⟨hmark, h⟩ before behind heq hend
      cases before with
      | nil =>
        rw [List.nil_append] at heq
        subst heq
        rw [List.append_nil]
        rcases hend with hend | hend
        · exact absurd hend (List.cons_ne_nil _ _)
        · exact hmark (Option.some.inj hend)
      | cons d before =>
        obtain ⟨rfl, rfl⟩ := List.cons.inj heq
        rw [List.append_cons]
        exact h before behind rfl hend
    · intro h
      refine ⟨fun hc => ?_, fun before behind heq hend => ?_⟩
      · have := h [] (c :: cs) rfl (.inr (congrArg some hc))
        rwa [List.append_nil] at this
      · have := h (c :: before) behind (congrArg (c :: ·) heq) hend
        rwa [List.append_cons] at this

/-- **A reader finds the end of a quoted text exactly if there is an even number of backslashes in
front of each mark and at its end.** -/
theorem closes_iff (cs : List Char) : closes false cs = true ↔ Closes cs :=
  closes_iff_append [] cs

end Identifier

open Identifier (quoteMark quote escapeChar closes)

namespace Lexeme

/-! ### Reading -/

/-- Whether a reader finds the end of a lexeme. -/
def closes : Lexeme → Bool
  | plain _ => true
  | quoted cs => Identifier.closes false cs

/-- Neither a quotation mark nor a backslash stands for itself. -/
def Legal : Lexeme → Prop
  | plain c => c ≠ quoteMark ∧ c ≠ '\\'
  | quoted _ => True

/-- Lexemes in writing. -/
abbrev textAll (ls : List Lexeme) : List Char := ls.flatMap text

variable {ls : List Lexeme}

/-- In the middle of a quoted text, a reader that takes itself to be outside is lost by its end. -/
private theorem cut_outside_escaped (hls : cut (.inside []) (textAll ls) = none) (cs : List Char) :
    cut .outside (cs.flatMap escapeChar ++ quoteMark :: textAll ls) = none := by
  induction cs with
  | nil => rw [List.flatMap_nil, List.nil_append, cut, if_pos rfl, hls]
  | cons c cs ih =>
    rw [List.flatMap_cons, escapeChar]
    split
    · rfl
    · next hc =>
      rw [List.singleton_append, List.cons_append, cut, if_neg hc]
      split
      · rfl
      · rw [ih, Option.map_none]

/-- A reader that takes itself to be between marks when it is not is lost. -/
theorem cut_inside_textAll (h : ∀ l ∈ ls, l.Legal) (read : List Char) :
    cut (.inside read) (textAll ls) = none := by
  induction ls generalizing read with
  | nil => rfl
  | cons l ls ih =>
    have ih := ih fun m hm => h m (List.mem_cons_of_mem _ hm)
    cases l with
    | plain c =>
      obtain ⟨hmark, hback⟩ := h _ List.mem_cons_self
      rw [textAll, List.flatMap_cons, text, List.singleton_append, cut, if_neg hmark,
        if_neg hback, ih]
    | quoted cs =>
      rw [textAll, List.flatMap_cons, text, quote, List.cons_append, List.cons_append, cut,
        if_pos rfl, List.append_assoc, List.singleton_append, cut_outside_escaped (ih []),
        Option.map_none]

/-- Behind the opening mark, a reader comes to the closing one if the text closes, and is lost
otherwise. -/
private theorem cut_escaped (h : ∀ l ∈ ls, l.Legal) (cs read : List Char) :
    cut (.inside read) (cs.flatMap escapeChar ++ quoteMark :: textAll ls) =
        (if Identifier.closes false cs then
          (cut .outside (textAll ls)).map (.quoted (read ++ cs) :: ·) else none) ∧
      cut (.escaped read) (cs.flatMap escapeChar ++ quoteMark :: textAll ls) =
        (if Identifier.closes true cs then
          (cut .outside (textAll ls)).map (.quoted (read ++ '\\' :: cs) :: ·) else none) := by
  have hlost := cut_inside_textAll h
  induction cs generalizing read with
  | nil =>
    constructor
    · rw [List.flatMap_nil, List.nil_append, cut, if_pos rfl, List.append_nil]
      rfl
    · rw [List.flatMap_nil, List.nil_append, cut, if_pos rfl, hlost]
      rfl
  | cons c cs ih =>
    have hback : '\\' ≠ quoteMark := by decide
    rw [List.flatMap_cons, escapeChar]
    by_cases hc : c = quoteMark
    · -- the mark comes with a backslash, which an open backslash in front of it takes away
      subst hc
      rw [if_pos rfl, List.cons_append, List.cons_append, List.singleton_append, List.cons_append]
      constructor
      · rw [cut, if_neg hback, if_pos rfl, cut, if_pos rfl, (ih _).1, List.append_assoc]
        rfl
      · rw [cut, if_neg hback, cut, if_pos rfl, cut_outside_escaped (hlost [])]
        rfl
    · rw [if_neg hc, List.singleton_append, List.cons_append]
      constructor
      · rw [cut, if_neg hc]
        split
        · next hb =>
          subst hb
          rw [(ih _).2]
          rfl
        · next hb =>
          rw [(ih _).1, Identifier.closes, List.append_assoc, beq_false_of_ne hb]
          rfl
      · rw [cut, if_neg hc, (ih _).1, Identifier.closes, bne_iff_ne.mpr hc, Bool.true_and,
          List.append_assoc]
        rfl

/-- **Lexemes are read back if all quoted texts among them close, and refused otherwise.** -/
theorem cut_textAll (h : ∀ l ∈ ls, l.Legal) :
    cut .outside (textAll ls) = if ls.all closes then some ls else none := by
  induction ls with
  | nil => rfl
  | cons l ls ih =>
    have hls : ∀ m ∈ ls, m.Legal := fun m hm => h m (List.mem_cons_of_mem _ hm)
    rw [textAll, List.flatMap_cons, List.all_cons]
    cases l with
    | plain c =>
      obtain ⟨hmark, hback⟩ := h _ List.mem_cons_self
      rw [text, List.singleton_append, cut, if_neg hmark, if_neg hback, ih hls, closes,
        Bool.true_and]
      split <;> rfl
    | quoted cs =>
      rw [text, quote, List.cons_append, List.cons_append, cut, if_pos rfl, List.append_assoc,
        List.singleton_append, (cut_escaped hls cs []).1, ih hls, closes, List.nil_append]
      cases Identifier.closes false cs
      · rfl
      · rw [if_pos rfl, Bool.true_and]
        split <;> rfl

/-! ### Telling apart -/

/-- Between its marks, a quoted text has a backslash in front of every mark. -/
private theorem getLast?_of_escaped {cs before behind : List Char}
    (h : cs.flatMap escapeChar = before ++ quoteMark :: behind) :
    before.getLast? = some '\\' := by
  induction cs generalizing before with
  | nil => simp at h
  | cons c cs ih =>
    rw [List.flatMap_cons, escapeChar] at h
    split at h
    · -- the mark of `c` itself is the one that is looked for, or it lies in front of it
      match before with
      | [] => exact absurd (List.cons.inj h).1 (by decide)
      | [d] =>
        obtain ⟨rfl, -⟩ := List.cons.inj h
        rfl
      | d :: e :: before =>
        obtain ⟨-, h⟩ := List.cons.inj h
        obtain ⟨-, h⟩ := List.cons.inj h
        rw [List.getLast?_cons, List.getLast?_cons, ih h]
        rfl
    · next hc =>
      match before with
      | [] => exact absurd (List.cons.inj h).1 hc
      | d :: before =>
        obtain ⟨-, h⟩ := List.cons.inj h
        rw [List.getLast?_cons, ih h]
        rfl

private theorem escaped_injective {cs ds : List Char}
    (h : cs.flatMap escapeChar = ds.flatMap escapeChar) : cs = ds := by
  induction cs generalizing ds with
  | nil =>
    cases ds with
    | nil => rfl
    | cons d ds => rw [List.flatMap_cons, escapeChar] at h; split at h <;> simp at h
  | cons c cs ih =>
    cases ds with
    | nil => rw [List.flatMap_cons, escapeChar] at h; split at h <;> simp at h
    | cons d ds =>
      rw [List.flatMap_cons, List.flatMap_cons, escapeChar, escapeChar] at h
      split at h
      · next hc =>
        split at h
        · next hd =>
          rw [hc, hd, ih (List.append_cancel_left h)]
        · obtain ⟨-, h⟩ := List.cons.inj h
          exact absurd (@getLast?_of_escaped ds [] _ h.symm) nofun
      · split at h
        · obtain ⟨-, h⟩ := List.cons.inj h
          exact absurd (@getLast?_of_escaped cs [] _ h) nofun
        · rw [List.singleton_append, List.singleton_append, List.cons.injEq] at h
          rw [h.1, ih h.2]

/-- The opening mark is the last one without a backslash in front of it. -/
private theorem append_quote_inj {a b cs ds : List Char} (ha : a.getLast? ≠ some '\\')
    (hb : b.getLast? ≠ some '\\')
    (h : a ++ quoteMark :: cs.flatMap escapeChar = b ++ quoteMark :: ds.flatMap escapeChar) :
    a = b ∧ cs = ds := by
  -- if one opening mark lay behind the other, it would have a backslash in front of it
  have hbehind : ∀ {a b e cs ds : List Char}, b.getLast? ≠ some '\\' → b = a ++ e →
      quoteMark :: cs.flatMap escapeChar = e ++ quoteMark :: ds.flatMap escapeChar →
      a = b ∧ cs = ds := by
    intro a b e cs ds hb hbe he
    cases e with
    | nil =>
      rw [List.append_nil] at hbe
      exact ⟨hbe.symm, escaped_injective (List.cons.inj he).2⟩
    | cons c e =>
      obtain ⟨-, he⟩ := List.cons.inj he
      refine absurd ?_ hb
      rw [hbe, List.getLast?_append, List.getLast?_cons, getLast?_of_escaped he]
      rfl
  rcases List.append_eq_append_iff.mp h with ⟨e, hbe, he⟩ | ⟨e, hae, he⟩
  · exact hbehind hb hbe he
  · obtain ⟨rfl, rfl⟩ := hbehind ha hae he
    exact ⟨rfl, rfl⟩

private theorem getLast?_quote (cs : List Char) : (quote cs).getLast? = some quoteMark := by
  rw [quote, List.getLast?_concat]

/-- What is written of lexemes does not end in a backslash. -/
private theorem getLast?_textAll (h : ∀ l ∈ ls, l.Legal) :
    (textAll ls).getLast? ≠ some '\\' := by
  rcases List.eq_nil_or_concat ls with rfl | ⟨ls, l, rfl⟩
  · exact nofun
  · have hl := h l (by simp)
    rw [textAll, List.concat_eq_append, List.flatMap_append, List.flatMap_singleton,
      List.getLast?_append]
    cases l with
    | plain c => exact fun hc => hl.2 (Option.some.inj hc)
    | quoted cs =>
      rw [text, getLast?_quote]
      exact fun hc => absurd (Option.some.inj hc) (by decide)

/-- The last character says of which sort the last lexeme is, and then where it begins. -/
private theorem append_text_inj {a b : List Char} {l m : Lexeme} (hl : l.Legal) (hm : m.Legal)
    (ha : a.getLast? ≠ some '\\') (hb : b.getLast? ≠ some '\\') (h : a ++ l.text = b ++ m.text) :
    a = b ∧ l = m := by
  have hlast := congrArg List.getLast? h
  rw [List.getLast?_append, List.getLast?_append] at hlast
  cases l with
  | plain c =>
    cases m with
    | plain d =>
      obtain ⟨hab, hcd⟩ := List.append_inj' h rfl
      exact ⟨hab, by rw [(List.cons.inj hcd).1]⟩
    | quoted ds =>
      rw [text, text, getLast?_quote] at hlast
      exact absurd (Option.some.inj hlast) hl.1
  | quoted cs =>
    cases m with
    | plain d =>
      rw [text, text, getLast?_quote] at hlast
      exact absurd (Option.some.inj hlast).symm hm.1
    | quoted ds =>
      rw [text, text, quote, quote, ← List.append_assoc, ← List.append_assoc] at h
      obtain ⟨hab, hcd⟩ := append_quote_inj ha hb (List.append_cancel_right h)
      exact ⟨hab, by rw [hcd]⟩

/-- **No two rows of lexemes are written alike**, whether or not a reader can read them. -/
theorem textAll_injective {ms : List Lexeme} (hls : ∀ l ∈ ls, l.Legal) (hms : ∀ m ∈ ms, m.Legal)
    (h : textAll ls = textAll ms) : ls = ms := by
  have hnil : ∀ {ks : List Lexeme} {k : Lexeme}, textAll (ks ++ [k]) ≠ [] := fun {ks k} h => by
    cases k <;> simp [text, quote] at h
  -- what is written may be read in two ways from the left, so the induction is from the right
  induction ls using List.reverseRecOn generalizing ms with
  | nil =>
    rcases List.eq_nil_or_concat ms with rfl | ⟨ms, m, rfl⟩
    · rfl
    · exact absurd h.symm (List.concat_eq_append ▸ hnil)
  | append_singleton ls l ih =>
    rcases List.eq_nil_or_concat ms with rfl | ⟨ms, m, rfl⟩
    · exact absurd h hnil
    rw [List.concat_eq_append] at hms h ⊢
    have hls' : ∀ l ∈ ls, l.Legal := fun l hl => hls l (List.mem_append_left _ hl)
    have hms' : ∀ m ∈ ms, m.Legal := fun m hm => hms m (List.mem_append_left _ hm)
    rw [textAll, textAll, List.flatMap_append, List.flatMap_append, List.flatMap_singleton,
      List.flatMap_singleton] at h
    obtain ⟨heq, rfl⟩ := append_text_inj (hls l (by simp)) (hms m (by simp))
      (getLast?_textAll hls') (getLast?_textAll hms') h
    rw [ih hls' hms' heq]

end Lexeme

end GraphScript
