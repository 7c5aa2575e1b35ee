import GraphScript.Proofs.Quotes
import Mathlib.Data.List.Infix

/-!
# Finding tokens

A reader makes every run of characters as long as it can be. So tokens are found again if no two of
them touch that could be taken for one, and this module shows that in a script none do.

* **Numerals** (`Identifier.isMagnitude_iff`) are digits with at most one point.
* **Runs** (`Token.opens_of_append`): a run that can begin a token can do so from its first
  character on. Therefore no token is broken off before its end.
* **Pieces** (`Piece.scan_lexemes`): the tokens among pieces are found if each of them is followed
  by a blank or a sign (`Piece.Spaced`).
* **Names** (`Token.merge_raw`): names that were cut at their colons are put together again.
-/

namespace GraphScript

open Identifier (isPlain isWord isNumeral isMagnitude isWordStart isWordChar)

namespace Identifier

/-! ### Numerals -/

/-- Digits with at most one point before, between or behind them. -/
def IsDecimal (cs : List Char) : Prop :=
  ∃ whole : List Char, whole.all Char.isDigit = true ∧
    (cs = whole ∨ ∃ fraction, fraction.all Char.isDigit = true ∧ cs = whole ++ '.' :: fraction)

/-- The beginning of a decimal is one. -/
theorem IsDecimal.of_append {p q : List Char} (h : IsDecimal (p ++ q)) : IsDecimal p := by
  have hall : ∀ {l m : List Char}, (l ++ m).all Char.isDigit = true → l.all Char.isDigit = true :=
    fun h => (Bool.and_eq_true _ _ ▸ List.all_append ▸ h).1
  obtain ⟨whole, hw, rfl | ⟨fraction, hf, h⟩⟩ := h
  · exact ⟨p, hall hw, .inl rfl⟩
  · -- it ends in front of the point, or at or behind it
    rcases List.append_eq_append_iff.mp h with ⟨e, rfl, -⟩ | ⟨e, rfl, he⟩
    · exact ⟨p, hall hw, .inl rfl⟩
    · cases e with
      | nil => exact ⟨whole, hw, .inl (List.append_nil _)⟩
      | cons c e =>
        obtain ⟨rfl, rfl⟩ := List.cons.inj he
        exact ⟨whole, hw, .inr ⟨e, hall hf, rfl⟩⟩

/-- **A magnitude is a decimal with at least one digit.** -/
theorem isMagnitude_iff {cs : List Char} :
    isMagnitude cs = true ↔ IsDecimal cs ∧ cs ≠ [] ∧ cs ≠ ['.'] := by
  constructor
  · intro h
    refine ⟨⟨cs.takeWhile Char.isDigit, List.all_takeWhile, ?_⟩, ?_, ?_⟩
    · have hcs := List.takeWhile_append_dropWhile (p := Char.isDigit) (l := cs)
      cases hd : cs.dropWhile Char.isDigit with
      | nil =>
        rw [hd, List.append_nil] at hcs
        exact .inl hcs.symm
      | cons c fraction =>
        rw [hd] at hcs
        simp only [isMagnitude, hd, Bool.and_eq_true, beq_iff_eq] at h
        exact .inr ⟨fraction, h.1.2, by rw [← h.1.1, hcs]⟩
    · rintro rfl
      exact absurd h (by decide)
    · rintro rfl
      exact absurd h (by decide)
  · rintro ⟨⟨whole, hw, rfl | ⟨fraction, hf, rfl⟩⟩, hne, hpoint⟩
    · have hall := List.all_eq_true.mp hw
      rw [isMagnitude, ← List.append_nil cs, List.dropWhile_append_of_pos hall,
        List.takeWhile_append_of_pos hall]
      simpa using hne
    · have hall := List.all_eq_true.mp hw
      have hsome : ¬ (whole = [] ∧ fraction = []) := by
        rintro ⟨rfl, rfl⟩
        exact hpoint rfl
      rw [isMagnitude, List.dropWhile_append_of_pos hall, List.takeWhile_append_of_pos hall]
      simpa [hf] using not_and_or.mp hsome

end Identifier

open Identifier (IsDecimal isMagnitude_iff)

namespace Token

/-! ### Runs -/

/-- The characters of tokens without quotation marks. -/
def isBareChar (c : Char) : Bool := isWordChar c || c == '.' || c == '-' || c == '>'

private theorem isBareChar_of_isDigit {c : Char} (h : c.isDigit = true) : isBareChar c = true := by
  simp [isBareChar, isWordChar, h]

private theorem isNumeral_of_isMagnitude {cs : List Char} (h : isMagnitude cs = true) :
    isNumeral cs = true := by
  unfold isNumeral
  split
  · exact absurd h (by simp [isMagnitude])
  · exact h

private theorem opens_of_isDecimal {cs : List Char} (h : IsDecimal cs) (hne : cs ≠ []) :
    opens cs = true := by
  by_cases hpoint : cs = ['.']
  · rw [hpoint]
    rfl
  · simp [opens, isNumeral_of_isMagnitude (isMagnitude_iff.mpr ⟨h, hne, hpoint⟩)]

private theorem opens_cons_minus {cs : List Char} (h : IsDecimal cs) :
    opens ('-' :: cs) = true := by
  by_cases hne : cs = []
  · rw [hne]
    rfl
  · by_cases hpoint : cs = ['.']
    · rw [hpoint]
      rfl
    · simp [opens, isNumeral, isMagnitude_iff.mpr ⟨h, hne, hpoint⟩]

/-- **What can begin a token can do so from the first character on.** -/
theorem opens_of_append {p q : List Char} (h : opens (p ++ q) = true) (hp : p ≠ []) :
    opens p = true := by
  obtain ⟨c, p, rfl⟩ := List.exists_cons_of_ne_nil hp
  rw [opens, Bool.or_eq_true, Bool.or_eq_true, or_assoc] at h
  rcases h with h | h | h
  -- a beginning of a word is a word, but one of a numeral may be a mere point or a mere minus
  · have hword : isWord (c :: p) = true := by
      simp only [List.cons_append, isWord, List.all_append, Bool.and_eq_true] at h ⊢
      exact ⟨h.1, h.2.1⟩
    simp [opens, hword]
  · rw [List.cons_append] at h
    unfold isNumeral at h
    split at h
    · next heq =>
      obtain ⟨rfl, rfl⟩ := List.cons.inj heq
      exact opens_cons_minus (isMagnitude_iff.mp h).1.of_append
    · rw [← List.cons_append] at h
      exact opens_of_isDecimal (isMagnitude_iff.mp h).1.of_append (List.cons_ne_nil c p)
  · have hinits : ∀ b ∈ beginnings, ∀ q ∈ b.inits, q ≠ [] → opens q = true := by decide
    have hprefix := (List.mem_inits (c :: p) _).mpr (List.prefix_append (c :: p) q)
    exact hinits _ (List.contains_iff_mem.mp h) _ hprefix hp

/-- A decimal has no other characters. -/
private theorem isBareChar_of_isDecimal {cs : List Char} (h : IsDecimal cs) {c : Char}
    (hc : c ∈ cs) : isBareChar c = true := by
  obtain ⟨whole, hw, rfl | ⟨fraction, hf, rfl⟩⟩ := h
  · exact isBareChar_of_isDigit (List.all_eq_true.mp hw c hc)
  · rcases List.mem_append.mp hc with hc | hc
    · exact isBareChar_of_isDigit (List.all_eq_true.mp hw c hc)
    · rcases List.mem_cons.mp hc with rfl | hc
      · rfl
      · exact isBareChar_of_isDigit (List.all_eq_true.mp hf c hc)

/-- A token without quotation marks has no characters but those. -/
theorem isBareChar_of_opens {cs : List Char} (h : opens cs = true) {c : Char}
    (hc : c ∈ cs) : isBareChar c = true := by
  rw [opens, Bool.or_eq_true, Bool.or_eq_true, or_assoc] at h
  rcases h with h | h | h
  · cases cs with
    | nil => exact absurd hc List.not_mem_nil
    | cons d cs =>
      rw [isWord, Bool.and_eq_true] at h
      have hchar : isWordChar c = true := by
        rcases List.mem_cons.mp hc with rfl | hc
        · simp [isWordChar, h.1]
        · exact List.all_eq_true.mp h.2 c hc
      simp [isBareChar, hchar]
  · unfold isNumeral at h
    split at h
    · rcases List.mem_cons.mp hc with rfl | hc
      · rfl
      · exact isBareChar_of_isDecimal (isMagnitude_iff.mp h).1 hc
    · exact isBareChar_of_isDecimal (isMagnitude_iff.mp h).1 hc
  · have hall : beginnings.all (·.all isBareChar) = true := rfl
    have hcs := List.all_eq_true.mp hall cs (List.contains_iff_mem.mp h)
    exact List.all_eq_true.mp hcs c hc

private theorem not_opens_concat {c : Char} (h : isBareChar c = false) (run : List Char) :
    opens (run ++ [c]) = false := by
  rw [Bool.eq_false_iff]
  intro hopens
  rw [isBareChar_of_opens hopens (List.mem_append_right _ List.mem_cons_self)] at h
  exact absurd h Bool.noConfusion

/-! ### Scanning -/

private theorem scan_plain_of_not_bare {c : Char} (h : isBareChar c = false) (run : List Char)
    (ls : List Lexeme) : scan run (.plain c :: ls) = emit run (scan [] (.plain c :: ls)) := by
  have hc : opens [c] = false := not_opens_concat h []
  rw [scan, scan, not_opens_concat h run, List.nil_append, hc]
  rfl

/-- A run goes on to its end. -/
private theorem scan_map_plain {run cs : List Char} (ls : List Lexeme)
    (h : cs ≠ [] → opens (run ++ cs) = true) :
    scan run (cs.map .plain ++ ls) = scan (run ++ cs) ls := by
  induction cs generalizing run with
  | nil => rw [List.append_nil]; rfl
  | cons c cs ih =>
    have h := h (List.cons_ne_nil c cs)
    rw [List.append_cons] at h ⊢
    have hc : opens (run ++ [c]) = true := opens_of_append h (by simp)
    rw [List.map_cons, List.cons_append, scan, if_pos hc, ih fun _ => h]

/-- A token without quotation marks is found if what follows cannot belong to it. -/
private theorem scan_bare {cs : List Char} {t : Token} (ht : ofBare? cs = some t)
    (hopens : opens cs = true) (hne : cs ≠ []) {c : Char} (hc : isBareChar c = false)
    (ls : List Lexeme) :
    scan [] (cs.map .plain ++ .plain c :: ls) = (scan [] (.plain c :: ls)).map (t :: ·) := by
  have hrun := @scan_map_plain [] cs (.plain c :: ls) fun _ => hopens
  rw [hrun, List.nil_append, scan_plain_of_not_bare hc, emit, if_neg hne, ht, Option.bind_some]

theorem opens_of_isPlain {cs : List Char} (h : isPlain cs = true) : opens cs = true := by
  rw [isPlain, Bool.and_eq_true] at h
  rw [opens, h.2, Bool.true_or]

private theorem scan_ofSegment (cs : List Char) {c : Char} (hc : isBareChar c = false)
    (ls : List Lexeme) :
    scan [] (Lexeme.ofSegment cs ++ .plain c :: ls) =
      (scan [] (.plain c :: ls)).map (.name [cs] :: ·) := by
  rw [Lexeme.ofSegment]
  split
  · next h =>
    have hne : ∀ ds : List Char, isPlain ds = false → cs ≠ ds := by
      rintro ds hds rfl
      exact absurd (hds.symm.trans h) Bool.noConfusion
    refine scan_bare ?_ (opens_of_isPlain h) (hne _ (by decide)) hc ls
    rw [ofBare?, if_neg (hne _ (by decide)), if_neg (hne _ (by decide)), if_pos h]
  · rfl

@[simp] theorem scan_space (ls : List Lexeme) : scan [] (.plain ' ' :: ls) = scan [] ls := rfl

@[simp] theorem scan_newline (ls : List Lexeme) : scan [] (.plain '\n' :: ls) = scan [] ls := rfl

@[simp] theorem scan_sign (s : Sign) (ls : List Lexeme) :
    scan [] (.plain s.char :: ls) = (scan [] ls).map (.sign s :: ·) := by
  cases s <;> rfl

/-! ### Names and their parts -/

/-- The parts of a name, with colons between them. -/
def rawParts : List (List Char) → List Token
  | [] => []
  | [part] => [.name [part]]
  | part :: rest => .name [part] :: .sign .colon :: rawParts rest

/-- A token before names are put together. -/
def raw : Token → List Token
  | name parts => rawParts parts
  | t => [t]

private theorem scan_ofParts (parts : List (List Char)) {c : Char} (hc : isBareChar c = false)
    (ls : List Lexeme) :
    scan [] (Lexeme.ofParts parts ++ .plain c :: ls) =
      (scan [] (.plain c :: ls)).map (rawParts parts ++ ·) := by
  fun_induction Lexeme.ofParts parts with
  | case1 => simp [rawParts]
  | case2 part => exact scan_ofSegment part hc ls
  | case3 part rest hne ih =>
    have hraw : rawParts (part :: rest) = .name [part] :: .sign .colon :: rawParts rest := by
      rw [rawParts]
      exact hne
    have hcolon := scan_sign .colon (Lexeme.ofParts rest ++ .plain c :: ls)
    rw [Sign.char] at hcolon
    rw [List.append_assoc, List.cons_append, scan_ofSegment part rfl, hcolon, ih, hraw,
      Option.map_map, Option.map_map]
    rfl

/-- A token is found if a character follows that cannot belong to it. -/
private theorem scan_lexemes (t : Token) {c : Char} (hc : isBareChar c = false)
    (ls : List Lexeme) :
    scan [] (t.lexemes ++ .plain c :: ls) = (scan [] (.plain c :: ls)).map (t.raw ++ ·) := by
  cases t with
  | name parts => exact scan_ofParts parts hc ls
  | keyword k =>
    refine scan_bare ?_ ?_ ?_ hc ls <;> cases k <;> decide
  | sign s => exact scan_sign s _
  | connector kind =>
    refine scan_bare ?_ ?_ ?_ hc ls <;> cases kind <;> decide

/-- Names have parts, and their colons are no tokens. -/
def Whole : Token → Prop
  | name parts => parts ≠ []
  | sign s => s ≠ .colon
  | _ => True

private theorem foldr_attach_rawParts {parts : List (List Char)} (hp : parts ≠ [])
    {ts : List Token} (hts : ∀ t ∈ ts.head?, t.Whole) :
    (rawParts parts).foldr attach ts = .name parts :: ts := by
  fun_induction rawParts parts with
  | case1 => exact absurd rfl hp
  | case2 part =>
    rw [List.foldr_cons, List.foldr_nil]
    unfold attach
    split
    · next heq => exact absurd rfl (hts (.sign .colon) rfl)
    · rfl
  | case3 part rest hne ih =>
    rw [List.foldr_cons, List.foldr_cons, ih (by simpa using hne)]
    rfl

/-- **Names are put together again.** -/
theorem merge_raw {ts : List Token} (h : ∀ t ∈ ts, t.Whole) : merge (ts.flatMap raw) = ts := by
  induction ts with
  | nil => rfl
  | cons t ts ih =>
    have hts : ∀ t ∈ ts, t.Whole := fun t ht => h t (List.mem_cons_of_mem _ ht)
    rw [List.flatMap_cons, merge, List.foldr_append, ← merge, ih hts]
    -- what stands behind a name is no colon, so nothing but its own parts is put together with it
    cases t with
    | name parts =>
      exact foldr_attach_rawParts (h _ List.mem_cons_self) fun t ht =>
        hts t (List.mem_of_mem_head? ht)
    | _ => rfl

end Token

/-! ### Pieces -/

namespace Piece

/-- The tokens among pieces. -/
def tokens (ps : List Piece) : List Token := ps.filterMap token?

/-- A blank, or a sign that is not part of a name. -/
def Separates : Piece → Prop
  | space | newline => True
  | token (.sign s) => s ≠ .colon
  | token _ => False

/-- Every token is followed by something that cannot belong to it. -/
inductive Spaced : List Piece → Prop where
  | nil : Spaced []
  | separator {p : Piece} {ps : List Piece} (hp : p.Separates) (h : Spaced ps) : Spaced (p :: ps)
  | token {t : Token} {p : Piece} {ps : List Piece} (ht : t.Whole) (hp : p.Separates)
      (h : Spaced (p :: ps)) : Spaced (.token t :: p :: ps)

theorem Spaced.append {ps qs : List Piece} (hps : Spaced ps) (hqs : Spaced qs) :
    Spaced (ps ++ qs) := by
  induction hps with
  | nil => exact hqs
  | separator hp _ ih => exact .separator hp ih
  | token ht hp _ ih => exact .token ht hp ih

theorem Spaced.whole {ps : List Piece} (h : Spaced ps) : ∀ t ∈ tokens ps, t.Whole := by
  induction h with
  | nil => exact fun t ht => absurd ht List.not_mem_nil
  | @separator p ps hp _ ih =>
    intro t ht
    obtain ⟨q, hq, hqt⟩ := List.mem_filterMap.mp ht
    rcases List.mem_cons.mp hq with rfl | hq
    · match q, t, hqt with
      | .token (.sign s), _, rfl => exact hp
    · exact ih t (List.mem_filterMap.mpr ⟨q, hq, hqt⟩)
  | token ht hp _ ih =>
    intro u hu
    rcases List.mem_cons.mp hu with rfl | hu
    · exact ht
    · exact ih u hu

/-- **Tokens that are spaced are found.** -/
theorem scan_lexemes {ps : List Piece} (h : Spaced ps) (ls : List Lexeme) :
    Token.scan [] (ps.flatMap lexemes ++ ls) =
      (Token.scan [] ls).map ((tokens ps).flatMap Token.raw ++ ·) := by
  induction h with
  | nil => simp [tokens]
  | @separator p ps hp _ ih =>
    rw [List.flatMap_cons, List.append_assoc]
    match p with
    | space => exact (Token.scan_space _).trans ih
    | newline => exact (Token.scan_newline _).trans ih
    | token (.sign s) =>
      refine (Token.scan_sign s _).trans ((congrArg _ ih).trans ?_)
      rw [Option.map_map]
      rfl
  | @token t p ps _ hp _ ih =>
    -- what separates begins with a character that no token goes on with
    obtain ⟨c, hc, hpc⟩ : ∃ c, Token.isBareChar c = false ∧ p.lexemes = [.plain c] := by
      match p with
      | space => exact ⟨' ', rfl, rfl⟩
      | newline => exact ⟨'\n', rfl, rfl⟩
      | token (.sign s) => exact ⟨s.char, by cases s <;> rfl, rfl⟩
    rw [List.flatMap_cons, hpc] at ih
    rw [List.flatMap_cons, List.flatMap_cons, hpc, List.append_assoc]
    refine (Token.scan_lexemes t hc _).trans ?_
    refine (congrArg _ ih).trans ?_
    rw [Option.map_map]
    refine congrArg (fun f => Option.map f _) (funext fun ts => ?_)
    exact (List.append_assoc _ _ _).symm

/-- No quotation mark and no backslash stands for itself. -/
theorem legal (p : Piece) : ∀ l ∈ p.lexemes, l.Legal := by
  have hbare : ∀ {cs : List Char}, (∀ c ∈ cs, Token.isBareChar c = true) →
      ∀ l ∈ cs.map Lexeme.plain, l.Legal := by
    intro cs hcs l hl
    obtain ⟨c, hc, rfl⟩ := List.mem_map.mp hl
    refine ⟨?_, ?_⟩ <;> rintro rfl <;> exact absurd (hcs _ hc) (by decide)
  have hsegment : ∀ part, ∀ l ∈ Lexeme.ofSegment part, l.Legal := by
    intro part l hl
    rw [Lexeme.ofSegment] at hl
    split at hl
    · next h => exact hbare (fun c => Token.isBareChar_of_opens (Token.opens_of_isPlain h)) l hl
    · obtain rfl := List.mem_singleton.mp hl
      exact True.intro
  have hparts : ∀ parts, ∀ l ∈ Lexeme.ofParts parts, l.Legal := by
    intro parts
    fun_induction Lexeme.ofParts parts with
    | case1 => exact fun l hl => absurd hl List.not_mem_nil
    | case2 part => exact hsegment part
    | case3 part rest hne ih =>
      intro l hl
      rcases List.mem_append.mp hl with hl | hl
      · exact hsegment part l hl
      · rcases List.mem_cons.mp hl with rfl | hl
        · exact ⟨by decide, by decide⟩
        · exact ih l hl
  have hsingle : ∀ c, c ≠ Identifier.quoteMark → c ≠ '\\' → ∀ l ∈ [Lexeme.plain c], l.Legal := by
    intro c hmark hback l hl
    obtain rfl := List.mem_singleton.mp hl
    exact ⟨hmark, hback⟩
  cases p with
  | space => exact hsingle ' ' (by decide) (by decide)
  | newline => exact hsingle '\n' (by decide) (by decide)
  | token t =>
    cases t with
    | name parts => exact hparts parts
    | keyword k => exact hbare (List.all_eq_true.mp (by cases k <;> rfl))
    | connector kind => exact hbare (List.all_eq_true.mp (by cases kind <;> rfl))
    | sign s => exact hsingle s.char (by cases s <;> decide) (by cases s <;> decide)

theorem Spaced.sign {s : Sign} (hs : s ≠ .colon) {ps : List Piece} (h : Spaced ps) :
    Spaced (.ofSign s :: ps) :=
  .separator hs h

theorem Spaced.space {ps : List Piece} (h : Spaced ps) : Spaced (.space :: ps) :=
  .separator trivial h

theorem Spaced.newline {ps : List Piece} (h : Spaced ps) : Spaced (.newline :: ps) :=
  .separator trivial h

theorem Spaced.name_sign (name : String) {s : Sign} (hs : s ≠ .colon) {ps : List Piece}
    (h : Spaced ps) : Spaced (.ofName name :: .ofSign s :: ps) :=
  .token (Text.split_ne_nil _ _) hs (.sign hs h)

theorem Spaced.name_space (name : String) {ps : List Piece} (h : Spaced ps) :
    Spaced (.ofName name :: .space :: ps) :=
  .token (Text.split_ne_nil _ _) trivial (.space h)

theorem Spaced.keyword_space (k : Keyword) {ps : List Piece} (h : Spaced ps) :
    Spaced (.token (.keyword k) :: .space :: ps) :=
  .token trivial trivial (.space h)

theorem Spaced.connector_space (kind : Kind) {ps : List Piece} (h : Spaced ps) :
    Spaced (.token (.connector kind) :: .space :: ps) :=
  .token trivial trivial (.space h)

end Piece

/-! ### Scripts -/

open Piece (Spaced)

/-- The end of a statement. -/
private theorem spaced_semicolon : Spaced [.ofSign .semicolon, .newline] :=
  .sign (by decide) (.newline .nil)

namespace Attributes

private theorem spaced_pairPieces (a : String × String) {s : Sign} (hs : s ≠ .colon)
    {ps : List Piece} (h : Spaced ps) : Spaced (pairPieces a ++ .ofSign s :: ps) :=
  .name_sign a.1 (by decide) (.name_sign a.2 hs h)

private theorem spaced_pairsPieces (es : List (String × String)) {ps : List Piece}
    (h : Spaced ps) : Spaced (pairsPieces es ++ .ofSign .closeBracket :: ps) := by
  fun_induction pairsPieces es with
  | case1 => exact .sign (by decide) h
  | case2 a => exact spaced_pairPieces a (by decide) h
  | case3 a rest hne ih =>
    rw [List.append_assoc, List.append_assoc]
    exact spaced_pairPieces a (by decide) (.space ih)

private theorem spaced_pieces (attrs : Attributes) {ps : List Piece} (h : Spaced ps) :
    Spaced (attrs.pieces ++ ps) := by
  rw [pieces, List.append_assoc, List.append_assoc]
  exact .sign (by decide) (spaced_pairsPieces _ h)

end Attributes

namespace Statement

/-- What a line ends with when its subject ends with a name. -/
private theorem spaced_name_line (name : String) (attrs : Attributes) :
    Spaced (linePieces [.ofName name] attrs) := by
  rw [linePieces]
  split
  · exact .name_sign name (by decide) (.newline .nil)
  · exact .name_space name (Attributes.spaced_pieces attrs spaced_semicolon)

private theorem spaced_edge_line (e : Edge) (attrs : Attributes) :
    Spaced (linePieces (edgePieces e) attrs) :=
  .name_space e.tail (.connector_space e.kind (spaced_name_line e.head attrs))

/-- A block between braces. -/
private theorem spaced_block {ps : List Piece} (h : Spaced ps) :
    Spaced ([.ofSign .openBrace, .newline] ++ ps ++ [.ofSign .closeBrace, .newline]) := by
  rw [List.append_assoc]
  exact .sign (by decide) (.newline (h.append (.sign (by decide) (.newline .nil))))

mutual

theorem spaced_pieces (s : Statement) : Spaced s.pieces := by
  cases s with
  | subgraph name body =>
    exact .keyword_space .subgraph (.name_space name (spaced_block (spaced_piecesAll body)))
  | assignment key value =>
    exact Attributes.spaced_pairPieces (key, value) (by decide) (.newline .nil)
  | node name attrs => exact spaced_name_line name attrs
  | edge e attrs => exact spaced_edge_line e attrs

theorem spaced_piecesAll (ss : List Statement) : Spaced (piecesAll ss) := by
  cases ss with
  | nil => exact .nil
  | cons s ss =>
    rw [piecesAll]
    exact (spaced_pieces s).append (spaced_piecesAll ss)

end

end Statement

theorem Script.spaced_pieces (s : Script) : Spaced s.pieces :=
  .keyword_space .strict (.keyword_space s.kind.keywordToken (.name_space s.name
    (Statement.spaced_block (Statement.spaced_piecesAll s.body))))

/-- **A reader of the lexemes of a script finds its tokens.** -/
theorem Script.ofLexemes?_pieces (a : Arity) (s : Script) :
    Script.ofLexemes? a (s.pieces.flatMap Piece.lexemes) =
      Script.parse a (Piece.tokens s.pieces) := by
  have hscan := Piece.scan_lexemes s.spaced_pieces []
  rw [List.append_nil] at hscan
  rw [ofLexemes?, hscan, Token.scan, Token.emit, if_pos rfl, Option.map_some, Option.bind_some,
    List.append_nil, Token.merge_raw s.spaced_pieces.whole]

end GraphScript
