import GraphScript.Proofs.Renderings

/-!
# Where drawings go

The path that a caller gives says where a drawing goes and in what format it is, and both may be
said incompletely. This module says what is made of it, whatever the path.

* **Suffixes** (`Render.HasSuffix`): a name has a suffix if something stands in front of its last
  dot and something behind it. `hasSuffix_iff` says that this is what is looked for.
* **Paths in writing** (`Path.Normal.ofString_text`): a path that says nothing twice is read back
  from its text, so an output can be asked for again by its text.
* **Completion** (`Output.ofPath_cases`): a name with a suffix stays as it is, and any other gets
  one.
* **Laws** (`Output.Completes`): all of this for a path as callers write it, and that an output is
  completed once and for all unless the path had no name.
-/

namespace GraphScript.Render

/-! ### Suffixes -/

/-- A name in which a suffix stands behind the last dot. The dot is neither the first nor the last
character. -/
def HasSuffix (name extension : List Char) : Prop :=
  ∃ stem, name = stem ++ '.' :: extension ∧ stem ≠ [] ∧ extension ≠ [] ∧ '.' ∉ extension

theorem not_mem_of_lastDot? {cs : List Char} (h : lastDot? cs = none) : '.' ∉ cs := by
  induction cs with
  | nil => exact List.not_mem_nil
  | cons c cs ih =>
    rw [lastDot?] at h
    cases hcs : lastDot? cs with
    | none =>
      rw [hcs] at h
      by_cases hc : c = '.'
      · rw [if_pos hc] at h
        cases h
      · rw [List.mem_cons, not_or]
        exact ⟨Ne.symm hc, ih hcs⟩
    | some found =>
      rw [hcs] at h
      cases h

theorem lastDot?_of_not_mem {cs : List Char} (h : '.' ∉ cs) : lastDot? cs = none := by
  induction cs with
  | nil => rfl
  | cons c cs ih =>
    obtain ⟨hc, hcs⟩ := not_or.mp (mt List.mem_cons.mpr h)
    rw [lastDot?, ih hcs, if_neg (Ne.symm hc)]

theorem eq_append_of_lastDot? {cs before behind : List Char}
    (h : lastDot? cs = some (before, behind)) : cs = before ++ '.' :: behind ∧ '.' ∉ behind := by
  induction cs generalizing before with
  | nil => cases h
  | cons c cs ih =>
    rw [lastDot?] at h
    cases hcs : lastDot? cs with
    | none =>
      rw [hcs] at h
      by_cases hc : c = '.'
      · rw [if_pos hc, Option.some.injEq, Prod.mk.injEq] at h
        obtain ⟨rfl, rfl⟩ := h
        exact ⟨by rw [hc, List.nil_append], not_mem_of_lastDot? hcs⟩
      · rw [if_neg hc] at h
        cases h
    | some found =>
      obtain ⟨front, rest⟩ := found
      rw [hcs, Option.some.injEq, Prod.mk.injEq] at h
      obtain ⟨rfl, rfl⟩ := h
      obtain ⟨heq, hdot⟩ := ih hcs
      exact ⟨by rw [heq, List.cons_append], hdot⟩

/-- There is one last dot. -/
theorem lastDot?_append {behind : List Char} (h : '.' ∉ behind) (before : List Char) :
    lastDot? (before ++ '.' :: behind) = some (before, behind) := by
  induction before with
  | nil => rw [List.nil_append, lastDot?, lastDot?_of_not_mem h, if_pos rfl]
  | cons c before ih => rw [List.cons_append, lastDot?, ih]

/-- **The suffix of a name** is the last dot and what stands behind it, if the name has one. -/
theorem hasSuffix_iff {name extension : List Char} :
    HasSuffix name extension ↔ suffix name = '.' :: extension := by
  constructor
  · rintro ⟨stem, rfl, hstem, hextension, hdot⟩
    obtain ⟨c, stem, rfl⟩ := List.exists_cons_of_ne_nil hstem
    obtain ⟨d, extension, rfl⟩ := List.exists_cons_of_ne_nil hextension
    rw [suffix, lastDot?_append hdot]
  · intro h
    unfold suffix at h
    split at h
    · next c stem d rest hlast =>
      obtain ⟨hname, hdot⟩ := eq_append_of_lastDot? hlast
      obtain rfl := (List.cons.inj h).2
      exact ⟨c :: stem, hname, List.cons_ne_nil _ _, List.cons_ne_nil _ _, hdot⟩
    · cases h

/-- A name without a suffix is one for which none is found. -/
theorem suffix_eq_nil {name : List Char} (h : ∀ extension, ¬ HasSuffix name extension) :
    suffix name = [] := by
  cases hsuffix : suffix name with
  | nil => rfl
  | cons c extension =>
    have hdot : c = '.' := by
      unfold suffix at hsuffix
      split at hsuffix
      · exact (List.cons.inj hsuffix).1.symm
      · cases hsuffix
    exact absurd (hasSuffix_iff.mpr (hdot ▸ hsuffix)) (h extension)

namespace HasSuffix

variable {name extension : List Char}

theorem ne_nil (h : HasSuffix name extension) : name ≠ [] := by
  obtain ⟨stem, rfl, hstem, -⟩ := h
  exact List.append_ne_nil_of_left_ne_nil hstem _

/-- A name that has a suffix does not end in a dot. -/
theorem getLast?_ne (h : HasSuffix name extension) : name.getLast? ≠ some '.' := by
  obtain ⟨stem, rfl, -, hextension, hdot⟩ := h
  rw [List.getLast?_append, List.getLast?_cons, List.getLast?_eq_some_getLast hextension,
    Option.getD_some, Option.some_or]
  exact fun hlast => hdot (Option.some.inj hlast ▸ List.getLast_mem hextension)

theorem fileName_eq (h : HasSuffix name extension) : fileName name = (name, '.' :: extension) := by
  rw [fileName, if_neg h.getLast?_ne, hasSuffix_iff.mp h]

end HasSuffix

/-! ### Paths in writing -/

namespace Path

/-- All parts of a path say something, and none has a slash in it. -/
def Normal (p : Path) : Prop := ∀ part ∈ p.parts, isPart part = true ∧ '/' ∉ part

theorem isPart_iff {part : List Char} : isPart part = true ↔ part ≠ [] ∧ part ≠ ['.'] := by
  simp [isPart]

/-- A path that is read says nothing twice. -/
theorem normal_ofString (s : String) : (ofString s).Normal := fun part hpart => by
  obtain ⟨hsplit, hpart⟩ := List.mem_filter.mp hpart
  exact ⟨hpart, Text.not_mem_of_mem_split hsplit⟩

variable {p : Path} {part : List Char}

theorem Normal.child (h : p.Normal) (hpart : isPart part = true) (hslash : '/' ∉ part) :
    (p.child part).Normal := fun q hq => by
  rcases List.mem_append.mp hq with hq | hq
  · exact h q hq
  · obtain rfl := List.mem_singleton.mp hq
    exact ⟨hpart, hslash⟩

theorem Normal.parent (h : p.Normal) : p.parent.Normal := fun q hq =>
  h q (List.dropLast_subset _ hq)

@[simp] theorem parent_child (p : Path) (part : List Char) : (p.child part).parent = p := by
  simp [parent, child]

@[simp] theorem name_child (p : Path) (part : List Char) : (p.child part).name = part := by
  simp [name, child]

/-- A path is its parent with its name behind it. -/
theorem child_parent_name (h : p.name ≠ []) : p.parent.child p.name = p := by
  obtain ⟨root, parts⟩ := p
  rcases List.eq_nil_or_concat parts with rfl | ⟨front, last, rfl⟩
  · exact absurd rfl h
  · simp [parent, child, name]

/-- A path has no name if it has no parts. -/
theorem Normal.parts_eq_nil (h : p.Normal) (hname : p.name = []) : p.parts = [] := by
  rcases List.eq_nil_or_concat p.parts with hparts | ⟨front, last, hparts⟩
  · exact hparts
  · have hlast : last ∈ p.parts := by simp [hparts]
    rw [name, hparts, List.concat_eq_append, List.getLast?_concat, Option.getD_some] at hname
    exact absurd hname (isPart_iff.mp (h last hlast).1).1

/-- The name of a path, if it has one, is one of its parts. -/
theorem Normal.isPart_name (h : p.Normal) (hname : p.name ≠ []) :
    isPart p.name = true ∧ '/' ∉ p.name := by
  refine h p.name ?_
  have hparts : (p.parent.child p.name).parts = p.parts := congrArg parts (child_parent_name hname)
  rw [← hparts]
  exact List.mem_append_right _ (List.mem_singleton_self _)

/-- What is written of the parts of a path begins with something other than a slash. -/
theorem Normal.exists_join_eq (h : p.Normal) (hparts : p.parts ≠ []) :
    ∃ c cs, Text.join '/' p.parts = c :: cs ∧ c ≠ '/' := by
  obtain ⟨part, rest, hcons⟩ := List.exists_cons_of_ne_nil hparts
  obtain ⟨hpart, hslash⟩ := h part (hcons ▸ List.mem_cons_self)
  obtain ⟨c, cs, rfl⟩ := List.exists_cons_of_ne_nil (isPart_iff.mp hpart).1
  have hc : c ≠ '/' := fun hc => hslash (hc ▸ List.mem_cons_self)
  cases rest with
  | nil => exact ⟨c, cs, by rw [hcons]; rfl, hc⟩
  | cons q rest => exact ⟨c, _, by rw [hcons]; rfl, hc⟩

theorem ofText_append (root : Root) {c : Char} (hc : c ≠ '/') (cs : List Char) :
    Root.ofText (root.text ++ c :: cs) = root := by
  cases root <;> simp [Root.text, Root.ofText, hc]

/-- The slashes of a root make no parts. -/
theorem filter_split_append (root : Root) (cs : List Char) :
    (Text.split '/' (root.text ++ cs)).filter isPart = (Text.split '/' cs).filter isPart := by
  cases root <;> simp [Root.text, Text.split, isPart]

/-- The parts of a path are read back. -/
theorem Normal.filter_split_join (h : p.Normal) (hparts : p.parts ≠ []) :
    (Text.split '/' (Text.join '/' p.parts)).filter isPart = p.parts := by
  rw [Text.split_join hparts fun part hpart => (h part hpart).2]
  exact List.filter_eq_self.mpr fun part hpart => (h part hpart).1

/-- **A path is read back from its text.** -/
theorem Normal.ofString_text (h : p.Normal) : ofString p.text = p := by
  obtain ⟨root, parts⟩ := p
  rw [ofString, text, String.toList_ofList]
  by_cases hparts : parts = []
  · subst hparts
    cases root <;> rfl
  · obtain ⟨c, cs, hjoin, hc⟩ := h.exists_join_eq hparts
    have hchars : chars ⟨root, parts⟩ = root.text ++ Text.join '/' parts := by
      have hne : root.text ++ Text.join '/' parts ≠ [] := by
        rw [hjoin]
        exact List.append_ne_nil_of_right_ne_nil _ (List.cons_ne_nil _ _)
      obtain ⟨d, ds, hcons⟩ := List.exists_cons_of_ne_nil hne
      rw [chars, hcons]
    rw [hchars, ofChars, filter_split_append, h.filter_split_join hparts, hjoin,
      ofText_append root hc]

/-- A path without a name is a root, or says nothing. -/
theorem Normal.name_eq_nil_iff (h : p.Normal) :
    p.name = [] ↔ p.text = "." ∨ p.text = "/" ∨ p.text = "//" := by
  constructor
  · intro hname
    obtain ⟨root, parts⟩ := p
    obtain rfl : parts = [] := h.parts_eq_nil hname
    cases root with
    | relative => exact .inl rfl
    | slash => exact .inr (.inl rfl)
    | doubleSlash => exact .inr (.inr rfl)
  · intro htext
    rw [← h.ofString_text]
    rcases htext with htext | htext | htext <;> rw [htext] <;> rfl

end Path

/-! ### Outputs -/

theorem fileName_fst_subset (name : List Char) : (fileName name).1 ⊆ name := by
  rw [fileName]
  split
  · exact List.dropLast_subset name
  · exact List.Subset.refl name

/-- A part of a path is more than the dot that may stand at its end. -/
theorem fileName_fst_ne_nil {part : List Char} (h : Path.isPart part = true) :
    (fileName part).1 ≠ [] := by
  obtain ⟨hne, hdot⟩ := Path.isPart_iff.mp h
  rw [fileName]
  split
  · next hlast =>
    intro hfront
    have hpart := List.dropLast_append_getLast? '.' hlast
    rw [show part.dropLast = [] from hfront, List.nil_append] at hpart
    exact hdot hpart.symm
  · exact hne

namespace Output

variable {p : Path} {extension : List Char}

/-- A path whose name has a suffix is an output as it is. -/
theorem ofPath_of_hasSuffix (h : HasSuffix p.name extension) (format : Option String) :
    ofPath p format = ⟨p, (given format).getD (String.ofList extension)⟩ := by
  rw [ofPath, h.fileName_eq]
  simp only [Path.child_parent_name h.ne_nil]

/-- A name without a suffix gets the one of the default format, and loses a dot at its end. -/
theorem ofPath_of_not_hasSuffix (h : ∀ extension, ¬ HasSuffix p.name extension)
    (format : Option String) : ofPath p format =
      ⟨p.parent.child ((fileName p.name).1 ++ ".svg".toList), (given format).getD "svg"⟩ := by
  have hsuffix : (fileName p.name).2 = [] := by
    rw [fileName]
    split
    · rfl
    · exact suffix_eq_nil h
  simp only [ofPath, hsuffix]
  rfl

/-- The output is the path as it is, or the path with a completed name. -/
theorem ofPath_cases (p : Path) (format : Option String) :
    (∃ extension, HasSuffix p.name extension ∧
      ofPath p format = ⟨p, (given format).getD (String.ofList extension)⟩) ∨
    ofPath p format =
      ⟨p.parent.child ((fileName p.name).1 ++ ".svg".toList), (given format).getD "svg"⟩ := by
  by_cases hsuffix : ∃ extension, HasSuffix p.name extension
  · obtain ⟨extension, hsuffix⟩ := hsuffix
    exact .inl ⟨extension, hsuffix, ofPath_of_hasSuffix hsuffix format⟩
  · exact .inr (ofPath_of_not_hasSuffix (not_exists.mp hsuffix) format)

/-- A name that is completed has the suffix of the default format, if it was a name at all. -/
theorem hasSuffix_completed {name : List Char} (h : (fileName name).1 ≠ []) :
    HasSuffix ((fileName name).1 ++ ".svg".toList) "svg".toList :=
  ⟨_, rfl, h, by decide, by decide⟩

/-- The path of an output can be read back from its text. -/
theorem normal_ofPath (h : p.Normal) (format : Option String) : (ofPath p format).path.Normal := by
  rcases ofPath_cases p format with ⟨extension, hsuffix, hpath⟩ | hpath <;> rw [hpath]
  · exact h
  · refine h.parent.child ?_ fun hslash => ?_
    · rw [Path.isPart_iff]
      constructor <;> intro hname <;> simpa using congrArg List.length hname
    · rcases List.mem_append.mp hslash with hslash | hslash
      · have hmem := fileName_fst_subset p.name hslash
        exact (h.isPart_name (List.ne_nil_of_mem hmem)).2 hmem
      · exact absurd hslash (by decide)

/-- An output has a name, which does not end in a dot. -/
theorem name_ofPath (p : Path) (format : Option String) :
    (ofPath p format).path.name ≠ [] ∧ (ofPath p format).path.name.getLast? ≠ some '.' := by
  rcases ofPath_cases p format with ⟨extension, hsuffix, hpath⟩ | hpath <;> rw [hpath]
  · exact ⟨hsuffix.ne_nil, hsuffix.getLast?_ne⟩
  · rw [Path.name_child]
    refine ⟨List.append_ne_nil_of_right_ne_nil _ (by decide), ?_⟩
    have hlast : ".svg".toList.getLast? = some 'g' := by decide
    rw [List.getLast?_append, hlast, Option.some_or]
    decide

/-- **An output of a path with a name has a suffix**, which is the format unless another one is
given. -/
theorem exists_hasSuffix_ofPath (h : p.Normal) (hname : p.name ≠ []) (format : Option String) :
    ∃ extension, HasSuffix (ofPath p format).path.name extension ∧
      (ofPath p format).format = (given format).getD (String.ofList extension) := by
  rcases ofPath_cases p format with ⟨extension, hsuffix, hpath⟩ | hpath <;> rw [hpath]
  · exact ⟨extension, hsuffix, rfl⟩
  · rw [Path.name_child]
    exact ⟨_, hasSuffix_completed (fileName_fst_ne_nil (h.isPart_name hname).1), rfl⟩

/-- Where there is no name, the suffix becomes the name. -/
theorem ofPath_of_name_eq_nil (h : p.name = []) (format : Option String) :
    ofPath p format = ⟨p.parent.child ".svg".toList, (given format).getD "svg"⟩ := by
  rw [ofPath_of_not_hasSuffix (fun extension hsuffix => hsuffix.ne_nil h), h]
  rfl

theorem exists_format_ofPath (p : Path) (format : Option String) :
    ∃ default, (ofPath p format).format = (given format).getD default := by
  rcases ofPath_cases p format with ⟨extension, -, hpath⟩ | hpath
  · exact ⟨_, congrArg Output.format hpath⟩
  · exact ⟨_, congrArg Output.format hpath⟩

theorem path_ofPath_eq_iff (h : p.Normal) (format : Option String) :
    (ofPath p format).path = p ↔ ∃ extension, HasSuffix p.name extension := by
  constructor
  · intro heq
    have hname : p.name ≠ [] := heq ▸ (name_ofPath p format).1
    obtain ⟨extension, hsuffix, -⟩ := exists_hasSuffix_ofPath h hname format
    exact ⟨extension, heq ▸ hsuffix⟩
  · rintro ⟨extension, hsuffix⟩
    rw [ofPath_of_hasSuffix hsuffix]

/-- **An output is completed once and for all**, unless the path has no name. -/
theorem ofPath_ofPath_iff (h : p.Normal) (format : Option String) :
    ofPath (ofPath p format).path format = ofPath p format ↔ p.name ≠ [] := by
  constructor
  · intro hstable hname
    have hpath := (path_ofPath_eq_iff (normal_ofPath h format) format).mp (congrArg path hstable)
    rw [ofPath_of_name_eq_nil hname, Path.name_child] at hpath
    obtain ⟨extension, hsuffix⟩ := hpath
    rw [hasSuffix_iff] at hsuffix
    cases hsuffix
  · intro hname
    obtain ⟨extension, hsuffix, hformat⟩ := exists_hasSuffix_ofPath h hname format
    rw [ofPath_of_hasSuffix hsuffix, ← hformat]

/-- **How a path is completed to an output.** -/
structure Completes (p : Path) (format : Option String) (o : Output) : Prop where
  /-- The drawing goes where the path says. -/
  parent : o.path.parent = p.parent
  /-- It has a name, which does not end in a dot. -/
  name : o.path.name ≠ [] ∧ o.path.name.getLast? ≠ some '.'
  /-- A format that is given is kept. -/
  given (f : String) (hf : format = some f) (hne : f ≠ "") : o.format = f
  /-- Otherwise the format is the suffix of the output, or the default one if the path has no
  name. -/
  taken (hf : format.getD "" = "") :
    if p.name = [] then o.format = "svg" else HasSuffix o.path.name o.format.toList
  /-- A path that has a suffix, and no other, is the output as it is. -/
  kept : o.path = p ↔ ∃ extension, HasSuffix p.name extension
  /-- An output is completed once and for all, unless the path has no name. -/
  stable : ofPath (.ofString o.path.text) format = o ↔ p.name ≠ []
  /-- A path without a name is a root or nothing at all. -/
  nameless : p.name = [] ↔ p.text = "." ∨ p.text = "/" ∨ p.text = "//"

/-- **Every path is completed to an output**, whatever its slashes and dots, and whether or not a
format is given. -/
theorem completes_ofPath (text : String) (format : Option String) :
    (ofPath (.ofString text) format).Completes (.ofString text) format := by
  have h := Path.normal_ofString text
  generalize Path.ofString text = p at h
  constructor
  case parent =>
    rcases ofPath_cases p format with ⟨extension, -, hpath⟩ | hpath <;> rw [hpath]
    exact Path.parent_child _ _
  case name => exact name_ofPath p format
  case given =>
    intro f hf hne
    obtain ⟨default, hformat⟩ := exists_format_ofPath p format
    rw [hformat, getD_given, hf, Option.getD_some, if_neg hne]
  case taken =>
    intro hf
    split
    · next hname => rw [ofPath_of_name_eq_nil hname, getD_given, if_pos hf]
    · next hname =>
      obtain ⟨extension, hsuffix, hformat⟩ := exists_hasSuffix_ofPath h hname format
      rwa [hformat, getD_given, if_pos hf, String.toList_ofList]
  case kept => exact path_ofPath_eq_iff h format
  case stable =>
    rw [(normal_ofPath h format).ofString_text]
    exact ofPath_ofPath_iff h format
  case nameless => exact h.name_eq_nil_iff

/-- Two dots are a name that ends in a dot. -/
example : ofPath (.ofString "//a/./..") (some "") = ⟨.ofString "//a/..svg", "svg"⟩ := by rfl

end Output

end GraphScript.Render
