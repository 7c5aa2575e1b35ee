import GraphScript.Proofs.Renderings

/-!
# What is reported of an error stream

A program that fails may write anything to its error stream: text, bytes that are no text, or text
with such bytes in the middle of it. Whatever it writes is reported, and garbage does no harm to the
text around it.

* **Reading** (`Reader.foldl_feed_encoded`, `Reader.feed_eq_settled`): a character that is written
  in UTF-8 is read as this character, also right behind garbage. For its first byte goes on with no
  character that has begun, so whatever was wanting bytes is replaced and done with.
* **Line ends** (`unifyLineEnds_append`, `unifyLineEnds_fused`): texts one behind the other have the
  line ends of both, and where a carriage return meets a line feed, it is the line feed that stays.
* **Reports** (`Render.failure_reported`): a program that ends with a status other than zero is
  reported to have failed, with its whole error stream as a text.
-/

namespace GraphScript.Text.Utf8

/-! ### Bytes that go on with a character -/

/-- A character that has begun wants bytes that begin no character. -/
structure Begun.WantsContinuation (c : Begun) : Prop where
  low : 0x80 ≤ c.low
  high : c.high ≤ 0xBF

theorem Begun.wantsContinuation_of_ofByte? {b : Nat} {c : Begun} (h : Begun.ofByte? b = some c) :
    c.WantsContinuation := by
  unfold Begun.ofByte? at h
  split_ifs at h <;> cases h <;> constructor <;> dsimp only <;> omega

namespace Reader

/-- All that a reader still wants are bytes that begin no character. -/
def WantsContinuation (r : Reader) : Prop := ∀ c ∈ r.begun, c.WantsContinuation

theorem wantsContinuation_start (done : List Char) (b : Nat) :
    (start done b).WantsContinuation := by
  intro c hc
  rw [start] at hc
  split at hc
  · cases hc
  · split at hc
    · next hbegun =>
      obtain rfl := Option.some.inj hc
      exact Begun.wantsContinuation_of_ofByte? hbegun
    · cases hc

theorem wantsContinuation_feed (r : Reader) (byte : UInt8) :
    (r.feed byte).WantsContinuation := by
  rw [feed]
  split
  · exact wantsContinuation_start _ _
  · split
    · intro c hc
      dsimp only at hc
      split at hc
      · cases hc
      · obtain rfl := Option.some.inj hc
        constructor <;> dsimp only <;> omega
    · exact wantsContinuation_start _ _

theorem WantsContinuation.foldl {r : Reader} (h : r.WantsContinuation) (bytes : List UInt8) :
    (bytes.foldl feed r).WantsContinuation := by
  induction bytes generalizing r with
  | nil => exact h
  | cons byte bytes ih => exact ih (wantsContinuation_feed r byte)

/-- The reader that has done with the character at hand. -/
def settled (r : Reader) : Reader := ⟨r.finish.reverse, none⟩

/-- **A byte that goes on with no character begins another one**, whatever was begun before it. -/
theorem feed_eq_settled {r : Reader} (h : r.WantsContinuation) {byte : UInt8}
    (hbyte : byte.toNat < 0x80 ∨ 0xBF < byte.toNat) : r.feed byte = r.settled.feed byte := by
  obtain ⟨done, begun⟩ := r
  cases begun with
  | none => rw [settled, finish, List.reverse_reverse]
  | some c =>
    obtain ⟨hlow, hhigh⟩ := h c rfl
    have hout : ¬ (c.low ≤ byte.toNat ∧ byte.toNat ≤ c.high) := by omega
    rw [settled, finish, List.reverse_reverse, feed, feed]
    exact if_neg hout

/-- What was read before stays as it is. -/
theorem feed_append (r : Reader) (before : List Char) (byte : UInt8) :
    feed ⟨r.done ++ before, r.begun⟩ byte =
      ⟨(r.feed byte).done ++ before, (r.feed byte).begun⟩ := by
  have hstart : ∀ (done : List Char) (b : Nat), start (done ++ before) b =
      ⟨(start done b).done ++ before, (start done b).begun⟩ := fun done b => by
    rw [start, start]
    split
    · rfl
    · split <;> rfl
  obtain ⟨done, begun⟩ := r
  cases begun with
  | none => exact hstart done _
  | some c =>
    rw [feed, feed]
    dsimp only
    split
    · split <;> rfl
    · exact hstart (replacement :: done) _

theorem foldl_feed_append (r : Reader) (before : List Char) (bytes : List UInt8) :
    bytes.foldl feed ⟨r.done ++ before, r.begun⟩ =
      ⟨(bytes.foldl feed r).done ++ before, (bytes.foldl feed r).begun⟩ := by
  induction bytes generalizing r with
  | nil => rfl
  | cons byte bytes ih => rw [List.foldl_cons, List.foldl_cons, feed_append, ih]

theorem finish_append (r : Reader) (before : List Char) :
    finish ⟨r.done ++ before, r.begun⟩ = before.reverse ++ r.finish := by
  obtain ⟨done, begun⟩ := r
  cases begun <;> simp [finish]

end Reader

/-! ### Characters in UTF-8 -/

theorem Begun.ofByte?_two {v : Nat} (h : 0x80 ≤ v) (h' : v ≤ 0x7FF) :
    Begun.ofByte? (v / 64 % 32 + 192) = some ⟨1, 0x80, 0xBF, v / 64⟩ := by
  have hbits : v / 64 % 32 + 192 - 0xC0 = v / 64 := by omega
  rw [ofByte?, if_neg (by omega), if_pos (by omega), hbits]

/-- The first of three bytes rules out surrogates and what can be written with fewer bytes. -/
theorem Begun.ofByte?_three {v : Nat} (h : 0x800 ≤ v) (h' : v ≤ 0xFFFF)
    (hv : v < 0xD800 ∨ 0xDFFF < v) :
    ∃ low high, Begun.ofByte? (v / 4096 % 16 + 224) = some ⟨2, low, high, v / 4096⟩ ∧
      low ≤ v / 64 % 64 + 128 ∧ v / 64 % 64 + 128 ≤ high := by
  rw [ofByte?, if_neg (by omega), if_neg (by omega)]
  split_ifs with hfirst hsurrogate hmost
  · have hbits : v / 4096 = 0 := by omega
    exact ⟨0xA0, 0xBF, by rw [hbits], by omega, by omega⟩
  · have hbits : v / 4096 = 0xD := by omega
    exact ⟨0x80, 0x9F, by rw [hbits], by omega, by omega⟩
  · have hbits : v / 4096 % 16 + 224 - 0xE0 = v / 4096 := by omega
    exact ⟨0x80, 0xBF, by rw [hbits], by omega, by omega⟩
  all_goals omega

/-- The first of four bytes rules out what is beyond the last code point and what can be written
with fewer bytes. -/
theorem Begun.ofByte?_four {v : Nat} (h : 0x10000 ≤ v) (h' : v < 0x110000) :
    ∃ low high, Begun.ofByte? (v / 262144 % 8 + 240) = some ⟨3, low, high, v / 262144⟩ ∧
      low ≤ v / 4096 % 64 + 128 ∧ v / 4096 % 64 + 128 ≤ high := by
  rw [ofByte?, if_neg (by omega), if_neg (by omega), if_neg (by omega), if_neg (by omega),
    if_neg (by omega)]
  split_ifs with hfirst hmost hlast
  · have hbits : v / 262144 = 0 := by omega
    exact ⟨0x90, 0xBF, by rw [hbits], by omega, by omega⟩
  · have hbits : v / 262144 % 8 + 240 - 0xF0 = v / 262144 := by omega
    exact ⟨0x80, 0xBF, by rw [hbits], by omega, by omega⟩
  · have hbits : v / 262144 = 4 := by omega
    exact ⟨0x80, 0x8F, by rw [hbits], by omega, by omega⟩
  · omega

namespace Reader

variable (done : List Char) {owed low high bits n : Nat}

theorem feed_opening {c : Begun} (hn : 0x80 ≤ n) (hn' : n < 256)
    (hc : Begun.ofByte? n = some c) : feed ⟨done, none⟩ (.ofNat n) = ⟨done, some c⟩ := by
  have hbyte : (UInt8.ofNat n).toNat = n := UInt8.toNat_ofNat_of_lt' hn'
  rw [feed, hbyte]
  dsimp only
  rw [start, if_neg (Nat.not_lt.mpr hn), hc]

theorem feed_continuing (hlow : low ≤ n % 64 + 128) (hhigh : n % 64 + 128 ≤ high) :
    feed ⟨done, some ⟨owed, low, high, bits⟩⟩ (.ofNat (n % 64 + 128)) =
      if owed = 1 then ⟨.ofNat (bits * 64 + n % 64) :: done, none⟩
      else ⟨done, some ⟨owed - 1, 0x80, 0xBF, bits * 64 + n % 64⟩⟩ := by
  have hbyte : (UInt8.ofNat (n % 64 + 128)).toNat = n % 64 + 128 :=
    UInt8.toNat_ofNat_of_lt' (show _ < 256 by omega)
  rw [feed, hbyte]
  dsimp only
  rw [if_pos ⟨hlow, hhigh⟩, Nat.add_sub_cancel]

/-- **A character in UTF-8 is read as this character.** -/
theorem foldl_feed_encodeChar (c : Char) :
    (String.utf8EncodeChar c).foldl feed ⟨done, none⟩ = ⟨c :: done, none⟩ := by
  have hv : c.val.toNat < 0xD800 ∨ (0xDFFF < c.val.toNat ∧ c.val.toNat < 0x110000) := c.valid
  have hc : Char.ofNat c.val.toNat = c := Char.ofNat_toNat c
  rw [String.utf8EncodeChar]
  generalize c.val.toNat = v at hv hc
  split_ifs with hone htwo hthree
  · have hbyte : (UInt8.ofNat v).toNat = v := UInt8.toNat_ofNat_of_lt' (show _ < 256 by omega)
    rw [List.foldl_cons, feed, hbyte]
    dsimp only
    rw [start, if_pos (by omega), hc, List.foldl_nil]
  · have hbits : v / 64 * 64 + v % 64 = v := by omega
    rw [List.foldl_cons, feed_opening done (by omega) (by omega)
      (Begun.ofByte?_two (by omega) htwo)]
    rw [List.foldl_cons, feed_continuing done (by omega) (by omega), if_pos rfl, hbits, hc,
      List.foldl_nil]
  · have hbits : (v / 4096 * 64 + v / 64 % 64) * 64 + v % 64 = v := by omega
    obtain ⟨low, high, hbegun, hlow, hhigh⟩ :=
      Begun.ofByte?_three (v := v) (by omega) hthree (by omega)
    rw [List.foldl_cons, feed_opening done (by omega) (by omega) hbegun]
    rw [List.foldl_cons, feed_continuing done hlow hhigh, if_neg (by decide)]
    rw [List.foldl_cons, feed_continuing done (by omega) (by omega), if_pos rfl, hbits, hc,
      List.foldl_nil]
  · have hbits : ((v / 262144 * 64 + v / 4096 % 64) * 64 + v / 64 % 64) * 64 + v % 64 = v := by
      omega
    obtain ⟨low, high, hbegun, hlow, hhigh⟩ :=
      Begun.ofByte?_four (v := v) (by omega) (by omega)
    rw [List.foldl_cons, feed_opening done (by omega) (by omega) hbegun]
    rw [List.foldl_cons, feed_continuing done hlow hhigh, if_neg (by decide)]
    rw [List.foldl_cons, feed_continuing done (by omega) (by omega), if_neg (by decide)]
    rw [List.foldl_cons, feed_continuing done (by omega) (by omega), if_pos rfl, hbits, hc,
      List.foldl_nil]

/-- Text in UTF-8 is read as this text. -/
theorem foldl_feed_encoded (cs : List Char) :
    (cs.flatMap String.utf8EncodeChar).foldl feed ⟨done, none⟩ = ⟨cs.reverse ++ done, none⟩ := by
  induction cs generalizing done with
  | nil => rfl
  | cons c cs ih =>
    rw [List.flatMap_cons, List.foldl_append, foldl_feed_encodeChar, ih, List.reverse_cons,
      List.append_assoc, List.singleton_append]

/-- The first byte of a character goes on with no other character. -/
theorem exists_encodeChar_eq (c : Char) : ∃ byte bytes, String.utf8EncodeChar c = byte :: bytes ∧
    (byte.toNat < 0x80 ∨ 0xBF < byte.toNat) := by
  have hlead : ∀ n < 256, n < 0x80 ∨ 0xBF < n →
      (UInt8.ofNat n).toNat < 0x80 ∨ 0xBF < (UInt8.ofNat n).toNat := fun n hn h => by
    rwa [UInt8.toNat_ofNat_of_lt' hn]
  rw [String.utf8EncodeChar]
  split_ifs with hone htwo hthree
  · exact ⟨_, _, rfl, hlead _ (by omega) (by omega)⟩
  · exact ⟨_, _, rfl, hlead _ (by omega) (by omega)⟩
  · exact ⟨_, _, rfl, hlead _ (by omega) (by omega)⟩
  · exact ⟨_, _, rfl, hlead _ (by omega) (by omega)⟩

/-- **Text behind garbage is read as this text**, and what was left over of the garbage is done
with. -/
theorem foldl_feed_encoded_settled {r : Reader} (h : r.WantsContinuation) {cs : List Char}
    (hcs : cs ≠ []) : (cs.flatMap String.utf8EncodeChar).foldl feed r =
      ⟨cs.reverse ++ r.finish.reverse, none⟩ := by
  obtain ⟨c, rest, rfl⟩ := List.exists_cons_of_ne_nil hcs
  rw [← foldl_feed_encoded]
  obtain ⟨byte, bytes, hbytes, hlead⟩ := exists_encodeChar_eq c
  rw [List.flatMap_cons, hbytes, List.cons_append, List.foldl_cons, List.foldl_cons,
    feed_eq_settled h hlead, settled]

end Reader

/-- **Garbage in the middle of a text does no harm to the text around it.** -/
theorem decode_append (cs ds : List Char) (bytes : List UInt8) :
    decode (cs.flatMap String.utf8EncodeChar ++ bytes ++ ds.flatMap String.utf8EncodeChar) =
      cs ++ decode bytes ++ ds := by
  have hfront : (cs.flatMap String.utf8EncodeChar ++ bytes).foldl Reader.feed {} =
      ⟨(bytes.foldl Reader.feed {}).done ++ cs.reverse, (bytes.foldl Reader.feed {}).begun⟩ := by
    rw [List.foldl_append, Reader.foldl_feed_encoded, List.append_nil, ← Reader.foldl_feed_append]
    rfl
  have hfinish : ((cs.flatMap String.utf8EncodeChar ++ bytes).foldl Reader.feed {}).finish =
      cs ++ decode bytes := by
    rw [hfront, Reader.finish_append, List.reverse_reverse]
    rfl
  rw [decode, List.foldl_append]
  by_cases hds : ds = []
  · subst hds
    rw [List.append_nil]
    exact hfinish
  · have hwants : Reader.WantsContinuation {} := fun c hc => by cases hc
    rw [Reader.foldl_feed_encoded_settled (hwants.foldl _) hds, hfinish]
    simp [Reader.finish]

/-- The bytes of a text. -/
theorem data_toUTF8 (s : String) :
    s.toUTF8.data.toList = s.toList.flatMap String.utf8EncodeChar := by
  rw [String.toUTF8_eq_toByteArray, ← String.utf8Encode_toList, List.utf8Encode,
    List.data_toByteArray]

end GraphScript.Text.Utf8

namespace GraphScript.Text

/-! ### Line ends of texts one behind the other -/

/-- What becomes of a text behind a character. -/
def unifyAfter (before : Char) (cs : List Char) : List Char :=
  (List.zipWith unifyBehind (before :: cs) cs).flatten

variable {before : Char} {cs ds : List Char}

theorem unifyAfter_append (before : Char) (cs ds : List Char) :
    unifyAfter before (cs ++ ds) =
      unifyAfter before cs ++ unifyAfter (cs.getLast?.getD before) ds := by
  induction cs generalizing before with
  | nil => rfl
  | cons c cs ih =>
    have hcons : ∀ es, unifyAfter before (c :: es) = unifyBehind before c ++ unifyAfter c es :=
      fun es => rfl
    rw [List.cons_append, hcons, hcons, ih, List.append_assoc, List.getLast?_cons, Option.getD_some]

/-- What stands in front of a text matters only if a line end may go on in it. -/
theorem unifyAfter_eq (h : ¬ (before = '\r' ∧ cs.head? = some '\n')) :
    unifyAfter before cs = unifyLineEnds cs := by
  cases cs with
  | nil => rfl
  | cons c cs =>
    have hbehind : unifyBehind before c = unifyBehind '\n' c := by
      rw [unifyBehind, unifyBehind]
      by_cases hc : c = '\n'
      · have hbefore : before ≠ '\r' := fun hbefore => h ⟨hbefore, congrArg some hc⟩
        simp [hbefore]
      · simp [hc]
    exact congrArg (· ++ unifyAfter c cs) hbehind

/-- **Texts one behind the other have the line ends of both**, unless a line end goes on from the
one to the other. -/
theorem unifyLineEnds_append (h : ¬ (cs.getLast? = some '\r' ∧ ds.head? = some '\n')) :
    unifyLineEnds (cs ++ ds) = unifyLineEnds cs ++ unifyLineEnds ds := by
  have hbefore : ¬ (cs.getLast?.getD '\n' = '\r' ∧ ds.head? = some '\n') := by
    cases hlast : cs.getLast? with
    | none => simp
    | some c =>
      rw [hlast] at h
      simpa using h
  rw [← unifyAfter_eq hbefore]
  exact unifyAfter_append '\n' cs ds

/-- Where a line end goes on from one text to the other, it is the line feed that stays. -/
theorem unifyLineEnds_fused (cs ds : List Char) :
    unifyLineEnds (cs ++ '\r' :: '\n' :: ds) = unifyLineEnds cs ++ '\n' :: unifyLineEnds ds := by
  rw [unifyLineEnds_append (by simp)]
  rfl

/-- Without carriage returns there is nothing to do. -/
theorem unifyLineEnds_eq_self (h : '\r' ∉ cs) : unifyLineEnds cs = cs := by
  induction cs with
  | nil => rfl
  | cons c cs ih =>
    obtain ⟨hc, hcs⟩ := not_or.mp (mt List.mem_cons.mpr h)
    have hlast : ¬ ([c].getLast? = some '\r' ∧ cs.head? = some '\n') := by
      rw [List.getLast?_singleton, Option.some.injEq]
      exact fun hboth => hc hboth.1.symm
    have hone : unifyLineEnds [c] = [c] := by
      simp [unifyLineEnds, unifyBehind, Ne.symm hc]
    rw [← List.singleton_append, unifyLineEnds_append hlast, hone, ih hcs]

/-- **Texts around garbage keep their line ends.** If the garbage ends in a carriage return and a
line feed stands behind it, the two are one line end, and it is the line feed that stays. -/
theorem exists_unifyLineEnds_append {es : List Char} (hcs : '\r' ∉ cs) (hes : '\r' ∉ es)
    (ds : List Char) :
    ∃ middle, unifyLineEnds (cs ++ ds ++ es) = cs ++ middle ++ es ∧ (ds = [] → middle = []) := by
  have hfront : ∀ rest, unifyLineEnds (cs ++ rest) = cs ++ unifyLineEnds rest := fun rest => by
    rw [unifyLineEnds_append fun hboth => hcs (List.mem_of_getLast? hboth.1),
      unifyLineEnds_eq_self hcs]
  rw [List.append_assoc, hfront]
  by_cases hfused : ds.getLast? = some '\r' ∧ es.head? = some '\n'
  · obtain ⟨hlast, hhead⟩ := hfused
    obtain ⟨front, rfl⟩ := List.getLast?_eq_some_iff.mp hlast
    obtain ⟨rest, rfl⟩ := List.head?_eq_some_iff.mp hhead
    have hrest : '\r' ∉ rest := fun hmem => hes (List.mem_cons_of_mem _ hmem)
    refine ⟨unifyLineEnds front, ?_, fun hnil => absurd hnil (by simp)⟩
    rw [List.append_assoc, List.singleton_append, unifyLineEnds_fused, unifyLineEnds_eq_self hrest,
      List.append_assoc]
  · refine ⟨unifyLineEnds ds, ?_, fun hnil => by rw [hnil]; rfl⟩
    rw [unifyLineEnds_append hfused, unifyLineEnds_eq_self hes, List.append_assoc]

end GraphScript.Text

namespace GraphScript.Render

/-! ### Reports of failures -/

/-- **A program that fails is reported to have failed**, whatever it has written to its error
stream. What is reported of the stream is a text with unified line ends, and text in the stream is
found in it as it was written, whatever bytes stand in front of it or behind it. -/
theorem failure_reported (r : Request) (env : Environment) (script : String) {name : String}
    {p : Program} (hlaunch : r.launch env = .ok (name, p)) (hstatus : p.status ≠ 0) :
    ∃ text : String,
      (r.render env script).outcome = .error (.failed p.status text r.command) ∧
      (Error.failed p.status text r.command).message =
        "[errcode " ++ toString p.status ++ "] " ++ text ∧
      '\r' ∉ text.toList ∧
      ∀ (u v : String) (w : List UInt8), '\r' ∉ u.toList → '\r' ∉ v.toList →
        p.stderr = u.toUTF8.data.toList ++ w ++ v.toUTF8.data.toList →
        ∃ m, text = u ++ m ++ v ∧ (w = [] → m = "") := by
  refine ⟨readStderr p.stderr, ?_, rfl, ?_, ?_⟩
  · rw [Request.render, hlaunch]
    dsimp only
    rw [Request.conclude, if_neg hstatus]
  · rw [readStderr, String.toList_ofList]
    exact Text.not_mem_unifyLineEnds _
  · intro u v w hu hv hstderr
    obtain ⟨middle, heq, hnil⟩ := Text.exists_unifyLineEnds_append hu hv (Text.Utf8.decode w)
    refine ⟨String.ofList middle, ?_, ?_⟩
    · rw [readStderr, hstderr, Text.Utf8.data_toUTF8, Text.Utf8.data_toUTF8,
        Text.Utf8.decode_append, heq]
      simp [String.append_assoc]
    · rintro rfl
      rw [hnil rfl]

/-- Garbage ends in a carriage return, and the text behind it begins with a line feed. -/
theorem failure_reported_carriage_return :
    let p : Program := { exit := 258, stderr := [0xC3, 0xA9, 0xE2, 0x82, 0x0D, 0x0A, 0x21] }
    let r : Request := { path := "x.png" }
    let command := ["dot", "-Kdot", "-ox.png", "-Tpng", "-q"]
    ∃ m, (r.render ⟨[("dot", .program p)]⟩ "graph").outcome =
        .error (.failed 2 ("é" ++ m ++ "\n!") command) ∧
      (Error.failed 2 ("é" ++ m ++ "\n!") command).message = "[errcode 2] é" ++ m ++ "\n!" := by
  intro p r command
  have hcommand : r.command = command := by decide
  have hnull : ¬ HasNull r.command := by
    rw [hcommand]
    decide
  have hlaunch : r.launch ⟨[("dot", .program p)]⟩ = .ok ("dot", p) := by
    have hfound : Environment.launch ⟨[("dot", .program p)]⟩ "dot" = .ok ("dot", p) := by rfl
    have hchosen : r.chosenExecutable = "dot" := by decide
    rw [r.launch_of_not_hasNull _ hnull, hchosen, hfound]
    rfl
  obtain ⟨text, houtcome, hmessage, -, hgarbage⟩ :=
    failure_reported r ⟨[("dot", .program p)]⟩ "graph" hlaunch (by decide)
  obtain ⟨m, rfl, -⟩ := hgarbage "é" "\n!" [0xE2, 0x82, 0x0D] (by decide) (by decide) (by rfl)
  rw [hcommand] at houtcome hmessage
  exact ⟨m, houtcome, hmessage⟩

end GraphScript.Render
