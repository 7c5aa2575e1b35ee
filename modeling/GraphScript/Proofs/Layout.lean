import GraphScript.Proofs.Reader

/-!
# The layout of scripts

A script in writing is a row of tokens with blanks between them. This module takes it apart: what
is written of a statement is what is written of its *pieces*, one after the other. So whatever is
shown of pieces in a row, such as how they are read, holds of scripts.

* `Statement.pieces` and `Script.pieces` are the pieces of a statement and of a script.
* `Script.toList_text`: a script in writing is its pieces in writing.
-/

namespace GraphScript

open Identifier (isPlain quote writeSegment)

/-! ### Pieces -/

/-- A lexeme as it is written. -/
def Lexeme.text : Lexeme → List Char
  | plain c => [c]
  | quoted cs => quote cs

/-- The lexemes for a segment of a name. -/
def Lexeme.ofSegment (cs : List Char) : List Lexeme :=
  if isPlain cs then cs.map plain else [quoted cs]

/-- The lexemes for the parts of a name. -/
def Lexeme.ofParts : List (List Char) → List Lexeme
  | [] => []
  | [part] => ofSegment part
  | part :: rest => ofSegment part ++ plain ':' :: ofParts rest

/-- The lexemes for a token. -/
def Token.lexemes : Token → List Lexeme
  | name parts => Lexeme.ofParts parts
  | keyword k => k.word.toList.map .plain
  | sign s => [.plain s.char]
  | connector kind => kind.connector.toList.map .plain

/-- The token for a name, which is cut at its colons. -/
def Token.ofName (name : String) : Token := .name (Identifier.segments name.toList)

/-- A token, or a blank between tokens. -/
inductive Piece where
  | space
  | newline
  | token (t : Token)

namespace Piece

/-- The lexemes for a piece. -/
def lexemes : Piece → List Lexeme
  | space => [.plain ' ']
  | newline => [.plain '\n']
  | token t => t.lexemes

/-- The token that a piece is. -/
def token? : Piece → Option Token
  | token t => some t
  | _ => none

/-- The piece for a name. -/
def ofName (name : String) : Piece := .token (.ofName name)

/-- The piece for a sign. -/
def ofSign (s : Sign) : Piece := .token (.sign s)

/-- Pieces in writing. -/
def chars (ps : List Piece) : List Char := (ps.flatMap lexemes).flatMap Lexeme.text

end Piece

/-! ### The pieces of a script -/

/-- The keyword that opens a document of this kind. -/
def Kind.keywordToken : Kind → Keyword
  | undirected => .graph
  | directed => .digraph

namespace Attributes

/-- The pieces for an attribute. -/
def pairPieces (a : String × String) : List Piece := [.ofName a.1, .ofSign .equals, .ofName a.2]

/-- The pieces for attributes with commas between them. -/
def pairsPieces : List (String × String) → List Piece
  | [] => []
  | [a] => pairPieces a
  | a :: rest => pairPieces a ++ [.ofSign .comma, .space] ++ pairsPieces rest

/-- The pieces for attributes in brackets. -/
def pieces (attrs : Attributes) : List Piece :=
  [.ofSign .openBracket] ++ pairsPieces attrs.entries ++ [.ofSign .closeBracket]

end Attributes

namespace Statement

/-- The pieces for what has attributes. -/
def linePieces (subject : List Piece) (attrs : Attributes) : List Piece :=
  subject ++ (if attrs.isEmpty then [] else .space :: attrs.pieces) ++
    [.ofSign .semicolon, .newline]

/-- The pieces for an edge without its attributes. -/
def edgePieces (e : Edge) : List Piece :=
  [.ofName e.tail, .space, .token (.connector e.kind), .space, .ofName e.head]

mutual

/-- The pieces of a statement. -/
def pieces : Statement → List Piece
  | subgraph name body =>
    [.token (.keyword .subgraph), .space, .ofName name, .space, .ofSign .openBrace, .newline] ++
      piecesAll body ++ [.ofSign .closeBrace, .newline]
  | assignment key value => Attributes.pairPieces (key, value) ++ [.ofSign .semicolon, .newline]
  | node name attrs => linePieces [.ofName name] attrs
  | edge e attrs => linePieces (edgePieces e) attrs

/-- The pieces of statements in a row. -/
def piecesAll : List Statement → List Piece
  | [] => []
  | s :: rest => pieces s ++ piecesAll rest

end

end Statement

/-- The pieces of a script. -/
def Script.pieces (s : Script) : List Piece :=
  [.token (.keyword .strict), .space, .token (.keyword s.kind.keywordToken), .space,
    .ofName s.name, .space, .ofSign .openBrace, .newline] ++
    Statement.piecesAll s.body ++ [.ofSign .closeBrace, .newline]

/-! ### Pieces in writing -/

namespace Piece

@[simp] theorem chars_append (ps qs : List Piece) :
    chars (ps ++ qs) = chars ps ++ chars qs := by
  simp [chars]

theorem chars_cons (p : Piece) (ps : List Piece) :
    chars (p :: ps) = p.lexemes.flatMap Lexeme.text ++ chars ps := by
  simp [chars]

@[simp] theorem chars_nil : chars [] = [] := rfl

end Piece

private theorem flatMap_text_plain (cs : List Char) :
    (cs.map Lexeme.plain).flatMap Lexeme.text = cs := by
  simp [List.flatMap_map, Lexeme.text]

private theorem flatMap_text_ofSegment (cs : List Char) :
    (Lexeme.ofSegment cs).flatMap Lexeme.text = writeSegment cs := by
  rw [Lexeme.ofSegment, writeSegment]
  split
  · exact flatMap_text_plain cs
  · exact List.append_nil _

private theorem flatMap_text_ofParts (parts : List (List Char)) :
    (Lexeme.ofParts parts).flatMap Lexeme.text = Text.join ':' (parts.map writeSegment) := by
  fun_induction Lexeme.ofParts parts with
  | case1 => rfl
  | case2 part => exact flatMap_text_ofSegment part
  | case3 part rest hne ih =>
    rw [List.flatMap_append, List.flatMap_cons, flatMap_text_ofSegment, ih, List.map_cons,
      Text.join_cons (by simpa using hne)]
    rfl

namespace Piece

@[simp] theorem chars_cons_space (ps : List Piece) : chars (.space :: ps) = ' ' :: chars ps :=
  rfl

@[simp] theorem chars_cons_newline (ps : List Piece) :
    chars (.newline :: ps) = '\n' :: chars ps := rfl

@[simp] theorem chars_cons_sign (s : Sign) (ps : List Piece) :
    chars (.ofSign s :: ps) = s.char :: chars ps := rfl

@[simp] theorem chars_cons_keyword (k : Keyword) (ps : List Piece) :
    chars (.token (.keyword k) :: ps) = k.word.toList ++ chars ps := by
  rw [chars_cons, lexemes, Token.lexemes, flatMap_text_plain]

@[simp] theorem chars_cons_connector (kind : Kind) (ps : List Piece) :
    chars (.token (.connector kind) :: ps) = kind.connector.toList ++ chars ps := by
  rw [chars_cons, lexemes, Token.lexemes, flatMap_text_plain]

@[simp] theorem chars_cons_name (name : String) (ps : List Piece) :
    chars (.ofName name :: ps) = (Identifier.write name).toList ++ chars ps := by
  rw [chars_cons, ofName, lexemes, Token.ofName, Token.lexemes, flatMap_text_ofParts,
    Identifier.toList_write, Identifier.writeChars]

end Piece

open Piece (chars)

theorem Attributes.toList_assignment (key value : String) :
    (Attributes.assignment key value).toList = chars (pairPieces (key, value)) := by
  simp [Attributes.assignment, pairPieces, Sign.char]

private theorem intercalate_assignments (es : List (String × String)) :
    [',', ' '].intercalate (es.map fun a => (Attributes.assignment a.1 a.2).toList) =
      chars (Attributes.pairsPieces es) := by
  fun_induction Attributes.pairsPieces es with
  | case1 => rfl
  | case2 a =>
    rw [List.map_singleton, List.intercalate_singleton, Attributes.toList_assignment]
  | case3 a rest hne ih =>
    rw [List.map_cons, List.intercalate_cons_of_ne_nil (by simpa using hne), ih]
    simp [Attributes.toList_assignment, Sign.char]

theorem Attributes.toList_script {attrs : Attributes} (h : attrs.isEmpty = false) :
    attrs.script.toList = chars attrs.pieces := by
  have hjoin := intercalate_assignments attrs.entries
  rw [Attributes.script, if_neg (by simp [h]), Attributes.pieces]
  simpa [Function.comp_def, Sign.char] using hjoin

namespace Statement

private theorem toList_line {subject : String} {ps : List Piece} (h : subject.toList = chars ps)
    (attrs : Attributes) : (line subject attrs).toList = chars (linePieces ps attrs) := by
  rw [line, linePieces]
  split
  · simp [h, Sign.char]
  · next hne => simp [h, Attributes.toList_script (Bool.not_eq_true _ ▸ hne), Sign.char]

mutual

/-- A statement in writing is its pieces in writing. -/
theorem toList_text (s : Statement) : s.text.toList = chars s.pieces := by
  cases s with
  | subgraph name body =>
    have ih := toList_textAll body
    simp [text, pieces, ih, Keyword.word, Sign.char]
  | assignment key value => simp [text, pieces, Attributes.toList_assignment, Sign.char]
  | node name attrs => exact toList_line (by simp) attrs
  | edge e attrs => exact toList_line (by simp [Edge.script, edgePieces]) attrs

/-- Statements in writing are their pieces in writing. -/
theorem toList_textAll (ss : List Statement) :
    (Statement.textAll ss).toList = chars (piecesAll ss) := by
  cases ss with
  | nil => rfl
  | cons s ss =>
    rw [Statement.textAll, piecesAll, String.toList_append, toList_text s, toList_textAll ss,
      Piece.chars_append]

end

end Statement

/-- **A script in writing is its pieces in writing.** -/
theorem Script.toList_text (s : Script) : s.text.toList = chars s.pieces := by
  have hstrict : Keyword.strict.word = "strict" := rfl
  have hkind : s.kind.keywordToken.word = s.kind.keyword := by cases s.kind <;> rfl
  simp [Script.text, Script.block, Script.pieces, Statement.toList_textAll, hstrict, hkind,
    Sign.char]

end GraphScript
