import GraphScript.Text.Split

/-!
# Identifiers of a script

The script language has three ways to write an identifier: bare words, numerals, and quoted
texts. A name is cut at its colons, which separate a node from its port, and each segment is
written on its own: as it is if it reads as a word or a numeral, and quoted otherwise.

Inside quotation marks only the mark itself is escaped, by a backslash. Backslashes are left
alone, since the script language gives them meanings of its own that an author may want.
-/

namespace GraphScript.Identifier

/-- The mark around quoted texts, `"`. -/
def quoteMark : Char := '\x22'

/-- The words that the script language keeps for itself, in lower case. -/
def keywords : List String := ["strict", "graph", "digraph", "subgraph", "node", "edge"]

/-- A keyword stays one in whatever case it is written. Words have ASCII letters only, so ASCII
case is all that matters. -/
def isKeyword (cs : List Char) : Bool := keywords.contains (String.ofList (cs.map Char.toLower))

/-- ASCII letters and the underscore. -/
def isWordStart (c : Char) : Bool := c.isAlpha || c == '_'

/-- ASCII letters, digits and the underscore. -/
def isWordChar (c : Char) : Bool := isWordStart c || c.isDigit

/-- Letters, digits and underscores that do not begin with a digit. -/
def isWord : List Char → Bool
  | [] => false
  | c :: cs => isWordStart c && cs.all isWordChar

/-- Digits with at most one point, before, behind or between them. -/
def isMagnitude (cs : List Char) : Bool :=
  let whole := cs.takeWhile Char.isDigit
  match cs.dropWhile Char.isDigit with
  | [] => !whole.isEmpty
  | c :: fraction => c == '.' && fraction.all Char.isDigit && !(whole.isEmpty && fraction.isEmpty)

/-- A magnitude, with or without a minus sign. -/
def isNumeral : List Char → Bool
  | '-' :: cs => isMagnitude cs
  | cs => isMagnitude cs

/-- Whether a segment can be written without quotation marks. -/
def isPlain (cs : List Char) : Bool := !isKeyword cs && (isWord cs || isNumeral cs)

/-- A character between quotation marks. -/
def escapeChar (c : Char) : List Char := if c = quoteMark then ['\\', quoteMark] else [c]

/-- A segment between quotation marks. -/
def quote (cs : List Char) : List Char := quoteMark :: cs.flatMap escapeChar ++ [quoteMark]

/-- A segment in its written form. -/
def writeSegment (cs : List Char) : List Char := if isPlain cs then cs else quote cs

/-- The segments of a name, cut at its colons. -/
def segments (cs : List Char) : List (List Char) := Text.split ':' cs

/-- A name in its written form, as characters. -/
def writeChars (cs : List Char) : List Char := Text.join ':' ((segments cs).map writeSegment)

/-- A name in its written form. -/
def write (name : String) : String := String.ofList (writeChars name.toList)

@[simp] theorem toList_write (name : String) : (write name).toList = writeChars name.toList :=
  String.toList_ofList

end GraphScript.Identifier
