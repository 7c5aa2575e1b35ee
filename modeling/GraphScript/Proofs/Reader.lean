import GraphScript.Script.Writer

/-!
# Reading scripts

What a script means is what a reader of the DOT language makes of it. This module is such a reader,
for the part of the language that scripts are written in. It knows nothing of how scripts are
written, and it works in four passes, each of which may refuse what it is given.

* **Lexemes** (`Lexeme.cut`): quoted texts are taken out, and all other characters stand for
  themselves. Between quotation marks `\"` is a quotation mark, `\\` stands for itself, and any
  other backslash does too. So the first mark that is not behind such a backslash ends the text.
* **Tokens** (`Token.scan`): the longest run of characters that can be a word, a numeral or a
  connector is one token. White space separates tokens and means nothing else.
* **Names** (`Token.merge`): names with colons between them are one name of several parts.
* **Grammar** (`Script.parse`): clauses end at a semicolon or a brace, and braces nest.

`GraphTree.read?` collects the statements that were read, sort by sort and in their order.
-/

namespace GraphScript

open Identifier (quoteMark isPlain isWord isNumeral)

/-! ### Lexemes -/

/-- A character that stands for itself, or what is between two quotation marks. -/
inductive Lexeme where
  | plain (c : Char)
  | quoted (cs : List Char)
  deriving DecidableEq, Repr

/-- Where a reader is: outside quotation marks, between them with what it has read there, or there
and behind a backslash that may belong to the next character. -/
inductive Lexeme.Place where
  | outside
  | inside (read : List Char)
  | escaped (read : List Char)

/-- Cuts a text into lexemes. A backslash outside quotation marks and a quoted text that does not
end are refused. -/
def Lexeme.cut : Lexeme.Place → List Char → Option (List Lexeme)
  | .outside, [] => some []
  | _, [] => none
  | .outside, c :: cs =>
    if c = quoteMark then cut (.inside []) cs
    else if c = '\\' then none
    else (cut .outside cs).map (.plain c :: ·)
  | .inside read, c :: cs =>
    if c = quoteMark then (cut .outside cs).map (.quoted read :: ·)
    else if c = '\\' then cut (.escaped read) cs
    else cut (.inside (read ++ [c])) cs
  | .escaped read, c :: cs =>
    if c = quoteMark then cut (.inside (read ++ [quoteMark])) cs
    else cut (.inside (read ++ ['\\', c])) cs

/-! ### Tokens -/

/-- The words that the language keeps for itself. -/
inductive Keyword where
  | strict
  | graph
  | digraph
  | subgraph
  | node
  | edge
  deriving DecidableEq, Repr

namespace Keyword

/-- A keyword as it is spelled. -/
def word : Keyword → String
  | strict => "strict"
  | graph => "graph"
  | digraph => "digraph"
  | subgraph => "subgraph"
  | node => "node"
  | edge => "edge"

/-- The keyword with a spelling. -/
def ofChars? (cs : List Char) : Option Keyword :=
  [strict, graph, digraph, subgraph, node, edge].find? fun k => k.word.toList == cs

/-- The kind of graph that a keyword opens. -/
def kind? : Keyword → Option Kind
  | graph => some .undirected
  | digraph => some .directed
  | _ => none

end Keyword

/-- The characters that are tokens on their own. -/
inductive Sign where
  | colon
  | equals
  | semicolon
  | comma
  | openBracket
  | closeBracket
  | openBrace
  | closeBrace
  deriving DecidableEq, Repr

namespace Sign

/-- A sign as it is written. -/
def char : Sign → Char
  | colon => ':'
  | equals => '='
  | semicolon => ';'
  | comma => ','
  | openBracket => '['
  | closeBracket => ']'
  | openBrace => '\x7b'
  | closeBrace => '\x7d'

/-- The sign that a character is. -/
def ofChar? (c : Char) : Option Sign :=
  [colon, equals, semicolon, comma, openBracket, closeBracket, openBrace, closeBrace].find?
    fun s => s.char == c

end Sign

/-- The smallest units of a script that mean something. -/
inductive Token where
  /-- A name in its parts. -/
  | name (parts : List (List Char))
  | keyword (k : Keyword)
  | sign (s : Sign)
  /-- What stands between the two ends of an edge. -/
  | connector (kind : Kind)
  deriving DecidableEq, Repr

namespace Token

/-- The connectors, and what a connector or a numeral begins with but is none yet. -/
def beginnings : List (List Char) := [['-'], ['.'], ['-', '.'], ['-', '-'], ['-', '>']]

/-- Whether a token without quotation marks can begin like this. -/
def opens (cs : List Char) : Bool := isWord cs || isNumeral cs || beginnings.contains cs

/-- The token that a run of characters without quotation marks is. A word that differs from a
keyword in its case alone is none. -/
def ofBare? (cs : List Char) : Option Token :=
  if cs = ['-', '-'] then some (.connector .undirected)
  else if cs = ['-', '>'] then some (.connector .directed)
  else if isPlain cs then some (.name [cs])
  else (Keyword.ofChars? cs).map .keyword

/-- Puts the token that a run of characters is in front of others. An empty run is none. -/
def emit (run : List Char) (rest : Option (List Token)) : Option (List Token) :=
  if run = [] then rest else (ofBare? run).bind fun t => rest.map (t :: ·)

/-- Finds tokens. The run is made as long as it can be. -/
def scan : List Char → List Lexeme → Option (List Token)
  | run, [] => emit run (some [])
  | run, .quoted cs :: ls => emit run ((scan [] ls).map (.name [cs] :: ·))
  | run, .plain c :: ls =>
    if opens (run ++ [c]) then scan (run ++ [c]) ls
    else emit run <|
      if opens [c] then scan [c] ls
      else if c.isWhitespace then scan [] ls
      else (Sign.ofChar? c).bind fun s => (scan [] ls).map (.sign s :: ·)

/-- Puts a token in front of others. A name in front of a colon and a name becomes one with it. -/
def attach : Token → List Token → List Token
  | .name ps, .sign .colon :: .name qs :: ts => .name (ps ++ qs) :: ts
  | t, ts => t :: ts

/-- Makes one name of names with colons between them. -/
def merge (ts : List Token) : List Token := ts.foldr attach []

end Token

/-! ### Grammar -/

/-- How many parts a name may have, depending on what it names. -/
structure Arity where
  /-- The names of graphs and the keys and values of attributes. -/
  plain : Nat → Bool
  /-- The names of nodes. -/
  node : Nat → Bool

/-- A node may be named with a port and a side of it, and nothing else may. -/
def Arity.dot : Arity := ⟨(· == 1), (· ≤ 3)⟩

/-- The name that a token is, with its parts joined. -/
def Token.text? (allowed : Nat → Bool) : Token → Option String
  | .name ps => if allowed ps.length then some (String.ofList (Text.join ':' ps)) else none
  | _ => none

/-- Attributes up to the bracket that closes them, which has to be the last token. -/
def Attributes.parsePairs (a : Arity) : List Token → Option (List (String × String))
  | key :: .sign .equals :: value :: .sign .comma :: ts =>
    (key.text? a.plain).bind fun key => (value.text? a.plain).bind fun value =>
      (parsePairs a ts).map ((key, value) :: ·)
  | [key, .sign .equals, value, .sign .closeBracket] =>
    (key.text? a.plain).bind fun key => (value.text? a.plain).map fun value => [(key, value)]
  | _ => none

/-- Attributes in brackets, or none at all. -/
def Attributes.parse (a : Arity) : List Token → Option Attributes
  | [] => some ∅
  | .sign .openBracket :: ts => (parsePairs a ts).map Table.mk
  | _ => none

/-- The clause in front of a semicolon. Edges have to be of the kind of the document. -/
def Statement.parse (a : Arity) (kind : Kind) : List Token → Option Statement
  | [key, .sign .equals, value] =>
    (key.text? a.plain).bind fun key => (value.text? a.plain).map fun value => .assignment key value
  | tail :: .connector k :: head :: ts =>
    if k = kind then
      (tail.text? a.node).bind fun tail => (head.text? a.node).bind fun head =>
        (Attributes.parse a ts).map fun attrs => .edge ⟨kind, tail, head⟩ attrs
    else none
  | name :: ts =>
    (name.text? a.node).bind fun name => (Attributes.parse a ts).map fun attrs => .node name attrs
  | [] => none

/-- The clause in front of a block inside a document. -/
def Statement.parseHeader (a : Arity) : List Token → Option String
  | [.keyword .subgraph, name] => name.text? a.plain
  | _ => none

/-- The statements of a block, up to the brace that closes it, which has to be the last token. It
carries the statements in front, the blocks around with what is in front of this block in each of
them, and the clause that has begun. -/
def Statement.parseBlock (a : Arity) (kind : Kind) :
    List Statement → List (String × List Statement) → List Token → List Token →
      Option (List Statement)
  | _, _, _, [] => none
  | done, around, clause, .sign .semicolon :: ts =>
    (parse a kind clause).bind fun s => parseBlock a kind (done ++ [s]) around [] ts
  | done, around, clause, .sign .openBrace :: ts =>
    (parseHeader a clause).bind fun name => parseBlock a kind [] ((name, done) :: around) [] ts
  | done, [], [], [.sign .closeBrace] => some done
  | done, (name, before) :: around, [], .sign .closeBrace :: ts =>
    parseBlock a kind (before ++ [.subgraph name done]) around [] ts
  | _, _, _, .sign .closeBrace :: _ => none
  | done, around, clause, t :: ts => parseBlock a kind done around (clause ++ [t]) ts

/-- A whole document. -/
def Script.parse (a : Arity) : List Token → Option Script
  | .keyword .strict :: .keyword k :: name :: .sign .openBrace :: ts =>
    k.kind?.bind fun kind => (name.text? a.plain).bind fun name =>
      (Statement.parseBlock a kind [] [] [] ts).map fun body => ⟨kind, name, body⟩
  | _ => none

/-- Reads lexemes. -/
def Script.ofLexemes? (a : Arity) (ls : List Lexeme) : Option Script :=
  (Token.scan [] ls).bind fun ts => Script.parse a (Token.merge ts)

/-- Reads a text. -/
def Script.read? (a : Arity) (text : String) : Option Script :=
  (Lexeme.cut .outside text.toList).bind (Script.ofLexemes? a)

/-! ### What was read -/

namespace Statement

/-- The attribute of the graph itself that a statement gives. -/
def assignment? : Statement → Option (String × String)
  | .assignment key value => some (key, value)
  | _ => none

/-- The node that a statement gives. -/
def node? : Statement → Option (String × Attributes)
  | .node name attrs => some (name, attrs)
  | _ => none

/-- The edge that a statement gives. -/
def edge? : Statement → Option (Edge × Attributes)
  | .edge e attrs => some (e, attrs)
  | _ => none

/-- The graph that statements give, without its subgraphs. -/
def collect (kind : Kind) (name : String) (body : List Statement) : Graph where
  kind := kind
  name := name
  attrs := ⟨body.filterMap assignment?⟩
  nodes := ⟨body.filterMap node?⟩
  edges := ⟨body.filterMap edge?⟩

/-- The subgraphs that statements give. -/
def subtrees (kind : Kind) : List Statement → List GraphTree
  | [] => []
  | .subgraph name body :: rest =>
    .node (collect kind name body) (subtrees kind body) :: subtrees kind rest
  | _ :: rest => subtrees kind rest

end Statement

/-- The graph that a script gives. -/
def Script.tree (s : Script) : GraphTree :=
  .node (Statement.collect s.kind s.name s.body) (Statement.subtrees s.kind s.body)

/-- The graph that a text in the DOT language gives. -/
def GraphTree.read? (text : String) : Option GraphTree := (Script.read? .dot text).map Script.tree

end GraphScript
