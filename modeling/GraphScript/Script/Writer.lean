import GraphScript.Identifier
import GraphScript.Script

/-!
# Writing scripts

A script is written in the DOT language, one statement to a line, and a subgraph as a block
between lines of its own. Every name, key and value is written as an identifier. Scripts open
with `strict`, since a table of edges never holds two equal edges.

* `Statement.text` writes one statement, with all that is nested in it.
* `Script.text` is the whole script.

There is no limit to the nesting. Where the memory for calls is limited, a graph that is nested too
deep for it cannot be written, and nothing is said of this limit.
-/

namespace GraphScript

/-- An edge as a statement names it. -/
def Edge.script (e : Edge) : String :=
  Identifier.write e.tail ++ " " ++ e.kind.connector ++ " " ++ Identifier.write e.head

/-- An attribute as a statement gives it. -/
def Attributes.assignment (key value : String) : String :=
  Identifier.write key ++ "=" ++ Identifier.write value

/-- The attributes of a node or an edge in brackets, and nothing if there are none. -/
def Attributes.script (attrs : Attributes) : String :=
  if attrs.isEmpty then ""
  else "[" ++ ", ".intercalate (attrs.entries.map fun a => assignment a.1 a.2) ++ "]"

namespace Statement

/-- The line for what has attributes. -/
def line (subject : String) (attrs : Attributes) : String :=
  if attrs.isEmpty then subject ++ ";\n" else subject ++ " " ++ attrs.script ++ ";\n"

mutual

/-- A statement in writing. -/
def text : Statement → String
  | subgraph name body =>
    "subgraph " ++ Identifier.write name ++ " \x7b\n" ++ textAll body ++ "\x7d\n"
  | assignment key value => Attributes.assignment key value ++ ";\n"
  | node name attrs => line (Identifier.write name) attrs
  | edge e attrs => line e.script attrs

/-- Statements in writing. -/
def textAll : List Statement → String
  | [] => ""
  | s :: rest => text s ++ textAll rest

end

end Statement

namespace Script

/-- Statements between braces. -/
def block (body : List Statement) : String := "\x7b\n" ++ Statement.textAll body ++ "\x7d\n"

/-- A script in writing. -/
def text (s : Script) : String :=
  "strict " ++ s.kind.keyword ++ " " ++ Identifier.write s.name ++ " " ++ block s.body

/-- The parts of a script that can be asked for. -/
inductive Part where
  /-- The attributes of the graph itself. -/
  | assignments
  /-- The nodes in the table. -/
  | nodes
  /-- The edges. -/
  | edges
  /-- All statements, between braces. -/
  | block
  /-- The graph as a subgraph of another one. -/
  | subgraph
  /-- The whole script. -/
  | document
  deriving DecidableEq, Repr

end Script

namespace GraphTree

/-- The script of a graph in writing. -/
def document (t : GraphTree) : String := (Script.ofTree t).text

/-- A part of the script of a graph in writing. -/
def part (t : GraphTree) : Script.Part → String
  | .assignments => Statement.textAll t.graph.assignments
  | .nodes => Statement.textAll t.graph.nodeStatements
  | .edges => Statement.textAll t.graph.edgeStatements
  | .block => Script.block t.statements
  | .subgraph => t.block.text
  | .document => t.document

end GraphTree

end GraphScript
