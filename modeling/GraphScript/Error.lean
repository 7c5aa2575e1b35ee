import GraphScript.Item

/-!
# Errors

An error is the cause of a refusal. Its wording is derived from the cause in one place,
`Error.message`, and so is the family it belongs to, `Error.family`.

* **Searches** for an attribute, a node or an edge fail with `notFound`; removing what is not
  there fails with `absent`.
* **Requests** that make no sense for the graph at hand have a cause each.
* **Walks** over the edges of a graph end with `exhausted`, or break off when the table of
  edges changes under them.
* **Rendering** fails when the executable cannot be launched, or when it ran and said so.
-/

namespace GraphScript

/-! ### What causes are about -/

/-- What a failed search was for. -/
inductive Sought where
  | key
  | attributeKey
  | node
  | edge
  deriving DecidableEq, Repr

/-- The noun for what was sought. -/
def Sought.noun : Sought → String
  | key => "key"
  | attributeKey => "attribute"
  | node => "node"
  | edge => "edge"

/-- The name of a walk over the edges that meet a node at a side. -/
def Side.walkName : Side → String
  | either => "iter_edges"
  | incoming => "iter_edges_in"
  | outgoing => "iter_edges_out"

/-- What part of a network an attribute belongs to. -/
inductive NetworkPart where
  | node
  | edge
  deriving DecidableEq, Repr

/-- The name of the operation that adds a part to a network. -/
def NetworkPart.addition : NetworkPart → String
  | node => "add_node"
  | edge => "add_edge"

/-- Why an executable could not be launched. -/
inductive LaunchFailure where
  /-- There is no such file. -/
  | missing
  /-- The file may not be executed, or is a directory. -/
  | denied
  /-- The path leads through something that is not a directory. -/
  | notDirectory
  /-- The file is executable and yet no program. -/
  | notProgram
  /-- A name or the whole path has too many bytes. -/
  | tooLong
  deriving DecidableEq, Repr

namespace LaunchFailure

/-- The number that the system gives to a failure. -/
def number : LaunchFailure → Nat
  | missing => 2
  | denied => 13
  | notDirectory => 20
  | notProgram => 8
  | tooLong => 36

/-- The words that the system has for a failure. -/
def words : LaunchFailure → String
  | missing => "No such file or directory"
  | denied => "Permission denied"
  | notDirectory => "Not a directory"
  | notProgram => "Exec format error"
  | tooLong => "File name too long"

end LaunchFailure

/-! ### Causes and their wording -/

/-- The cause of a refusal. -/
inductive Error where
  /-- An error that carries its own wording. -/
  | general (text : String)
  /-- Something was sought that is not there. -/
  | notFound (sought : Sought) (key : Item)
  /-- Something was to be removed that is not there. -/
  | absent (key : Item)
  /-- The item is no edge of the kind that the graph takes. -/
  | wrongEdge (kind : Kind) (got : Item)
  /-- A graph must be of one of the two kinds. -/
  | noKind
  /-- A pair must have two parts. -/
  | pairLength (length : Nat)
  /-- Edges without direction neither come in nor go out. -/
  | noDirection (kind : Kind) (side : Side)
  /-- The number of edges changed during a walk. -/
  | resized
  /-- A walk has passed as many edges as there were at its start, and yet there is another one. -/
  | rekeyed
  /-- A walk has no more edges. -/
  | exhausted
  /-- The fields of an edge cannot be assigned. -/
  | assignField (field : String)
  /-- The fields of an edge cannot be deleted. -/
  | deleteField (field : String)
  /-- The network keeps the name of an attribute for itself. -/
  | reserved (kind : Kind) (part : NetworkPart) (key : String)
  /-- A command line cannot hold the null character. -/
  | nullCharacter
  /-- The executable could not be launched. -/
  | notLaunched (failure : LaunchFailure) (executable : String)
  /-- The executable ran and ended with a status other than zero. -/
  | failed (status : Int) (stderr : String) (command : List String)
  /-- There is no graph with this number. -/
  | unknownGraph (number : Nat)
  /-- Nothing is kept under this name. -/
  | unknownName (name : String)

namespace Error

/-- The wording of a pair with other than two parts. -/
def pairMessage (length : Nat) : String :=
  if length < 2 then
    "not enough values to unpack (expected 2, got " ++ toString length ++ ")"
  else "too many values to unpack (expected 2)"

/-- The wording of an error. -/
def message : Error → String
  | general text => text
  | notFound sought key => sought.noun ++ " not found: " ++ key.display
  | absent key => key.display
  | wrongEdge kind got =>
    kind.graphName ++ " takes " ++ kind.edgeName ++ " edges, got " ++ got.display
  | noKind => "BaseGraph is abstract; use Graph or Digraph"
  | pairLength length => pairMessage length
  | noDirection kind side =>
    "'" ++ kind.graphName ++ "' object has no attribute '" ++ side.walkName ++ "'"
  | resized => "dictionary changed size during iteration"
  | rekeyed => "dictionary keys changed during iteration"
  | exhausted => ""
  | assignField field => "cannot assign to field " ++ Text.display field
  | deleteField field => "cannot delete field " ++ Text.display field
  | reserved kind part key =>
    kind.networkName ++ "." ++ part.addition ++ "() got multiple values for argument '" ++ key
      ++ "'"
  | nullCharacter => "embedded null byte"
  | notLaunched failure executable =>
    "[Errno " ++ toString failure.number ++ "] " ++ failure.words ++ ": "
      ++ Text.display executable
  | failed status stderr _ => "[errcode " ++ toString status ++ "] " ++ stderr
  | unknownGraph _ => "list index out of range"
  | unknownName name => Text.display name

end Error

/-- The fields of an edge are fixed, whatever they are called: no value can be given to one. -/
def Edge.assignField (_ : Edge) (field : String) : Except Error Edge := .error (.assignField field)

/-- The fields of an edge are fixed, whatever they are called: none can be deleted. -/
def Edge.deleteField (_ : Edge) (field : String) : Except Error Edge := .error (.deleteField field)

/-! ### Families -/

/-- Families of errors. Whoever is ready for a family is ready for all families below it. -/
inductive Family where
  /-- All errors. -/
  | any
  /-- Failed look-ups of every sort. -/
  | lookup
  /-- Failed look-ups by key. -/
  | key
  /-- Errors of graphs and their rendering. -/
  | general
  /-- Failed searches in a graph. -/
  | notFound
  /-- Failed searches for an attribute. -/
  | attributeKey
  /-- Failed searches for a node. -/
  | node
  /-- Failed searches for an edge. -/
  | edge
  /-- Renderings that ran and failed. -/
  | rendering
  deriving DecidableEq, Repr

/-- A family and all families above it, the closest first. -/
def Family.lineage : Family → List Family
  | any => [any]
  | lookup => [lookup, any]
  | key => [key, lookup, any]
  | general => [general, any]
  | notFound => [notFound, general, key, lookup, any]
  | attributeKey => [attributeKey, notFound, general, key, lookup, any]
  | node => [node, notFound, general, key, lookup, any]
  | edge => [edge, notFound, general, key, lookup, any]
  | rendering => [rendering, general, any]

/-- The family of a failed search. -/
def Sought.family : Sought → Family
  | key => .notFound
  | attributeKey => .attributeKey
  | node => .node
  | edge => .edge

/-- The closest family of an error. -/
def Error.family : Error → Family
  | general _ => .general
  | notFound sought _ => sought.family
  | absent _ => .key
  | failed _ _ _ => .rendering
  | unknownName _ => .key
  | unknownGraph _ => .lookup
  | _ => .any

end GraphScript
