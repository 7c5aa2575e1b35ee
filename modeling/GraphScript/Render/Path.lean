import GraphScript.Text.Split

/-!
# Paths

A path is a root and the parts behind it. Empty parts and parts that are a single dot say
nothing and are dropped when a path is read; two dots are kept, since what they mean depends on
the file system. A path may begin with exactly two slashes, which is a root of its own.

The last part is the *name* of the path, and its *suffix* is what follows the last dot of the
name, with the dot, provided that something stands on both sides of it.
-/

namespace GraphScript.Render

/-- Where the parts of a path begin. -/
inductive Root where
  /-- In the current directory. -/
  | relative
  /-- In the root directory. -/
  | slash
  /-- In the root that two slashes stand for. -/
  | doubleSlash
  deriving DecidableEq, Repr

/-- A root in front of the parts of a path. -/
def Root.text : Root → List Char
  | relative => []
  | slash => ['/']
  | doubleSlash => ['/', '/']

/-- The root that a text begins with. Three slashes or more are as good as one. -/
def Root.ofText : List Char → Root
  | '/' :: '/' :: '/' :: _ => slash
  | '/' :: '/' :: _ => doubleSlash
  | '/' :: _ => slash
  | _ => relative

/-- A root and the parts behind it. -/
structure Path where
  root : Root
  parts : List (List Char)
  deriving DecidableEq, Repr

namespace Path

/-- Whether a part says anything. -/
def isPart (part : List Char) : Bool := part != [] && part != ['.']

/-- Reads a path. -/
def ofChars (cs : List Char) : Path := ⟨Root.ofText cs, (Text.split '/' cs).filter isPart⟩

/-- The path in writing. A path that says nothing at all is a dot. -/
def chars (p : Path) : List Char :=
  match p.root.text ++ Text.join '/' p.parts with
  | [] => ['.']
  | cs => cs

/-- Reads a path. -/
def ofString (s : String) : Path := ofChars s.toList

/-- The path in writing. -/
def text (p : Path) : String := String.ofList p.chars

/-- The last part, and nothing if there is none. -/
def name (p : Path) : List Char := p.parts.getLast?.getD []

/-- The path without its last part. -/
def parent (p : Path) : Path := ⟨p.root, p.parts.dropLast⟩

/-- The path with one part more. -/
def child (p : Path) (part : List Char) : Path := ⟨p.root, p.parts ++ [part]⟩

end Path

/-- What stands before and behind the last dot. -/
def lastDot? : List Char → Option (List Char × List Char)
  | [] => none
  | c :: cs =>
    match lastDot? cs with
    | some (before, behind) => some (c :: before, behind)
    | none => if c = '.' then some ([], cs) else none

/-- The suffix of a name: the last dot and what stands behind it, unless that dot is the first
or the last character. -/
def suffix (name : List Char) : List Char :=
  match lastDot? name with
  | some (_ :: _, c :: cs) => '.' :: c :: cs
  | _ => []

end GraphScript.Render
