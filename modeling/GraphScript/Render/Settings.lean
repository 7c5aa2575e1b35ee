import GraphScript.Render.Path

/-!
# What to render, and how

A drawing is made by an executable that reads a script and is told a layout, a file to write and
a format. This module settles the three, and the command line that says so.

* **Options** are given by the caller. One that is left out, or empty, is taken from the
  settings.
* **The file** gets a suffix if it has none, and a dot at the end of its name is no part of it.
* **The format**, where none is given, is the suffix of the file.
-/

namespace GraphScript.Render

/-- The format of drawings for which none is said in any way. -/
def defaultFormat : String := "svg"

/-- What holds where the caller of a rendering says nothing. -/
structure Settings where
  layout : String := "dot"
  format : Option String := none
  executable : String := "dot"
  deriving Repr

/-- A rendering as it is asked for. -/
structure Request where
  path : String
  layout : Option String := none
  format : Option String := none
  executable : Option String := none
  settings : Settings := {}

/-- An option that says something. Empty ones do not. -/
def given (option : Option String) : Option String := option.filter (· != "")

/-- Where a drawing goes, and in what format. -/
structure Output where
  path : Path
  format : String

/-- The name of a file without a dot at its end, and the suffix it has then. -/
def fileName (name : List Char) : List Char × List Char :=
  if name.getLast? = some '.' then (name.dropLast, []) else (name, suffix name)

/-- The file that a path asks for, and the format: the one given, or else the suffix. -/
def Output.ofPath (path : Path) (format : Option String) : Output :=
  let (name, suffix) := fileName path.name
  match suffix with
  | [] =>
    ⟨path.parent.child (name ++ '.' :: defaultFormat.toList), (given format).getD defaultFormat⟩
  | _ :: extension => ⟨path.parent.child name, (given format).getD (String.ofList extension)⟩

/-- The command line for a drawing. The last option keeps the executable quiet. -/
def commandLine (executable layout output format : String) : List String :=
  [executable, "-K" ++ layout, "-o" ++ output, "-T" ++ format, "-q"]

namespace Request

/-- The layout of a drawing. -/
def chosenLayout (r : Request) : String := (given r.layout).getD r.settings.layout

/-- The executable that makes a drawing. -/
def chosenExecutable (r : Request) : String := (given r.executable).getD r.settings.executable

/-- Where a drawing goes, and in what format. -/
def output (r : Request) : Output :=
  .ofPath (.ofString r.path) ((given r.format).or r.settings.format)

/-- The command line for a drawing. -/
def command (r : Request) : List String :=
  commandLine r.chosenExecutable r.chosenLayout r.output.path.text r.output.format

end Request

end GraphScript.Render
