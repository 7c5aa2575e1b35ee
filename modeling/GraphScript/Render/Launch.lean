import GraphScript.Error
import GraphScript.Text.Split

/-!
# Launching an executable

Renderings run in a directory called `work`, which is also the only place where executables are
looked for by name. An `Environment` is what that directory holds; around it there is nothing
but the directories that lead to it.

An executable is found by walking its path part by part. A name without a slash is looked for
in the directory itself, so it is a path of one part. What is found has to be a program. No path
has more than `maxPathBytes` bytes, and no directory has a name of more than `maxNameBytes`.

Systems also limit how long one argument of a command line may be, and all of them together. These
limits are left out: a program that is found can be given any arguments.
-/

namespace GraphScript.Render

/-- What a program does when it is run. It writes no file. -/
structure Program where
  /-- The number that it ends with, negative for the signal that ends it. -/
  exit : Int := 0
  /-- What it writes to its error stream. -/
  stderr : List UInt8 := []
  /-- Whether it reads its input. -/
  readsInput : Bool := true

/-- The status that the end of a program is reported with. Of a number that is no signal, only the
lowest byte is passed on. -/
def Program.status (p : Program) : Int := if p.exit < 0 then p.exit else p.exit % 256

/-- What a directory may hold. -/
inductive Entry where
  /-- A program. -/
  | program (p : Program)
  /-- A file that may not be executed. -/
  | plainFile
  /-- A file that may be executed, and yet is no program. -/
  | notProgram
  /-- A directory, with nothing in it. -/
  | directory

/-- The entries of the directory in which renderings run. -/
abbrev Environment := Table String Entry

/-- The name of the directory in which renderings run. -/
def workName : List Char := "work".toList

/-- The most bytes that a name in a directory may have. -/
def maxNameBytes : Nat := 255

/-- The most bytes that a path may have. -/
def maxPathBytes : Nat := 4095

/-- The number of bytes of a text in UTF-8. -/
def byteSize (cs : List Char) : Nat := cs.foldr (fun c size => c.utf8Size + size) 0

/-- Why a directory does not have a name. -/
def absence (name : List Char) : LaunchFailure :=
  if maxNameBytes < byteSize name then .tooLong else .missing

/-- Where a walk along a path can stand. -/
inductive Place where
  /-- At the root of all directories. -/
  | top
  /-- As many directories above the one that holds `work`. -/
  | above (levels : Nat)
  /-- In `work`. -/
  | work
  /-- At an entry of `work`. -/
  | entry (name : String) (e : Entry)

namespace Place

/-- Goes on from a place along one part of a path. Empty parts mean the place itself. -/
def step (env : Environment) (place : Place) (part : List Char) : Except LaunchFailure Place :=
  match place with
  | top => if part = [] ∨ part = ['.'] ∨ part = ['.', '.'] then .ok top else .error (absence part)
  | above levels =>
    if part = [] ∨ part = ['.'] then .ok (above levels)
    else if part = ['.', '.'] then .ok (above (levels + 1))
    else if levels = 0 ∧ part = workName then .ok work
    else .error (absence part)
  | work =>
    if part = [] ∨ part = ['.'] then .ok work
    else if part = ['.', '.'] then .ok (above 0)
    else
      match env.find? (String.ofList part) with
      | some (name, e) => .ok (entry name e)
      | none => .error (absence part)
  | entry name .directory =>
    if part = [] ∨ part = ['.'] then .ok (entry name .directory)
    else if part = ['.', '.'] then .ok work
    else .error (absence part)
  | entry _ _ => .error .notDirectory

/-- Where a path leads. -/
def ofPath (env : Environment) (path : List Char) : Except LaunchFailure Place :=
  if maxPathBytes < byteSize path then .error .tooLong
  else (Text.split '/' path).foldlM (step env) (if path.head? = some '/' then top else work)

/-- The program at a place, under its name. -/
def program : Place → Except LaunchFailure (String × Program)
  | entry name (.program p) => .ok (name, p)
  | entry _ .notProgram => .error .notProgram
  | _ => .error .denied

end Place

/-- The program that an executable's name or path leads to. -/
def Environment.launch (env : Environment) (executable : String) :
    Except LaunchFailure (String × Program) :=
  (Place.ofPath env executable.toList).bind Place.program

end GraphScript.Render
