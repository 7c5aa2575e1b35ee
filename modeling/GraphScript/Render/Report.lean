import GraphScript.Render.Settings
import GraphScript.Render.Launch
import GraphScript.Text.Lines
import GraphScript.Text.Utf8

/-!
# Rendering

A rendering hands a script to an executable and reports what came of it. A `Report` has the
outcome, the log, and the run of the program if one was started.

* A command line with a null character, or an executable that cannot be launched, is an error
  of its own, and nothing has run.
* A program that ends with status zero has made the drawing.
* A program that ends with any other status has failed, and its error stream is part of the
  error. The stream is read as UTF-8 whatever it holds, with unified line ends.

Scripts, paths and options are texts of Unicode scalar values, so all of them can be encoded. A text
with a surrogate that stands alone is none of these, and what comes of a rendering that is asked for
with one is left out. So are arguments that are too long for the system (`Environment.launch`).
-/

namespace GraphScript.Render

/-- How urgent a message of the log is. -/
inductive Level where
  | debug
  | info
  | warning
  deriving DecidableEq, Repr

/-- What a program was given when it was run. -/
structure Run where
  /-- The name of the program. -/
  program : String
  /-- Its arguments. -/
  arguments : List String
  /-- What it read, if it reads. -/
  input : Option String

/-- What came of a rendering. -/
structure Report where
  /-- The path of the drawing, or why there is none. -/
  outcome : Except Error String
  /-- The messages logged, in order. -/
  log : List (Level × String)
  /-- The run of the program, if one was started. -/
  run : Option Run

/-- The error stream of a program as a text. -/
def readStderr (bytes : List UInt8) : String :=
  String.ofList (Text.unifyLineEnds (Text.Utf8.decode bytes))

namespace Request

/-- The message before anything is launched. -/
def launching (r : Request) : Level × String := (.debug, "Running " ++ " ".intercalate r.command)

/-- The message about a program that failed. -/
def failing (r : Request) (status : Int) : Level × String :=
  (.warning, r.chosenExecutable ++ " exited with status " ++ toString status)

/-- The message about a drawing that was made. -/
def finishing (r : Request) : Level × String :=
  (.info, "Rendered " ++ r.output.path.text ++ " (" ++ r.output.format ++ ", layout "
    ++ r.chosenLayout ++ ")")

/-- The program that a request starts. -/
def launch (r : Request) (env : Environment) : Except Error (String × Program) :=
  if r.command.any (·.contains '\x00') then .error .nullCharacter
  else (env.launch r.chosenExecutable).mapError (.notLaunched · r.chosenExecutable)

/-- What comes of a program that was started. -/
def conclude (r : Request) (script name : String) (p : Program) : Report :=
  let run : Run := ⟨name, r.command.tail, if p.readsInput then some script else none⟩
  if p.status = 0 then ⟨.ok r.output.path.text, [r.launching, r.finishing], some run⟩
  else
    ⟨.error (.failed p.status (readStderr p.stderr) r.command),
      [r.launching, r.failing p.status], some run⟩

/-- Renders a script. -/
def render (r : Request) (env : Environment) (script : String) : Report :=
  match r.launch env with
  | .error e => ⟨.error e, [r.launching], none⟩
  | .ok (name, p) => r.conclude script name p

end Request

end GraphScript.Render
