import GraphScript.Proofs.LiveStores

/-!
# What comes of renderings

A rendering ends in exactly one of three ways (`Render.Ending`), and what is reported of it follows
from the way in which it ends.

* **Refused**: the command line has a null character in it, or the executable cannot be started.
  The error is the system's own, and nothing has run.
* **Finished**: the program has ended with status zero.
* **Failed**: the program has ended with any other status.

`Render.render_ends` says so for every request, with the options settled as the caller and the
settings have them, and for scripts that are given as well as for those of graphs.
-/

namespace GraphScript.Render

/-! ### Executables by their names -/

/-- **An executable that is named without a slash is what the directory holds under its name.** The
names for directories are those of directories. -/
theorem Environment.launch_name (env : Environment) {name : String} (hslash : '/' ∉ name.toList)
    (hsize : byteSize name.toList ≤ maxNameBytes) :
    env.launch name =
      if name = "" ∨ name = "." ∨ name = ".." then .error .denied
      else
        match env.get? name with
        | some (.program p) => .ok (name, p)
        | some .notProgram => .error .notProgram
        | some .plainFile | some .directory => .error .denied
        | none => .error .missing := by
  have hpath : Place.ofPath env name.toList = Place.step env .work name.toList := by
    have hhead : name.toList.head? ≠ some '/' := fun h => hslash (List.mem_of_head? h)
    have hlong : ¬ maxPathBytes < byteSize name.toList := by
      rw [maxNameBytes] at hsize
      rw [maxPathBytes]
      omega
    rw [Place.ofPath, if_neg hlong, if_neg hhead, Text.split_eq_singleton hslash, List.foldlM_cons]
    cases Place.step env .work name.toList <;> rfl
  have hempty : name.toList = [] ↔ name = "" := String.toList_eq_nil_iff
  have hdot : name.toList = ['.'] ↔ name = "." := (String.toList_inj : _ = ".".toList ↔ _)
  have hdots : name.toList = ['.', '.'] ↔ name = ".." := (String.toList_inj : _ = "..".toList ↔ _)
  have hlong : absence name.toList = .missing := if_neg (Nat.not_lt.mpr hsize)
  rw [launch, hpath]
  simp only [Place.step, hempty, hdot, hdots, String.ofList_toList]
  by_cases hwork : name = "" ∨ name = "."
  · rw [if_pos hwork, if_pos (hwork.imp_right .inl)]
    rfl
  · rw [if_neg hwork]
    by_cases habove : name = ".."
    · rw [if_pos habove, if_pos (.inr (.inr habove))]
      rfl
    · rw [if_neg habove, if_neg (by tauto), Table.get?]
      cases hfound : env.find? name with
      | none => exact congrArg Except.error hlong
      | some entry =>
        obtain ⟨key, e⟩ := entry
        have hkey : key = name := by simpa using List.find?_some hfound
        subst hkey
        cases e <;> rfl

/-! ### Ways to end -/

/-- A part of a command line has a null character in it. -/
def HasNull (command : List String) : Prop := ∃ part ∈ command, '\x00' ∈ part.toList

instance (command : List String) : Decidable (HasNull command) :=
  inferInstanceAs (Decidable (∃ part ∈ command, '\x00' ∈ part.toList))

/-- How a rendering ends. -/
inductive Ending where
  /-- Nothing was started. -/
  | refused (e : Error)
  /-- A program has made the drawing. -/
  | finished (name : String) (p : Program)
  /-- A program has ended with a status other than zero. -/
  | failed (name : String) (p : Program)

namespace Ending

/-- Whether a command line ends in a way. A null character is found before the executable is looked
for. -/
def Holds (env : Environment) (executable : String) (command : List String) : Ending → Prop
  | refused e =>
    HasNull command ∧ e = .nullCharacter ∨
      ¬ HasNull command ∧ ∃ f, env.launch executable = .error f ∧ e = .notLaunched f executable
  | finished name p => ¬ HasNull command ∧ env.launch executable = .ok (name, p) ∧ p.status = 0
  | failed name p => ¬ HasNull command ∧ env.launch executable = .ok (name, p) ∧ p.status ≠ 0

/-- What is reported of a rendering that has ended in a way. -/
def Reports (path : String) (command : List String) (script : String) (report : Report) :
    Ending → Prop
  | refused e =>
    report.outcome = .error e ∧ report.log.map (·.1) = [.debug] ∧ report.run = none
  | finished name p =>
    report.outcome = .ok path ∧ report.log.map (·.1) = [.debug, .info] ∧
      report.run = some ⟨name, command.tail, if p.readsInput then some script else none⟩
  | failed name p =>
    report.outcome = .error (.failed p.status (readStderr p.stderr) command) ∧
      report.log.map (·.1) = [.debug, .warning] ∧
      report.run = some ⟨name, command.tail, if p.readsInput then some script else none⟩

end Ending

namespace Request

variable (r : Request) (env : Environment)

theorem any_contains_iff (command : List String) :
    command.any (·.contains '\x00') = true ↔ HasNull command := by
  simp only [HasNull, List.any_eq_true, String.contains_char_eq, decide_eq_true_eq]

theorem launch_of_hasNull (h : HasNull r.command) : r.launch env = .error .nullCharacter := by
  rw [launch, if_pos ((any_contains_iff r.command).mpr h)]

theorem launch_of_not_hasNull (h : ¬ HasNull r.command) : r.launch env =
    (env.launch r.chosenExecutable).mapError (.notLaunched · r.chosenExecutable) := by
  rw [launch, if_neg (mt (any_contains_iff r.command).mp h)]

/-- The way in which a rendering ends. -/
def ending : Ending :=
  match r.launch env with
  | .error e => .refused e
  | .ok (name, p) => if p.status = 0 then .finished name p else .failed name p

/-- A rendering ends in exactly one way. -/
theorem holds_iff {ending : Ending} :
    ending.Holds env r.chosenExecutable r.command ↔ ending = r.ending env := by
  rw [Request.ending]
  by_cases hnull : HasNull r.command
  · rw [r.launch_of_hasNull env hnull]
    cases ending <;> simp [Ending.Holds, hnull]
  · rw [r.launch_of_not_hasNull env hnull]
    cases hlaunch : env.launch r.chosenExecutable with
    | error f =>
      rw [Except.mapError]
      cases ending <;> simp [Ending.Holds, hnull, hlaunch]
    | ok found =>
      obtain ⟨name, p⟩ := found
      simp only [Except.mapError]
      split
      · next hstatus => cases ending <;> grind [Ending.Holds]
      · next hstatus => cases ending <;> grind [Ending.Holds]

/-- What is reported of a rendering is what the way in which it ends says. -/
theorem reports_ending (script : String) :
    (r.ending env).Reports r.output.path.text r.command script (r.render env script) := by
  rw [ending, render]
  cases r.launch env with
  | error e => exact ⟨rfl, rfl, rfl⟩
  | ok found =>
    obtain ⟨name, p⟩ := found
    simp only [conclude]
    split <;> exact ⟨rfl, rfl, rfl⟩

end Request

/-! ### Options -/

/-- An option that is left out says as little as one that is empty. -/
theorem given_eq (option : Option String) :
    given option = if option.getD "" = "" then none else some (option.getD "") := by
  cases option with
  | none => rfl
  | some value => by_cases hvalue : value = "" <;> simp [given, hvalue]

theorem getD_given (option : Option String) (default : String) :
    (given option).getD default = if option.getD "" = "" then default else option.getD "" := by
  rw [given_eq]
  split <;> rfl

/-- **What comes of renderings.** Options that the caller leaves out or leaves empty are those of
the settings, which are the default ones unless others are given. A rendering ends in exactly one
way, which the command line and the environment fix, and what is reported of it is what this way
says. A refusal is the system's own error. Graphs are rendered by their documents. -/
theorem render_ends (path : String) (layout format executable : Option String)
    (settings : Option Settings) (env : Environment) (script : String) :
    let settings := settings.getD {}
    let layoutUsed := if layout.getD "" = "" then settings.layout else layout.getD ""
    let executableUsed :=
      if executable.getD "" = "" then settings.executable else executable.getD ""
    let output := Output.ofPath (.ofString path)
      (if format.getD "" = "" then settings.format else some (format.getD ""))
    let command := [executableUsed, "-K" ++ layoutUsed, "-o" ++ output.path.text,
      "-T" ++ output.format, "-q"]
    let r : Request := { path, layout, format, executable, settings }
    (∃! ending : Ending, ending.Holds env executableUsed command) ∧
    (∀ ending : Ending, ending.Holds env executableUsed command →
      ending.Reports output.path.text command script (r.render env script)) ∧
    (∀ e, (Ending.refused e).Holds env executableUsed command →
      Family.general ∉ e.family.lineage) ∧
    ∀ (cs : List Command) (g : Nat),
      (((Session.run {} cs).2.step (.ask g (.script .document))).1 = .ok (.text script) →
        ((Session.run {} cs).2.step (.ask g (.render r env))).1 =
          .ok (.report (r.render env script))) := by
  intro settings layoutUsed executableUsed output command r
  have hexecutable : r.chosenExecutable = executableUsed :=
    getD_given executable settings.executable
  have hlayout : r.chosenLayout = layoutUsed := getD_given layout settings.layout
  have hoption : (given format).or settings.format =
      if format.getD "" = "" then settings.format else some (format.getD "") := by
    rw [given_eq]
    split <;> rfl
  have houtput : r.output = output := congrArg (Output.ofPath (.ofString path)) hoption
  have hcommand : r.command = command := by
    rw [Request.command, hexecutable, hlayout, houtput]
    rfl
  have hholds : ∀ ending : Ending,
      ending.Holds env executableUsed command ↔ ending = r.ending env := fun ending => by
    rw [← r.holds_iff env, hexecutable, hcommand]
  refine ⟨⟨r.ending env, (hholds _).mpr rfl, fun ending => (hholds ending).mp⟩, ?_, ?_, ?_⟩
  · intro ending h
    obtain rfl := (hholds ending).mp h
    rw [← houtput, ← hcommand]
    exact r.reports_ending env script
  · rintro e (⟨-, rfl⟩ | ⟨-, f, -, rfl⟩) <;> simp [Error.family, Family.lineage]
  · intro cs g hdocument
    cases htree : (Session.run {} cs).2.tree? g with
    | none =>
      rw [Session.step, htree] at hdocument
      cases hdocument
    | some t =>
      rw [Session.step_ask htree] at hdocument ⊢
      have hscript : t.document = script := Reply.text.inj (Except.ok.inj hdocument)
      rw [GraphTree.answer, hscript]

/-- A program that is killed by a signal fails. The layout was left empty, so it is the one of the
settings, and the dot at the end of the path is no part of it. -/
theorem render_ends_killed :
    let p : Program := { exit := -9, stderr := [0x6E, 0x6F, 0x0D, 0x0A], readsInput := false }
    let r : Request := { path := "out/graph.", layout := some "", executable := some "x" }
    let s := (Session.run {} [.create (some .directed) "a b"]).2
    let env : Environment := ⟨[("x", .program p)]⟩
    let command := ["x", "-Kdot", "-oout/graph.svg", "-Tsvg", "-q"]
    ∃ report, (s.step (.ask 0 (.render r env))).1 = .ok (.report report) ∧
      report.outcome = .error (.failed (-9) "no\n" command) ∧
      report.run = some ⟨"x", command.tail, none⟩ := by
  intro p r s env command
  obtain ⟨-, hreports, -, hgraph⟩ := render_ends "out/graph." (some "") none (some "x") none env
    "strict digraph \"a b\" \x7b\n\x7d\n"
  have hfailed := hreports (.failed "x" p) ⟨by decide, by rfl, by decide⟩
  exact ⟨_, hgraph [.create (some .directed) "a b"] 0 (by rfl), hfailed.1, hfailed.2.2⟩

end GraphScript.Render
