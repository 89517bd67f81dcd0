import FieldML.Json
import FieldML.Run

/-!
# The command line

What the program prints and how it ends, given its arguments and what it can read. A program is run
for its output, or checked for its type.
-/

namespace FieldML

/-- A text that was read, or why it could not be read. -/
abbrev Reading := Except String String

/-- What the program is started with and what it can read. -/
structure World where
  args : List String
  /-- The path of the settings file, unless an argument gives one. -/
  configPath : Option String
  file : String → Reading
  input : Reading

/-- What the program prints, and whether it succeeds. -/
structure Printed where
  succeeds : Bool
  output : String := ""
  errors : String := ""
  deriving DecidableEq, Repr

namespace CommandLine

/-- The variable of the surroundings that names the settings file. -/
def configVariable : String := "KINDML_CONFIG"

/-- How the program is used. -/
def help : String := String.join [
  "kindml\n\nUSAGE:\n  kindml <COMMAND>\n\n",
  "COMMANDS:\n  run <path|->\n  check <path|-> [--json]\n\n",
  "OPTIONS:\n  --config <path>  read settings from a TOML file (default: $", configVariable, ")\n",
  "  -h, --help\n"]

/-- Ends with a message that the program cannot start. -/
def refusal (message : String) : Printed := ⟨false, "", message ++ "\n"⟩

/-- What a command works on. -/
structure Job where
  /-- The path of the program, or a dash for the input. -/
  target : String
  /-- Whether the report is printed as JSON. -/
  json : Bool
  /-- The path of the settings, if there are any. -/
  configPath : Option String
  deriving DecidableEq, Repr

/-- What the arguments of the program ask for. -/
inductive Request where
  | help
  | run (job : Job)
  | check (job : Job)
  deriving DecidableEq, Repr

/-- What is known of a job before all of its arguments are read. -/
structure Draft where
  target : Option String := none
  json : Bool := false
  configPath : Option String
  deriving DecidableEq, Repr

/-- Reads the arguments of a command from first to last; a later path of settings replaces an
earlier one. -/
def Draft.read (draft : Draft) : List String → Except String Draft
  | [] => .ok draft
  | "--json" :: rest => Draft.read { draft with json := true } rest
  | ["--config"] => .error "--config expects a path"
  | "--config" :: path :: rest => Draft.read { draft with configPath := some path } rest
  | arg :: rest =>
      if draft.target.isNone && (arg = "-" || !arg.startsWith "-") then
        Draft.read { draft with target := some arg } rest
      else .error s!"unexpected argument {arg}"

/-- The job that the arguments of a command describe. -/
def job (configPath : Option String) (args : List String) : Except String Job := do
  let draft ← Draft.read { configPath := configPath } args
  match draft.target with
  | some target => return ⟨target, draft.json, draft.configPath⟩
  | none => throw "expected a source path or '-'"

/-- What the arguments ask for. -/
def request (configPath : Option String) : List String → Except String Request
  | [] | "-h" :: _ | "--help" :: _ => .ok .help
  | "run" :: args => return .run (← job configPath args)
  | "check" :: args => return .check (← job configPath args)
  | command :: _ => .error s!"unknown command {command}; try --help"

/-- The job of a request, if it has one. -/
def Request.job? : Request → Option Job
  | .help => none
  | .run job | .check job => some job

/-- Whether the job takes the program from the input. -/
def Job.readsInput (j : Job) : Bool := j.target = "-"

/-- The paths of the files that the job may read, the settings first. -/
def Job.files (j : Job) : List String :=
  j.configPath.toList ++ if j.readsInput then [] else [j.target]

/-- Why a text could not be read, in words. -/
def readFailure (path reason : String) : String := s!"failed to read {path}: {reason}"

/-- The settings of a job. -/
def Job.settings (j : Job) (world : World) : Except String Settings :=
  match j.configPath with
  | none => .ok {}
  | some path =>
      match world.file path with
      | .error reason => .error (readFailure path reason)
      | .ok text =>
          match Settings.parse? text with
          | some settings => .ok settings
          | none => .error "failed to parse configuration:"

/-- The program text of a job. -/
def Job.source (j : Job) (world : World) : Except String String :=
  let (path, reading) :=
    if j.readsInput then ("<stdin>", world.input) else (j.target, world.file j.target)
  match reading with
  | .ok text => .ok text
  | .error reason => .error (readFailure path reason)

/-- What is printed when the process ends before the result is known. -/
def overflow : Printed := { succeeds := false, errors := "attempt to add with overflow\n" }

/-- Runs a program and prints its output. -/
def run [Text.Segmentation] (source : String) (settings : Settings) : Printed :=
  match (runSource source settings false).completed? with
  | none => overflow
  | some (.ok output, _) => { succeeds := true, output := output ++ "\n" }
  | some (.error e, _) =>
      { succeeds := false, output := s!"! [ERROR AT {e.stage}] {e.message}.\n" }

/-- The type of a program, its kind if there is something to say about that, and diagnostics. -/
structure Report where
  type : Option String
  kind : Option String
  diagnostics : List Diagnostic

namespace Report

/-- The report on a checked program. -/
def ofChecked (c : Checked) : Report :=
  let (type, names) := c.type.print .arrow []
  let kind := match c.kind with
    | .universal => none
    | kind => some (kind.print names).1
  ⟨some type, kind, c.warnings.map Warning.toDiagnostic⟩

/-- The report on the outcome of a check. -/
def ofOutcome : Except RunError Checked → Report
  | .ok c => ofChecked c
  | .error e => ⟨none, none, [e.toDiagnostic]⟩

/-- The report as JSON. -/
def toJson (r : Report) : Json :=
  .object [("type", .ofText? r.type), ("kind", .ofText? r.kind),
    ("diagnostics", .list (r.diagnostics.map Diagnostic.toJson))]

/-- The type and the kind on one line. -/
def summary (r : Report) : String :=
  match r.type, r.kind with
  | some type, some kind => s!"{type} where {type} :: {kind}\n"
  | some type, none => type ++ "\n"
  | none, _ => ""

end Report

/-- Prints the report on a program. -/
def Report.printed (report : Report) (j : Job) : Printed :=
  let succeeds := report.type.isSome
  if j.json then { succeeds := succeeds, output := report.toJson.pretty 0 ++ "\n" }
  else
    let remarks := Diagnostic.renderAll j.target report.diagnostics
    { succeeds := succeeds
      output := report.summary
      errors := if report.diagnostics.isEmpty then "" else remarks ++ "\n" }

/-- Checks a program and prints the report on it. -/
def check (j : Job) (source : String) (settings : Settings) : Printed :=
  match (checkSource source settings).completed? with
  | none => overflow
  | some (result, _) => (Report.ofOutcome result).printed j

variable [Text.Segmentation]

/-- Does what is asked for. The settings are read before the program. -/
def perform (world : World) : Request → Except String Printed
  | .help => return { succeeds := true, output := help }
  | .run j => do
      let settings ← j.settings world
      return run (← j.source world) settings
  | .check j => do
      let settings ← j.settings world
      return check j (← j.source world) settings

/-- What the program does. -/
def main (world : World) : Printed :=
  match request world.configPath world.args >>= perform world with
  | .ok printed => printed
  | .error message => refusal message

end CommandLine

end FieldML
