import FieldML.Source.Range
import FieldML.Text.Letters

/-!
# Diagnostics

Faults and warnings as they are shown to the author of a program.
-/

namespace FieldML

/-- Whether a program is refused or only remarked on. -/
inductive Severity where
  | error
  | warning
  deriving DecidableEq, Repr

/-- A remark on one place of a program. -/
structure Label where
  message : String
  range : Range
  deriving DecidableEq, Repr

/-- A fault or a warning, with the places that explain it. -/
structure Diagnostic where
  code : String
  severity : Severity
  message : String
  range : Range
  labels : List Label := []
  deriving DecidableEq, Repr

namespace Severity

/-- The severity in one word. -/
def name : Severity → String
  | error => "error"
  | warning => "warning"

end Severity

namespace Diagnostic

/-- A label on a line of its own. -/
def renderLabel (path : String) (l : Label) : String :=
  s!"  note: {l.message} at {path}: {l.range.text}\n"

/-- A diagnostic on the program at a path: one line, then one line for each label. -/
def render (path : String) (d : Diagnostic) : String :=
  let head := s!"{d.severity.name}[{d.code}] {path}: {d.range.text} {d.message}\n"
  Text.trimEnd (head ++ String.join (d.labels.map (renderLabel path)))

/-- Diagnostics on the program at a path, from first to last. -/
def renderAll (path : String) (ds : List Diagnostic) : String :=
  "\n".intercalate (ds.map (render path))

end Diagnostic

end FieldML
