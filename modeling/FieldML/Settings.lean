import FieldML.Check.Basic
import FieldML.Eval
import FieldML.Toml.Parser

/-!
# Settings

How programs are checked and how far they may run. A settings file names each setting at most once
and holds nothing else.
-/

namespace FieldML

/-- How programs are checked and how far they may run. -/
structure Settings where
  exhaustiveness : Exhaustiveness := .error
  /-- The number of evaluation steps, if it is limited. -/
  fuel : Option Nat := none
  /-- The number of nested levels of evaluation, if it is not the usual one. -/
  maxDepth : Option Nat := none
  traceUnification : Bool := false
  deriving DecidableEq, Repr, Inhabited

namespace Settings

/-- How programs are checked. -/
def checkOptions (s : Settings) : CheckOptions := ⟨s.exhaustiveness, s.traceUnification⟩

/-- How far programs may run. -/
def evalLimits (s : Settings) : EvalLimits :=
  { fuel := s.fuel, depth := s.maxDepth.getD ({} : EvalLimits).depth }

/-- The exhaustiveness of this name. -/
def exhaustivenessOfName? : String → Option Exhaustiveness
  | "error" => some .error
  | "warn" => some .warn
  | _ => none

/-- The exhaustiveness that a value stands for: its name, or a table with its name as the only key
and nothing below that. -/
def exhaustiveness? : Toml → Option Exhaustiveness
  | .text name => exhaustivenessOfName? name
  | .table _ [(name, .table _ [])] => exhaustivenessOfName? name
  | .table _ [(name, .emptyList)] => exhaustivenessOfName? name
  | _ => none

/-- A limit, which is not negative. -/
def limit? : Toml → Option Nat
  | .integer n => if 0 ≤ n then some n.toNat else none
  | _ => none

/-- The settings with one more entry of a file. -/
def set? (s : Settings) (entry : String × Toml) : Option Settings :=
  match entry with
  | ("exhaustiveness", v) => do return { s with exhaustiveness := ← exhaustiveness? v }
  | ("fuel", v) => do return { s with fuel := some (← limit? v) }
  | ("max_depth", v) => do return { s with maxDepth := some (← limit? v) }
  | ("trace_unification", .boolean b) => some { s with traceUnification := b }
  | _ => none

/-- The settings in a file. -/
def parse? (text : String) : Option Settings := do
  (← Toml.parse? text).foldlM set? {}

end Settings

end FieldML
