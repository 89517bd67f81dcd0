import FieldML.Ty.Printer
import FieldML.Ty.Vars

/-!
# Contradictions

What is reported when two types cannot be made equal: the two types in full, the record kinds of
their variables, and the reason, which may lie deep inside them.
-/

namespace FieldML

/-- Why two types cannot be made equal. -/
inductive Reason where
  | mismatch
  | occurs (var : TypeVar) (type : Ty)
  | arity (expected found : Nat)
  | missingField (name : String)
  | notARecord (required : List String)
  | kindMismatch
  | escapingQuantifier (var : TypeVar)
  /-- The comparison went deeper than any type of its problem. -/
  | outOfFuel

/-- Two types that cannot be made equal. -/
structure Contradiction where
  reason : Reason
  expected : Ty
  found : Ty
  /-- The record kinds of the variables in both types. -/
  kinds : List (TypeVar × Kind)

namespace Reason

/-- What the reason adds to the two types, in words. -/
def detail : Reason → StateM TypeNames (Option String)
  | mismatch => return none
  | occurs v t => do
      let var ← TypeNames.nameFor v
      let type ← t.print .arrow
      return some s!"the type variable {var} occurs inside {type}"
  | arity expected found =>
      return some s!"type arity mismatch: expected {expected} component(s) but found {found}"
  | missingField name => return some s!"missing field '{name}'"
  | notARecord required => do
      let names := commas required
      return some s!"a record with field(s) {names} is required"
  | kindMismatch => return some "the quantified kinds differ"
  | escapingQuantifier v => do
      let var ← TypeNames.nameFor v
      return some s!"the quantified variable {var} would escape its scope"
  | outOfFuel => return some "the comparison is too deep"

end Reason

namespace Contradiction

/-- A variable with its kind, in words. -/
def constraint (entry : TypeVar × Kind) : Printer := do
  let var ← TypeNames.nameFor entry.1
  let kind ← entry.2.print
  return s!"{var} :: {kind}"

/-- The contradiction in words. The type that was found is named first. -/
def describe (c : Contradiction) : Printer := do
  let found ← c.found.print .arrow
  let expected ← c.expected.print .arrow
  let constraints ← c.kinds.mapM constraint
  let kinds := if constraints.isEmpty then "" else " where " ++ commas constraints
  let detail ← c.reason.detail
  let detail := match detail with
    | some text => " (" ++ text ++ ")"
    | none => ""
  return s!"this expression has type {found} but is expected of type {expected}" ++ kinds ++ detail

/-- The contradiction in words. -/
def message (c : Contradiction) : String := (c.describe []).1

/-- Where the contradiction shows: at the type found, if that was written somewhere. -/
def range (c : Contradiction) : Range :=
  if c.found.range.isInvalid then c.expected.range else c.found.range

end Contradiction

end FieldML
