import FieldML.Coverage.Case
import FieldML.Diagnostic
import FieldML.KindEnv
import FieldML.Unify.Contradiction
import FieldML.VariantEnv

/-!
# Faults of types

Why a program is refused by the checker, and what it remarks on in a program that it accepts.
-/

namespace FieldML

/-- Why a program does not check. -/
inductive TypeError.Cause where
  | unboundVariable (name : String)
  | contradiction (c : Contradiction)
  | variant (cause : VariantError.Cause)
  | alreadyKinded (cause : AlreadyKinded)
  | constructorArity (name : String) (expected found : Nat)
  | duplicateBinding (name : String)
  | duplicateField (name : String)
  | nonExhaustive (missing : Case)
  | recNotFunction (name : String)
  | unboundTypeParameter (name : String)

/-- A fault in the types of a program, and where it is. -/
structure TypeError where
  cause : TypeError.Cause
  range : Range

/-- What is remarked on in a program that checks. -/
inductive Warning.Cause where
  | nonExhaustive (missing : Case)
  | unusedArm

/-- A remark on a program, and where it applies. -/
structure Warning where
  cause : Warning.Cause
  range : Range

/-- The remark that a match has no arm for a case. -/
def Coverage.missingMessage (missing : Case) : String :=
  s!"this pattern-matching is not exhaustive; for example, {missing.print false} is not matched"

namespace TypeError

/-- The fault in words. -/
def Cause.message : Cause → String
  | unboundVariable name => s!"unbound variable '{name}'"
  | contradiction c => c.message
  | variant cause => cause.message
  | alreadyKinded cause => cause.message
  | constructorArity name expected found =>
      s!"constructor '{name}' expects {expected} argument(s) but is given {found}"
  | duplicateBinding name => s!"'{name}' is bound more than once"
  | duplicateField name => s!"field '{name}' is given more than once"
  | nonExhaustive missing => Coverage.missingMessage missing
  | recNotFunction name => s!"the right-hand side of 'let rec {name}' must be a function"
  | unboundTypeParameter name =>
      s!"the type variable '{name} is not a parameter of this declaration"

/-- The number under which the fault is listed. -/
def Cause.code : Cause → String
  | unboundVariable _ => "E2001"
  | contradiction _ => "E2002"
  | variant _ => "E2003"
  | alreadyKinded _ => "E2004"
  | constructorArity _ _ _ => "E2005"
  | duplicateBinding _ => "E2006"
  | duplicateField _ => "E2007"
  | nonExhaustive _ => "E2008"
  | recNotFunction _ => "E2009"
  | unboundTypeParameter _ => "E2010"

/-- The fault in words, with its place. -/
def message (e : TypeError) : String :=
  match e.cause with
  | .alreadyKinded cause => s!"internal error: {cause.message}"
  | cause => s!"at {e.range.text}: {cause.message}"

/-- The places that explain the fault: where the types were written that do not agree. -/
def labels (e : TypeError) : List Label :=
  match e.cause with
  | .contradiction c =>
      [⟨"expected type written here", c.expected.range⟩,
        ⟨"found type written here", c.found.range⟩].filter fun l => !l.range.isInvalid
  | _ => []

/-- The fault as it is shown. -/
def toDiagnostic (e : TypeError) : Diagnostic :=
  ⟨e.cause.code, .error, e.message, e.range, e.labels⟩

end TypeError

namespace Warning

/-- The remark in words, with its place. -/
def message (w : Warning) : String :=
  let remark := match w.cause with
    | .nonExhaustive missing => Coverage.missingMessage missing
    | .unusedArm => "this match case is unused"
  s!"at {w.range.text}: {remark}"

/-- The number under which the remark is listed. -/
def code (w : Warning) : String :=
  match w.cause with
  | .nonExhaustive _ => "W2008"
  | .unusedArm => "W2011"

/-- The remark as it is shown. -/
def toDiagnostic (w : Warning) : Diagnostic := ⟨w.code, .warning, w.message, w.range, []⟩

end Warning

end FieldML
