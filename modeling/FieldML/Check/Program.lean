import FieldML.Check.Declare
import FieldML.Check.Infer
import FieldML.Ty.Erase

/-!
# Checking programs

A checked program has its elaborated form, its type and, if the type is a variable, the kind of
that; types in it are as far resolved as they can be, and have no ranges.
-/

namespace FieldML

/-- A program that checks. -/
structure Checked where
  core : Core
  type : Ty
  kind : Kind
  /-- What was remarked on, in order. -/
  warnings : List Warning

/-- The environments that a program is checked in. -/
structure Environments where
  variants : VariantEnv
  kinds : KindEnv
  types : TypeEnv

namespace Check

/-- The outcome of a whole check, once all is known about type variables. -/
def finish (s : CheckState) (core : Core) (t : Ty) : Checked :=
  let final (t : Ty) : Ty := (s.solver.subst.apply t).erase
  let type := final t
  let kind := match type with
    | .var v _ => (s.solver.subst.applyKind (s.solver.kinds.kindOf v)).erase
    | _ => .universal
  ⟨core.mapTypes final, type, kind, s.warnings.reverse⟩

/-- The elaborated program and its type, and the state in which the check ends. -/
def outcome (env : Environments) (options : CheckOptions) (p : Program) :
    Except TypeError (Core × Ty) × CheckState :=
  let check : Check (Core × Ty) := do
    p.groups.forM declareGroup
    infer env.types p.body
  ((check.run options).run).run (start env.variants env.kinds env.types)

/-- What a whole check answers when it has come to its end, with the events on the way. -/
def conclude : Except TypeError (Core × Ty) × CheckState → Except TypeError Checked × List Event
  | (.ok (core, t), s) => (.ok (finish s core t), s.events.reverse)
  | (.error e, s) => (.error e, s.events.reverse)

/-- Checks a program, with the events on the way. -/
def program (env : Environments) (options : CheckOptions) (p : Program) :
    Except TypeError Checked × List Event :=
  conclude (outcome env options p)

theorem conclude_outcome (env : Environments) (options : CheckOptions) (p : Program) :
    conclude (outcome env options p) = program env options p :=
  rfl

end Check

end FieldML
