import FieldML.Check.Fault
import FieldML.Log
import FieldML.Unify

/-!
# The state of a check

A check hands out type variables in ascending order, starting above every variable of the
environments it is given, and gathers what is known about them. What was reported and remarked stays
when the check fails.
-/

namespace FieldML

/-- What a match without an arm for some value leads to. -/
inductive Exhaustiveness where
  | error
  | warn
  deriving DecidableEq, Repr, Inhabited

/-- How a program is checked. -/
structure CheckOptions where
  exhaustiveness : Exhaustiveness := .error
  traceUnification : Bool := false
  deriving DecidableEq, Repr

/-- The types of the variables in scope, which may be quantified. -/
abbrev TypeEnv := List (String × Ty)

/-- Hands out type variables in ascending order. Their numbers have 32 bits. -/
structure TypeVarGen where
  next : UInt32

/-- The next variable, and the generator after it. Nothing comes of it if the counter overflows: the
process ends then. -/
def TypeVarGen.fresh? (gen : TypeVarGen) : Option (TypeVar × TypeVarGen) :=
  if gen.next.toNat + 1 < UInt32.size then some (gen.next.toNat, ⟨gen.next + 1⟩) else none

/-- What a check has found out so far. -/
structure CheckState where
  variants : VariantEnv
  solver : Solver
  /-- The type variable to hand out next. -/
  next : TypeVar
  /-- All pairs of types that were compared so far, the latest first. -/
  compared : List (Ty × Ty) := []
  /-- All kinds that were given to new variables so far, the latest first. -/
  kinded : List (TypeVar × Kind) := []
  /-- The remarks so far, the latest first. -/
  warnings : List Warning := []
  /-- The events so far, the latest first. -/
  events : List Event := []

/-- The generator in this state, unless its counter has overflowed. -/
def CheckState.gen? (s : CheckState) : Option TypeVarGen :=
  if s.next < UInt32.size then some ⟨.ofNat s.next⟩ else none

/-- A part of a check. -/
abbrev Check := ReaderT CheckOptions (ExceptT TypeError (StateM CheckState))

namespace Check

/-- The state before anything is checked. -/
def start (variants : VariantEnv) (kinds : KindEnv) (env : TypeEnv) : CheckState where
  variants := variants
  solver := { kinds := kinds }
  next := TypeVar.above (variants.allVars ++
    kinds.kinds.toList.flatMap (fun (v, k) => v :: k.allVars) ++ Ty.allVarsOfFields env)

/-- Refuses the program. -/
def fail {α : Type} (cause : TypeError.Cause) (range : Range) : Check α := throw ⟨cause, range⟩

/-- Reports an event. -/
def report (e : Event) : Check Unit := modify fun s => { s with events := e :: s.events }

/-- Makes a remark, which is also reported. -/
def warn (w : Warning) : Check Unit :=
  modify fun s =>
    { s with warnings := w :: s.warnings, events := .warned w.message :: s.events }

/-- A variable that was not handed out before. The state counts on without a bound; where the counter
of a `TypeVarGen` would have overflowed, the outcome of the check is dropped in the end. -/
def freshId : Check TypeVar := modifyGet fun s => (s.next, { s with next := s.next + 1 })

/-- A new variable as a type. -/
def fresh (range : Range) : Check Ty := return .var (← freshId) range

/-- A new variable of this kind as a type. -/
def freshKinded (kind : Kind) (range : Range) : Check Ty := do
  let v ← freshId
  match kind with
  | .universal => pure ()
  | .record _ =>
      match (← get).solver.kinds.extend v kind with
      | .ok kinds =>
          modify fun s =>
            { s with
              solver := { s.solver with kinds := kinds }
              kinded := (v, kind) :: s.kinded }
      | .error cause => fail (.alreadyKinded cause) (.label "kind environment")
  return .var v range

/-- The events that comparisons lead to, the latest first. -/
def comparisonEvents (options : CheckOptions) (compared : List (Ty × Ty)) : List Event :=
  if options.traceUnification then compared.map fun (t, u) => .unifying t u else []

/-- Makes two types equal, and refuses the program at `range` if that is impossible. -/
def unify (expected found : Ty) (range : Range) : Check Unit := do
  let options ← read
  let (result, solver) := (← get).solver.unify expected found
  modify fun s =>
    { s with
      solver := solver
      compared := solver.compared ++ s.compared
      events := comparisonEvents options solver.compared ++ s.events }
  match result with
  | .ok () => pure ()
  | .error c => fail (.contradiction c) range

/-- What a type stands for, as far as is known. -/
def resolve (t : Ty) : Check Ty := return (← get).solver.subst.apply t

/-- The kind of a variable, as far as is known. -/
def kindOf (v : TypeVar) : Check Kind := do
  let solver := (← get).solver
  return solver.subst.applyKind (solver.kinds.kindOf v)

/-- The number of quantifiers at the head of a type. -/
def quantifiers : Ty → Nat
  | .all _ _ t _ => quantifiers t + 1
  | _ => 0

/-- The type under up to `n` quantifiers, with new variables of their kinds for theirs. -/
def openQuantifiers (range : Range) : Nat → Ty → Check Ty
  | n + 1, .all v kind t _ => do
      let var ← freshKinded kind range
      openQuantifiers range n (t.substitute v var)
  | _, t => return t

/-- A copy of a quantified type with new variables. -/
def instantiate (t : Ty) (range : Range) : Check Ty :=
  return (← openQuantifiers range (quantifiers t) t).withRange range

/-- The outcome of using a declared type. -/
def liftVariant {α : Type} : Except VariantError α → Check α
  | .ok a => return a
  | .error e => fail (.variant e.cause) e.range

end Check

end FieldML
