import FieldML.Check.Basic
import FieldML.Syntax

/-!
# Generalization

A type is generalized over the variables that the environment does not mention, where the kind of a
variable counts as mentioned with it. A variable whose kind mentions another one is quantified
inside that one's quantifier. Only expressions that cannot make a reference when they are evaluated
are given a generalized type.
-/

namespace FieldML

namespace TypeVar

/-- The variables of `closed` with those reached from `pending`, of which at most `n` are new. -/
def reach (next : TypeVar → List TypeVar) : Nat → List TypeVar → List TypeVar → List TypeVar
  | _, closed, [] => closed
  | n, closed, v :: pending =>
      if v ∈ closed then reach next n closed pending
      else match n with
        | 0 => closed
        | n + 1 => reach next n (v :: closed) (next v ++ pending)
termination_by n _ pending => (n, pending.length)

/-- The state of a search in depth: the variables met and, in the order in which they were left,
the variables done with. -/
structure Search where
  met : List TypeVar := []
  order : List TypeVar := []

/-- Searches from a variable through those of `among` that it leads to, up to `n` deep. -/
def visit (next : TypeVar → List TypeVar) (among : List TypeVar) :
    Nat → TypeVar → Search → Search
  | 0, _, s => s
  | n + 1, v, s =>
      if v ∈ s.met then s
      else
        let s := (next v).foldl (fun s w => if w ∈ among then visit next among n w s else s)
          { s with met := v :: s.met }
        { s with order := s.order ++ [v] }

/-- The variables in an order in which each comes after those that it leads to. -/
def orderBy (next : TypeVar → List TypeVar) (vars : List TypeVar) : List TypeVar :=
  (vars.foldl (fun s v => visit next vars (vars.length + 1) v s) {}).order

end TypeVar

namespace Check

/-- The variables that the kind of a variable mentions, in ascending order. -/
def kindVars (s : CheckState) (v : TypeVar) : List TypeVar :=
  TypeVar.ascending (s.solver.subst.applyKind (s.solver.kinds.kindOf v)).freeVars

/-- Some variables with those that their kinds mention, and the kinds of those, and so on. -/
def closedUnderKinds (s : CheckState) (vars : List TypeVar) : List TypeVar :=
  TypeVar.reach (kindVars s) s.next [] vars

/-- The variables that some type of the environment mentions. -/
def envVars (s : CheckState) (env : TypeEnv) : List TypeVar :=
  closedUnderKinds s (env.flatMap fun (_, t) => (s.solver.subst.apply t).freeVars)

/-- The variables to quantify in a resolved type, in ascending order. -/
def quantifiable (s : CheckState) (env : TypeEnv) (t : Ty) : List TypeVar :=
  let fixed := envVars s env
  TypeVar.ascending ((closedUnderKinds s t.freeVars).filter (· ∉ fixed))

/-- The type with a quantifier for each variable, the first one outermost. -/
def quantify (s : CheckState) (vars : List TypeVar) (t : Ty) : Ty :=
  vars.foldr
    (fun v body => .all v (s.solver.subst.applyKind (s.solver.kinds.kindOf v)) body t.range) t

/-- The generalized type of an expression of this type. -/
def generalize (t : Ty) (env : TypeEnv) : Check Ty := do
  let s ← get
  let t := s.solver.subst.apply t
  let vars := quantifiable s env t
  if vars.isEmpty then return t
  else
    let scheme := quantify s (TypeVar.orderBy (kindVars s) vars) t
    report (.generalized scheme)
    return scheme

end Check

mutual

/-- Whether evaluating the expression cannot make a reference. -/
def Expr.isValue : Expr → Bool
  | .literal _ _ | .var _ | .lambda _ _ _ => true
  | .construct _ none _ => true
  | .construct _ (some arg) _ => arg.isValue
  | .tuple items _ | .list items _ => Expr.areValues items
  | .record fields _ => Expr.areFieldValues fields
  | .annot body _ _ => body.isValue
  | _ => false

/-- Whether evaluating some expressions cannot make a reference. -/
def Expr.areValues : List Expr → Bool
  | [] => true
  | e :: es => e.isValue && Expr.areValues es

/-- Whether evaluating the values of some fields cannot make a reference. -/
def Expr.areFieldValues : List (Ident × Expr) → Bool
  | [] => true
  | (_, e) :: fields => e.isValue && Expr.areFieldValues fields

end

end FieldML
