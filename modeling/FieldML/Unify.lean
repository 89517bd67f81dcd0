import FieldML.Fields
import FieldML.KindEnv
import FieldML.Substitution
import FieldML.Unify.Contradiction

/-!
# Unification of types with record kinds

Two types are made equal by giving types to variables and by strengthening the kinds of variables. A
record kind is a lower bound: when a variable meets a record type, the fields of its kind are made
equal to those of the record, and when two variables meet, the remaining one has the fields of both.

Every rule below is written over the way the parts of two types are made equal. The rules are tied
together by fuel that is more than any chain of parts can use.
-/

namespace FieldML

/-- What is known about type variables. -/
structure Solver where
  subst : Substitution := {}
  kinds : KindEnv := {}
  /-- The pairs of types that the last comparison led to, the latest first. -/
  compared : List (Ty × Ty) := []

/-- A step of unification, which may fail after it has changed the state. -/
abbrev Unify := ExceptT Reason (StateM Solver)

namespace Unify

/-- How the parts of two types are made equal: the expected part first. -/
abbrev Equate := Ty → Ty → Unify Unit

/-- Gives a type to a variable. -/
def assign (v : TypeVar) (t : Ty) : Unify Unit :=
  modify fun s => { s with subst := s.subst.bind v t }

/-- Gives another kind to a variable. -/
def refine (v : TypeVar) (k : Kind) : Unify Unit :=
  modify fun s => { s with kinds := s.kinds.refine v k }

/-- The kind of a variable. -/
def kindOf (v : TypeVar) : Unify Kind := return (← get).kinds.kindOf v

variable (eq : Equate)

/-- Makes the types of two lists equal one by one. -/
def equateAll : List Ty → List Ty → Unify Unit
  | t :: ts, u :: us => do
      eq t u
      equateAll ts us
  | _, _ => pure ()

/-- Makes the components of two types equal, of which there must be equally many. -/
def components (ts us : List Ty) : Unify Unit :=
  if ts.length = us.length then equateAll eq ts us
  else throw (.arity ts.length us.length)

/-- Makes every field of the first list equal to the field of that name in the second, which must
have it. -/
def fieldwise (fs gs : List (String × Ty)) : Unify Unit :=
  fs.forM fun (name, t) =>
    match Fields.get? gs name with
    | some u => eq t u
    | none => throw (.missingField name)

/-- Makes the fields of two record types equal. -/
def recordFields (fs gs : List (String × Ty)) : Unify Unit :=
  match (Fields.names fs).find? (fun n => (Fields.get? gs n).isNone),
    (Fields.names gs).find? (fun n => (Fields.get? fs n).isNone) with
  | some missing, _ => throw (.missingField missing)
  | none, some extra => throw (.missingField extra)
  | none, none => fieldwise eq fs gs

/-- The weakest kind that implies both: it has the fields of both, and the types of shared fields
are made equal. -/
def mergeKinds : Kind → Kind → Unify Kind
  | .universal, k => return k
  | k, .universal => return k
  | .record fs, .record gs => do
      let merged ← gs.foldlM (fun merged (name, u) =>
        match Fields.get? fs name with
        | some t => do
            eq t u
            return merged
        | none => return Fields.insert name u merged) fs
      return .record merged

/-- Makes a type meet the lower bound of a kind. -/
def satisfy (k : Kind) (t : Ty) : Unify Unit := do
  match k with
  | .universal => pure ()
  | .record required =>
      match ((← get).subst.apply t).expand with
      | .record fs _ => fieldwise eq required fs
      | .var v _ =>
          let merged ← mergeKinds eq k (← kindOf v)
          refine v merged
      | _ => throw (.notARecord (Fields.names required))

/-- Lets an unbound variable stand for another one, which then has the kinds of both. A record kind
that mentions its own variable is refused, since it would describe an infinite record. -/
def joinVars (v w : TypeVar) (range : Range) : Unify Unit := do
  let merged ← mergeKinds eq (← kindOf v) (← kindOf w)
  assign v (.var w range)
  match (← get).subst.applyKind merged with
  | .universal => pure ()
  | .record fs =>
      let shape := Ty.record fs range
      if shape.mentions w then throw (.occurs w shape) else refine w merged

/-- Lets an unbound variable stand for a type, which must not contain it and must meet its kind. -/
def bindVar (v : TypeVar) (t : Ty) : Unify Unit :=
  match t with
  | .var w range => joinVars eq v w range
  | t =>
      if t.mentions v then throw (.occurs v t)
      else do
        assign v t
        satisfy eq (← kindOf v) t

/-- Makes two kinds equal, not only compatible: they need the same fields. -/
def sameKind : Kind → Kind → Unify Unit
  | .universal, .universal => pure ()
  | .record fs, .record gs =>
      if Fields.names fs = Fields.names gs then fieldwise eq fs gs else throw .kindMismatch
  | _, _ => throw .kindMismatch

/-- Whether `w` occurs in what `v` stands for, or in the kind of `v`. -/
def reaches (s : Solver) (v w : TypeVar) : Bool :=
  (s.subst.apply (.var v .erased)).mentions w ||
    (s.subst.applyKind (s.kinds.kindOf v)).freeVars.contains w

/-- Makes two quantified types equal, with one variable for both binders. Afterwards the binder must
be unsolved, and no variable of `outer`, which lie outside both quantifiers, may reach it. -/
def quantified (outer : List TypeVar) (v : TypeVar) (k : Kind) (t : Ty) (w : TypeVar) (k' : Kind)
    (t' : Ty) : Unify Unit := do
  let binder := Ty.var v .erased
  sameKind eq k (k'.substitute w binder)
  eq t (t'.substitute w binder)
  let s ← get
  if (s.subst.find? v).isSome || outer.any (reaches s · v) then throw (.escapingQuantifier v)

/-- Makes two types equal that are resolved at their heads. -/
def heads (t u : Ty) : Unify Unit :=
  match t, u with
  | .var v _, .var w _ => if v = w then pure () else bindVar eq v u
  | .var v _, _ => bindVar eq v u
  | _, .var w _ => bindVar eq w t
  | .base b _, .base c _ => if b = c then pure () else throw .mismatch
  | .func p q _, .func p' q' _ => do
      eq p p'
      eq q q'
  | .list t _, .list u _ => eq t u
  | .ref t _, .ref u _ => eq t u
  | .product ts _, .product us _ => components eq ts us
  | .variant n ts _, .variant m us _ =>
      if n = m then components eq ts us else throw .mismatch
  | .record fs _, .record gs _ => recordFields eq fs gs
  | .all v k a _, .all w l b _ => quantified eq (t.freeVars ++ u.freeVars) v k a w l b
  | _, _ => throw .mismatch

/-- Makes two types equal. -/
def step (expected found : Ty) : Unify Unit := do
  let subst := (← get).subst
  let t := (subst.apply expected).expand
  let u := (subst.apply found).expand
  modify fun s => { s with compared := (t, u) :: s.compared }
  heads eq t u

/-- Makes two types equal, unless that takes more than `n` nested steps. -/
def equate : Nat → Equate
  | 0 => fun _ _ => throw .outOfFuel
  | n + 1 => step (equate n)

end Unify

namespace Solver

instance : Inhabited Solver := ⟨{}⟩

/-- More than the number of nested steps that types of `extra` nodes can lead to. A step goes down
in the types or gives a type to a variable, and that can at most double their depth. -/
def fuel (s : Solver) (extra : Nat) : Nat :=
  let weight := s.subst.weight + s.kinds.weight + extra + 2
  weight * weight * Nat.pow 4 weight

/-- The record kinds of the variables that are free in some types. -/
def recordKindsOf (s : Solver) (types : List Ty) : List (TypeVar × Kind) :=
  (TypeVar.ascending (types.flatMap Ty.freeVars)).filterMap fun v =>
    match s.subst.applyKind (s.kinds.kindOf v) with
    | .record fs => some (v, .record fs)
    | .universal => none

/-- The report that two types cannot be made equal. -/
def contradiction (s : Solver) (reason : Reason) (expected found : Ty) : Contradiction :=
  let expected := s.subst.apply expected
  let found := s.subst.apply found
  ⟨reason, expected, found, s.recordKindsOf [expected, found]⟩

/-- Makes two types equal. A failure changes neither the substitution nor the kinds. -/
def unify (expected found : Ty) (s : Solver) : Except Contradiction Unit × Solver :=
  let eq := Unify.equate (s.fuel (expected.size + found.size))
  match (eq expected found).run { s with compared := [] } with
  | (.ok (), s') => (.ok (), s')
  | (.error reason, s') =>
      (.error (s.contradiction reason expected found), { s with compared := s'.compared })

/-- The weakest kind that implies two kinds. A failure changes neither the substitution nor the
kinds. -/
def unifyKinds (left right : Kind) (s : Solver) : Except Contradiction Kind × Solver :=
  let eq := Unify.equate (s.fuel (left.size + right.size))
  match (Unify.mergeKinds eq left right).run { s with compared := [] } with
  | (.ok kind, s') => (.ok (s'.subst.applyKind kind), s')
  | (.error reason, s') =>
      (.error (s.contradiction reason (.record left.fields .erased) (.record right.fields .erased)),
        { s with compared := s'.compared })

end Solver

end FieldML
