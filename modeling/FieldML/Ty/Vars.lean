import FieldML.Ty

/-!
# Variables of types

One traversal replaces variables, and it knows which binders it is under. Replacing one variable and
applying a substitution are both instances of it. The variables of a synonym are those of its
arguments, since its body mentions no others.
-/

namespace FieldML

/-- What to put in place of a variable, given the binders around it and its range. -/
abbrev Replacement := List TypeVar → TypeVar → Range → Ty

mutual

/-- The type with its variables replaced. -/
def Ty.mapVars (f : Replacement) (bound : List TypeVar) : Ty → Ty
  | .base b r => .base b r
  | .var v r => f bound v r
  | .func p q r => .func (p.mapVars f bound) (q.mapVars f bound) r
  | .list t r => .list (t.mapVars f bound) r
  | .ref t r => .ref (t.mapVars f bound) r
  | .product ts r => .product (Ty.mapVarsList f bound ts) r
  | .variant n ts r => .variant n (Ty.mapVarsList f bound ts) r
  | .synonym n ts t r => .synonym n (Ty.mapVarsList f bound ts) (t.mapVars f bound) r
  | .all v k t r => .all v (k.mapVars f (v :: bound)) (t.mapVars f (v :: bound)) r
  | .record fs r => .record (Ty.mapVarsFields f bound fs) r

/-- The kind with its variables replaced. -/
def Kind.mapVars (f : Replacement) (bound : List TypeVar) : Kind → Kind
  | .universal => .universal
  | .record fs => .record (Ty.mapVarsFields f bound fs)

/-- Some types with their variables replaced. -/
def Ty.mapVarsList (f : Replacement) (bound : List TypeVar) : List Ty → List Ty
  | [] => []
  | t :: ts => t.mapVars f bound :: Ty.mapVarsList f bound ts

/-- The types of some fields with their variables replaced. -/
def Ty.mapVarsFields (f : Replacement) (bound : List TypeVar) :
    List (String × Ty) → List (String × Ty)
  | [] => []
  | (n, t) :: fs => (n, t.mapVars f bound) :: Ty.mapVarsFields f bound fs

end

/-- One variable gives way to a type where it is free. -/
def Replacement.single (v : TypeVar) (t : Ty) : Replacement := fun bound w r =>
  if w = v ∧ v ∉ bound then t else .var w r

/-- The type with `t` for the free variable `v`. -/
def Ty.substitute (s : Ty) (v : TypeVar) (t : Ty) : Ty := s.mapVars (.single v t) []

/-- The kind with `t` for the free variable `v`. -/
def Kind.substitute (k : Kind) (v : TypeVar) (t : Ty) : Kind := k.mapVars (.single v t) []

mutual

/-- The free variables under some binders, from left to right and as often as they occur. -/
def Ty.freeVarsUnder (bound : List TypeVar) : Ty → List TypeVar
  | .base _ _ => []
  | .var v _ => if v ∈ bound then [] else [v]
  | .func p q _ => p.freeVarsUnder bound ++ q.freeVarsUnder bound
  | .list t _ => t.freeVarsUnder bound
  | .ref t _ => t.freeVarsUnder bound
  | .product ts _ => Ty.freeVarsOfList bound ts
  | .variant _ ts _ => Ty.freeVarsOfList bound ts
  | .synonym _ ts _ _ => Ty.freeVarsOfList bound ts
  | .all v k t _ => k.freeVarsUnder (v :: bound) ++ t.freeVarsUnder (v :: bound)
  | .record fs _ => Ty.freeVarsOfFields bound fs

/-- The free variables of a kind under some binders. -/
def Kind.freeVarsUnder (bound : List TypeVar) : Kind → List TypeVar
  | .universal => []
  | .record fs => Ty.freeVarsOfFields bound fs

/-- The free variables of some types. -/
def Ty.freeVarsOfList (bound : List TypeVar) : List Ty → List TypeVar
  | [] => []
  | t :: ts => t.freeVarsUnder bound ++ Ty.freeVarsOfList bound ts

/-- The free variables of the types of some fields. -/
def Ty.freeVarsOfFields (bound : List TypeVar) : List (String × Ty) → List TypeVar
  | [] => []
  | (_, t) :: fs => t.freeVarsUnder bound ++ Ty.freeVarsOfFields bound fs

end

/-- The free variables of a type. -/
def Ty.freeVars (t : Ty) : List TypeVar := t.freeVarsUnder []

/-- The free variables of a kind. -/
def Kind.freeVars (k : Kind) : List TypeVar := k.freeVarsUnder []

/-- Whether the variable is free in the type. -/
def Ty.mentions (t : Ty) (v : TypeVar) : Bool := t.freeVars.contains v

mutual

/-- Every variable in the type, binders and the bodies of synonyms included. -/
def Ty.allVars : Ty → List TypeVar
  | .base _ _ => []
  | .var v _ => [v]
  | .func p q _ => p.allVars ++ q.allVars
  | .list t _ => t.allVars
  | .ref t _ => t.allVars
  | .product ts _ => Ty.allVarsOfList ts
  | .variant _ ts _ => Ty.allVarsOfList ts
  | .synonym _ ts t _ => Ty.allVarsOfList ts ++ t.allVars
  | .all v k t _ => v :: (k.allVars ++ t.allVars)
  | .record fs _ => Ty.allVarsOfFields fs

/-- Every variable in the kind. -/
def Kind.allVars : Kind → List TypeVar
  | .universal => []
  | .record fs => Ty.allVarsOfFields fs

/-- Every variable in some types. -/
def Ty.allVarsOfList : List Ty → List TypeVar
  | [] => []
  | t :: ts => t.allVars ++ Ty.allVarsOfList ts

/-- Every variable in the types of some fields. -/
def Ty.allVarsOfFields : List (String × Ty) → List TypeVar
  | [] => []
  | (_, t) :: fs => t.allVars ++ Ty.allVarsOfFields fs

end

/-- The variables of a list in ascending order, each once. -/
def TypeVar.ascending (vars : List TypeVar) : List TypeVar :=
  (vars.mergeSort (· ≤ ·)).eraseDups

/-- The least variable above all of these. -/
def TypeVar.above (vars : List TypeVar) : TypeVar := vars.foldl (fun next v => max next (v + 1)) 0

theorem Ty.mapVarsList_eq_map (f : Replacement) (bound : List TypeVar) (ts : List Ty) :
    Ty.mapVarsList f bound ts = ts.map (Ty.mapVars f bound) := by
  induction ts with
  | nil => rfl
  | cons t ts ih => simp [Ty.mapVarsList, ih]

theorem Ty.mapVarsFields_eq_map (f : Replacement) (bound : List TypeVar)
    (fs : List (String × Ty)) :
    Ty.mapVarsFields f bound fs = fs.map fun (n, t) => (n, t.mapVars f bound) := by
  induction fs with
  | nil => rfl
  | cons field fs ih =>
      obtain ⟨n, t⟩ := field
      simp [Ty.mapVarsFields, ih]

end FieldML
