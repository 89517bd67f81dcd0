import FieldML.Proofs.Simple

/-!
# Types without names for bound variables

A bound variable can be given by the number of quantifiers between it and its own one. Two types
agree up to the names of bound variables if they are the same in this form.
-/

namespace FieldML

/-- A variable: the number of quantifiers between it and the one that binds it, or its name if it is
free. -/
inductive NamelessVar where
  | bound (index : Nat)
  | free (var : TypeVar)

mutual

/-- A type in which no quantifier names its variable. There are no ranges and no synonyms in it. -/
inductive NamelessTy where
  | base (base : BaseTy)
  | var (var : NamelessVar)
  | func (param result : NamelessTy)
  | list (elem : NamelessTy)
  | ref (target : NamelessTy)
  | product (items : List NamelessTy)
  | variant (name : String) (args : List NamelessTy)
  | all (kind : NamelessKind) (body : NamelessTy)
  | record (fields : List (String × NamelessTy))

/-- A kind in which no quantifier names its variable. -/
inductive NamelessKind where
  | universal
  | record (fields : List (String × NamelessTy))

end

/-- The variable under these binders, the innermost of which comes first. -/
def NamelessVar.under (bound : List TypeVar) (v : TypeVar) : NamelessVar :=
  if v ∈ bound then .bound (bound.idxOf v) else .free v

mutual

/-- The type under some binders without names for bound variables. -/
def Ty.nameless (bound : List TypeVar) : Ty → NamelessTy
  | .base b _ => .base b
  | .var v _ => .var (.under bound v)
  | .func p q _ => .func (p.nameless bound) (q.nameless bound)
  | .list t _ => .list (t.nameless bound)
  | .ref t _ => .ref (t.nameless bound)
  | .product ts _ => .product (Ty.namelessList bound ts)
  | .variant n ts _ => .variant n (Ty.namelessList bound ts)
  | .synonym _ _ t _ => t.nameless bound
  | .all v k t _ => .all (k.nameless (v :: bound)) (t.nameless (v :: bound))
  | .record fs _ => .record (Ty.namelessFields bound fs)

/-- The kind under some binders without names for bound variables. -/
def Kind.nameless (bound : List TypeVar) : Kind → NamelessKind
  | .universal => .universal
  | .record fs => .record (Ty.namelessFields bound fs)

/-- Some types without names for bound variables. -/
def Ty.namelessList (bound : List TypeVar) : List Ty → List NamelessTy
  | [] => []
  | t :: ts => t.nameless bound :: Ty.namelessList bound ts

/-- The types of some fields without names for bound variables. -/
def Ty.namelessFields (bound : List TypeVar) : List (String × Ty) → List (String × NamelessTy)
  | [] => []
  | (n, t) :: fs => (n, t.nameless bound) :: Ty.namelessFields bound fs

end

/-- The types agree up to the names of bound variables, and up to ranges and synonyms. -/
def Ty.Alpha (t u : Ty) : Prop := t.nameless [] = u.nameless []

mutual

/-- The nameless type with its variables replaced, given how many quantifiers are around. -/
def NamelessTy.mapVars (f : Nat → NamelessVar → NamelessTy) (depth : Nat) : NamelessTy → NamelessTy
  | .base b => .base b
  | .var x => f depth x
  | .func p q => .func (p.mapVars f depth) (q.mapVars f depth)
  | .list t => .list (t.mapVars f depth)
  | .ref t => .ref (t.mapVars f depth)
  | .product ts => .product (NamelessTy.mapVarsList f depth ts)
  | .variant n ts => .variant n (NamelessTy.mapVarsList f depth ts)
  | .all k t => .all (k.mapVars f (depth + 1)) (t.mapVars f (depth + 1))
  | .record fs => .record (NamelessTy.mapVarsFields f depth fs)

/-- The nameless kind with its variables replaced. -/
def NamelessKind.mapVars (f : Nat → NamelessVar → NamelessTy) (depth : Nat) :
    NamelessKind → NamelessKind
  | .universal => .universal
  | .record fs => .record (NamelessTy.mapVarsFields f depth fs)

/-- Some nameless types with their variables replaced. -/
def NamelessTy.mapVarsList (f : Nat → NamelessVar → NamelessTy) (depth : Nat) :
    List NamelessTy → List NamelessTy
  | [] => []
  | t :: ts => t.mapVars f depth :: NamelessTy.mapVarsList f depth ts

/-- The nameless types of some fields with their variables replaced. -/
def NamelessTy.mapVarsFields (f : Nat → NamelessVar → NamelessTy) (depth : Nat) :
    List (String × NamelessTy) → List (String × NamelessTy)
  | [] => []
  | (n, t) :: fs => (n, t.mapVars f depth) :: NamelessTy.mapVarsFields f depth fs

end

mutual

/-- The free variables of a nameless type, as often as they occur. -/
def NamelessTy.freeVars : NamelessTy → List TypeVar
  | .base _ | .var (.bound _) => []
  | .var (.free v) => [v]
  | .func p q => p.freeVars ++ q.freeVars
  | .list t => t.freeVars
  | .ref t => t.freeVars
  | .product ts => NamelessTy.freeVarsOfList ts
  | .variant _ ts => NamelessTy.freeVarsOfList ts
  | .all k t => k.freeVars ++ t.freeVars
  | .record fs => NamelessTy.freeVarsOfFields fs

/-- The free variables of a nameless kind. -/
def NamelessKind.freeVars : NamelessKind → List TypeVar
  | .universal => []
  | .record fs => NamelessTy.freeVarsOfFields fs

/-- The free variables of some nameless types. -/
def NamelessTy.freeVarsOfList : List NamelessTy → List TypeVar
  | [] => []
  | t :: ts => t.freeVars ++ NamelessTy.freeVarsOfList ts

/-- The free variables of the nameless types of some fields. -/
def NamelessTy.freeVarsOfFields : List (String × NamelessTy) → List TypeVar
  | [] => []
  | (_, t) :: fs => t.freeVars ++ NamelessTy.freeVarsOfFields fs

end

namespace NamelessTy

variable {f : Nat → NamelessVar → NamelessTy} {depth : Nat} {ts : List NamelessTy}
  {fs : List (String × NamelessTy)}

theorem mapVarsList_eq_map : mapVarsList f depth ts = ts.map (mapVars f depth) := by
  induction ts with
  | nil => rfl
  | cons t ts ih => exact congrArg (_ :: ·) ih

theorem mapVarsFields_eq_map :
    mapVarsFields f depth fs = fs.map fun p => (p.1, p.2.mapVars f depth) := by
  induction fs with
  | nil => rfl
  | cons p fs ih => exact congrArg (_ :: ·) ih

@[simp] theorem mapVars_base (b : BaseTy) : (base b).mapVars f depth = .base b := rfl

@[simp] theorem mapVars_var (x : NamelessVar) : (var x).mapVars f depth = f depth x := rfl

@[simp] theorem mapVars_func (p q : NamelessTy) :
    (func p q).mapVars f depth = .func (p.mapVars f depth) (q.mapVars f depth) := rfl

@[simp] theorem mapVars_list (t : NamelessTy) :
    (list t).mapVars f depth = .list (t.mapVars f depth) := rfl

@[simp] theorem mapVars_ref (t : NamelessTy) :
    (ref t).mapVars f depth = .ref (t.mapVars f depth) := rfl

@[simp] theorem mapVars_product :
    (product ts).mapVars f depth = .product (ts.map (mapVars f depth)) :=
  congrArg product mapVarsList_eq_map

@[simp] theorem mapVars_variant (n : String) :
    (variant n ts).mapVars f depth = .variant n (ts.map (mapVars f depth)) :=
  congrArg (variant n) mapVarsList_eq_map

@[simp] theorem mapVars_all (k : NamelessKind) (t : NamelessTy) :
    (all k t).mapVars f depth = .all (k.mapVars f (depth + 1)) (t.mapVars f (depth + 1)) := rfl

@[simp] theorem mapVars_record :
    (record fs).mapVars f depth = .record (fs.map fun p => (p.1, p.2.mapVars f depth)) :=
  congrArg record mapVarsFields_eq_map

@[simp] theorem mapVars_kindRecord :
    (NamelessKind.record fs).mapVars f depth =
      .record (fs.map fun p => (p.1, p.2.mapVars f depth)) :=
  congrArg NamelessKind.record mapVarsFields_eq_map

theorem mem_freeVarsOfList {v : TypeVar} :
    v ∈ freeVarsOfList ts ↔ ∃ t ∈ ts, v ∈ t.freeVars := by
  induction ts with
  | nil => simp [freeVarsOfList]
  | cons t ts ih => simp [freeVarsOfList, ih]

theorem mem_freeVarsOfFields {v : TypeVar} :
    v ∈ freeVarsOfFields fs ↔ ∃ p ∈ fs, v ∈ p.2.freeVars := by
  induction fs with
  | nil => simp [freeVarsOfFields]
  | cons p fs ih => simp [freeVarsOfFields, ih]

end NamelessTy

namespace Ty

variable {bound : List TypeVar} {t : Ty} {v : TypeVar} {r : Range} {ts : List Ty}
  {fs : List (String × Ty)} {k : Kind}

theorem namelessList_eq_map : namelessList bound ts = ts.map (nameless bound) := by
  induction ts with
  | nil => rfl
  | cons t ts ih => exact congrArg (_ :: ·) ih

theorem namelessFields_eq_map :
    namelessFields bound fs = fs.map fun p => (p.1, p.2.nameless bound) := by
  induction fs with
  | nil => rfl
  | cons p fs ih => exact congrArg (_ :: ·) ih

@[simp] theorem nameless_base (b : BaseTy) : (base b r).nameless bound = .base b := rfl

@[simp] theorem nameless_var : (var v r).nameless bound = .var (.under bound v) := rfl

@[simp] theorem nameless_func (p q : Ty) :
    (func p q r).nameless bound = .func (p.nameless bound) (q.nameless bound) := rfl

@[simp] theorem nameless_list : (list t r).nameless bound = .list (t.nameless bound) := rfl

@[simp] theorem nameless_ref : (ref t r).nameless bound = .ref (t.nameless bound) := rfl

@[simp] theorem nameless_product :
    (product ts r).nameless bound = .product (ts.map (nameless bound)) :=
  congrArg NamelessTy.product namelessList_eq_map

@[simp] theorem nameless_variant (n : String) :
    (variant n ts r).nameless bound = .variant n (ts.map (nameless bound)) :=
  congrArg (NamelessTy.variant n) namelessList_eq_map

@[simp] theorem nameless_all :
    (all v k t r).nameless bound = .all (k.nameless (v :: bound)) (t.nameless (v :: bound)) := rfl

@[simp] theorem nameless_record :
    (record fs r).nameless bound = .record (fs.map fun p => (p.1, p.2.nameless bound)) :=
  congrArg NamelessTy.record namelessFields_eq_map

@[simp] theorem nameless_kindRecord :
    (Kind.record fs).nameless bound = .record (fs.map fun p => (p.1, p.2.nameless bound)) :=
  congrArg NamelessKind.record namelessFields_eq_map

end Ty

namespace NamelessVar

variable {Θ Δ : List TypeVar} {v : TypeVar}

theorem under_of_notMem (hv : v ∉ Δ) : under Δ v = .free v := if_neg hv

theorem under_append_of_mem (hv : v ∈ Θ) : under (Θ ++ Δ) v = .bound (Θ.idxOf v) := by
  rw [under, if_pos (List.mem_append_left Δ hv), List.idxOf_append_of_mem hv]

theorem under_append_singleton (hv : v ∉ Θ) : under (Θ ++ [v]) v = .bound Θ.length := by
  rw [under, if_pos (by simp), List.idxOf_append_of_notMem hv]
  simp

end NamelessVar

end FieldML
