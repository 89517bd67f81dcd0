import FieldML.Source.Range

/-!
# Types and kinds

A type variable has a kind. The universal kind allows every type; a record kind allows the record
types that have at least its fields, at the types it gives. Every node of a type carries the range
it stems from, which never changes what the type means.
-/

namespace FieldML

/-- A type variable. Variables are numbered in the order in which they are made. -/
abbrev TypeVar := Nat

/-- The types without parts. -/
inductive BaseTy where
  | unit
  | bool
  | int
  | string
  deriving DecidableEq, Repr, Inhabited

mutual

/-- A type. A synonym keeps the type it stands for next to its name; a quantifier binds its variable
in the kind as well as in the body. -/
inductive Ty where
  | base (base : BaseTy) (range : Range)
  | var (var : TypeVar) (range : Range)
  | func (param result : Ty) (range : Range)
  | list (elem : Ty) (range : Range)
  | ref (target : Ty) (range : Range)
  | product (items : List Ty) (range : Range)
  | variant (name : String) (args : List Ty) (range : Range)
  | synonym (name : String) (args : List Ty) (body : Ty) (range : Range)
  | all (var : TypeVar) (kind : Kind) (body : Ty) (range : Range)
  | record (fields : List (String × Ty)) (range : Range)

/-- What types a type variable may stand for. -/
inductive Kind where
  | universal
  | record (fields : List (String × Ty))

end

instance : Inhabited Ty := ⟨.base .unit .erased⟩

instance : Inhabited Kind := ⟨.universal⟩

namespace Ty

/-- Where the type stems from. -/
def range : Ty → Range
  | base _ r | var _ r | func _ _ r | list _ r | ref _ r | product _ r | variant _ _ r
  | synonym _ _ _ r | all _ _ _ r | record _ r => r

/-- The same type with another outer range. -/
def withRange (r : Range) : Ty → Ty
  | base b _ => base b r
  | var v _ => var v r
  | func p q _ => func p q r
  | list t _ => list t r
  | ref t _ => ref t r
  | product ts _ => product ts r
  | variant n ts _ => variant n ts r
  | synonym n ts t _ => synonym n ts t r
  | all v k t _ => all v k t r
  | record fs _ => record fs r

/-- What the type stands for once synonyms at its head are resolved. -/
def expand : Ty → Ty
  | synonym _ _ body _ => body.expand
  | t => t

@[simp] theorem range_withRange (r : Range) (t : Ty) : (t.withRange r).range = r := by
  cases t <;> rfl

end Ty

/-- The fields that a kind asks for. -/
def Kind.fields : Kind → List (String × Ty)
  | universal => []
  | record fields => fields

mutual

/-- The number of nodes of a type. -/
def Ty.size : Ty → Nat
  | .base _ _ | .var _ _ => 1
  | .func p q _ => p.size + q.size + 1
  | .list t _ => t.size + 1
  | .ref t _ => t.size + 1
  | .product ts _ => Ty.sizeList ts + 1
  | .variant _ ts _ => Ty.sizeList ts + 1
  | .synonym _ ts t _ => Ty.sizeList ts + t.size + 1
  | .all _ k t _ => k.size + t.size + 1
  | .record fs _ => Ty.sizeFields fs + 1

/-- The number of nodes of a kind. -/
def Kind.size : Kind → Nat
  | .universal => 1
  | .record fs => Ty.sizeFields fs + 1

/-- The number of nodes of some types. -/
def Ty.sizeList : List Ty → Nat
  | [] => 0
  | t :: ts => t.size + Ty.sizeList ts

/-- The number of nodes of the types of some fields. -/
def Ty.sizeFields : List (String × Ty) → Nat
  | [] => 0
  | (_, t) :: fs => t.size + Ty.sizeFields fs

end

end FieldML
