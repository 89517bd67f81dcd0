import FieldML.Ty

/-!
# Types without their ranges

Two types are the same when they agree in everything but ranges.
-/

namespace FieldML

mutual

/-- The type with every range replaced by the erased one. -/
def Ty.erase : Ty → Ty
  | .base b _ => .base b .erased
  | .var v _ => .var v .erased
  | .func p q _ => .func p.erase q.erase .erased
  | .list t _ => .list t.erase .erased
  | .ref t _ => .ref t.erase .erased
  | .product ts _ => .product (Ty.eraseList ts) .erased
  | .variant n ts _ => .variant n (Ty.eraseList ts) .erased
  | .synonym n ts t _ => .synonym n (Ty.eraseList ts) t.erase .erased
  | .all v k t _ => .all v k.erase t.erase .erased
  | .record fs _ => .record (Ty.eraseFields fs) .erased

/-- The kind with every range replaced by the erased one. -/
def Kind.erase : Kind → Kind
  | .universal => .universal
  | .record fs => .record (Ty.eraseFields fs)

/-- Some types without their ranges. -/
def Ty.eraseList : List Ty → List Ty
  | [] => []
  | t :: ts => t.erase :: Ty.eraseList ts

/-- Some fields without the ranges of their types. -/
def Ty.eraseFields : List (String × Ty) → List (String × Ty)
  | [] => []
  | (n, t) :: fs => (n, t.erase) :: Ty.eraseFields fs

end

mutual

/-- Whether two types agree up to ranges. -/
def Ty.same : Ty → Ty → Bool
  | .base b _, .base b' _ => b = b'
  | .var v _, .var v' _ => v = v'
  | .func p q _, .func p' q' _ => p.same p' && q.same q'
  | .list t _, .list t' _ => t.same t'
  | .ref t _, .ref t' _ => t.same t'
  | .product ts _, .product ts' _ => Ty.sameList ts ts'
  | .variant n ts _, .variant n' ts' _ => n = n' && Ty.sameList ts ts'
  | .synonym n ts t _, .synonym n' ts' t' _ => n = n' && Ty.sameList ts ts' && t.same t'
  | .all v k t _, .all v' k' t' _ => v = v' && k.same k' && t.same t'
  | .record fs _, .record fs' _ => Ty.sameFields fs fs'
  | _, _ => false

/-- Whether two kinds agree up to ranges. -/
def Kind.same : Kind → Kind → Bool
  | .universal, .universal => true
  | .record fs, .record fs' => Ty.sameFields fs fs'
  | _, _ => false

/-- Whether two lists of types agree up to ranges. -/
def Ty.sameList : List Ty → List Ty → Bool
  | [], [] => true
  | t :: ts, t' :: ts' => t.same t' && Ty.sameList ts ts'
  | _, _ => false

/-- Whether two lists of fields agree up to ranges. -/
def Ty.sameFields : List (String × Ty) → List (String × Ty) → Bool
  | [], [] => true
  | (n, t) :: fs, (n', t') :: fs' => n = n' && t.same t' && Ty.sameFields fs fs'
  | _, _ => false

end

end FieldML
