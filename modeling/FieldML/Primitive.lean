import FieldML.Check.Program

/-!
# Primitives

The functions that every program can use, and the environments that every program starts from.
-/

namespace FieldML

/-- A function that every program can use. -/
inductive Primitive where
  | add
  | sub
  | mul
  | div
  | mod
  | lt
  | gt
  | le
  | ge
  | eq
  | ne
  | concat
  | not
  | cons
  | stringOfInt
  | stringOfBool
  | stringLength
  | stringSub
  | listLength
  deriving DecidableEq, Repr, Inhabited

namespace Primitive

/-- The primitives in the order in which they are listed. -/
def all : List Primitive :=
  [add, sub, mul, div, mod, lt, gt, le, ge, eq, ne, concat, not, cons, stringOfInt, stringOfBool,
   stringLength, stringSub, listLength]

/-- The name of a primitive. -/
def name : Primitive → String
  | add => "+"
  | sub => "-"
  | mul => "*"
  | div => "/"
  | mod => "mod"
  | lt => "<"
  | gt => ">"
  | le => "<="
  | ge => ">="
  | eq => "=="
  | ne => "<>"
  | concat => "^"
  | not => "not"
  | cons => "::"
  | stringOfInt => "string_of_int"
  | stringOfBool => "string_of_bool"
  | stringLength => "string_length"
  | stringSub => "string_sub"
  | listLength => "list_length"

/-- Where the types of primitives stem from. -/
def range : Range := .label "primitive"

/-- A base type. -/
def base (b : BaseTy) : Ty := .base b range

/-- The type of functions of some parameters. -/
def arrow (params : List Ty) (result : Ty) : Ty :=
  params.foldr (fun param result => .func param result range) result

/-- The type quantified over one variable. -/
def polymorphic (v : TypeVar) (body : Ty → Ty) : Ty := .all v .universal (body (.var v range)) range

/-- The type of a primitive. -/
def type : Primitive → Ty
  | add | sub | mul | div | mod => arrow [base .int, base .int] (base .int)
  | lt | gt | le | ge => arrow [base .int, base .int] (base .bool)
  | eq => polymorphic 0 fun a => arrow [a, a] (base .bool)
  | ne => polymorphic 1 fun a => arrow [a, a] (base .bool)
  | concat => arrow [base .string, base .string] (base .string)
  | not => arrow [base .bool] (base .bool)
  | cons => polymorphic 2 fun a => arrow [a, .list a range] (.list a range)
  | stringOfInt => arrow [base .int] (base .string)
  | stringOfBool => arrow [base .bool] (base .string)
  | stringLength => arrow [base .string] (base .int)
  | stringSub => arrow [base .string, base .int, base .int] (base .string)
  | listLength => polymorphic 3 fun a => arrow [.list a range] (base .int)

end Primitive

/-- The types of the primitives. -/
def initialTypeEnv : TypeEnv := Fields.ofList (Primitive.all.map fun p => (p.name, p.type))

/-- The variant that every program can use. -/
def initialVariantEnv : VariantEnv where
  definitions := [("option", .variant [4] ["None", "Some"])]
  constructors :=
    [("None", ⟨"option", [4], []⟩), ("Some", ⟨"option", [4], [.var 4 Primitive.range]⟩)]

/-- The environments that every program starts from. -/
def initialEnvironments : Environments := ⟨initialVariantEnv, .empty, initialTypeEnv⟩

end FieldML
