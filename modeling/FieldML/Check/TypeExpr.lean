import FieldML.Check.Basic
import FieldML.Syntax

/-!
# Types as they are written

What a written type means. In a declaration only the declared parameters may occur. In an annotation
a name for a type variable that was not met before makes a new variable.
-/

namespace FieldML

/-- The type variables that are known by name. -/
structure TypeScope where
  names : List (String × Ty)
  /-- Whether other names make new variables. -/
  isOpen : Bool

namespace Check

/-- The type that a name of a type variable stands for. -/
def typeVariable (name : Ident) (scope : TypeScope) : Check (Ty × TypeScope) := do
  match Fields.get? scope.names name.text with
  | some t => return (t.withRange name.range, scope)
  | none =>
      if scope.isOpen then
        let t ← fresh name.range
        return (t, { scope with names := Fields.insert name.text t scope.names })
      else fail (.unboundTypeParameter name.text) name.range

/-- The base type of this name. -/
def baseType? : String → Option BaseTy
  | "int" => some .int
  | "bool" => some .bool
  | "string" => some .string
  | "unit" => some .unit
  | _ => none

/-- The type constructor of one parameter of this name. -/
def unaryType? : String → Option (Ty → Range → Ty)
  | "list" => some .list
  | "ref" => some .ref
  | _ => none

/-- The type of this name with these arguments. -/
def namedType (name : Ident) (args : List Ty) (range : Range) : Check Ty := do
  let arity (expected : Nat) : Check Ty :=
    fail (.variant (.typeArity name.text expected args.length)) name.range
  match baseType? name.text, unaryType? name.text with
  | some b, _ => if args.isEmpty then return .base b range else arity 0
  | none, some make =>
      match args with
      | [t] => return make t range
      | _ => arity 1
  | none, none => liftVariant ((← get).variants.resolve name.text args range)

mutual

/-- What a written type means. -/
def typeExpr (scope : TypeScope) : TypeExpr → Check (Ty × TypeScope)
  | .var name => typeVariable name scope
  | .named args name range => do
      let (args, scope) ← typeExprs scope args
      return (← namedType name args range, scope)
  | .func param result range => do
      let (param, scope) ← typeExpr scope param
      let (result, scope) ← typeExpr scope result
      return (.func param result range, scope)
  | .product items range => do
      let (items, scope) ← typeExprs scope items
      return (.product items range, scope)
  | .record fields range => do
      let (fields, scope) ← typeExprFields scope [] fields
      return (.record fields range, scope)

/-- What some written types mean. -/
def typeExprs (scope : TypeScope) : List TypeExpr → Check (List Ty × TypeScope)
  | [] => return ([], scope)
  | t :: ts => do
      let (t, scope) ← typeExpr scope t
      let (ts, scope) ← typeExprs scope ts
      return (t :: ts, scope)

/-- What the types of some fields mean, added to the fields before them. -/
def typeExprFields (scope : TypeScope) (before : List (String × Ty)) :
    List (Ident × TypeExpr) → Check (List (String × Ty) × TypeScope)
  | [] => return (before, scope)
  | (name, t) :: fields => do
      let (t, scope) ← typeExpr scope t
      if (Fields.get? before name.text).isSome then fail (.duplicateField name.text) name.range
      else typeExprFields scope (Fields.insert name.text t before) fields

end

/-- What a type means that an expression is annotated with. -/
def annotation (t : TypeExpr) : Check Ty := return (← typeExpr ⟨[], true⟩ t).1

/-- What a type means in a declaration with these parameters. -/
def declaredType (params : List (String × Ty)) (t : TypeExpr) : Check Ty :=
  return (← typeExpr ⟨params, false⟩ t).1

end Check

end FieldML
