import FieldML.Fields
import FieldML.Ty.Vars

/-!
# Declared types

A variant has parameters and constructors, and a constructor takes arguments whose types mention the
parameters of its variant. A synonym has parameters and the type it stands for. Declarations change
the tables in place, and a declaration whose name is taken is refused.
-/

namespace FieldML

/-- Why a declared type cannot be used or declared. -/
inductive VariantError.Cause where
  | constructorNotFound (name : String)
  | typeNotFound (name : String)
  | typeArity (name : String) (expected found : Nat)
  | duplicateType (name : String)
  | duplicateConstructor (name : String)
  deriving DecidableEq, Repr

/-- A fault in the use or the declaration of a type, and where it is. -/
structure VariantError where
  cause : VariantError.Cause
  range : Range
  deriving DecidableEq, Repr

namespace VariantError

/-- The fault in words. -/
def Cause.message : Cause → String
  | constructorNotFound name => s!"undefined constructor '{name}'"
  | typeNotFound name => s!"undefined type '{name}'"
  | typeArity name expected found =>
      s!"type '{name}' expects {expected} argument(s) but is given {found}"
  | duplicateType name => s!"type '{name}' is defined more than once"
  | duplicateConstructor name => s!"constructor '{name}' is defined more than once"

/-- The fault in words, with its place. -/
def message (e : VariantError) : String := s!"at {e.range.text}: {e.cause.message}"

end VariantError

/-- A constructor: the variant it belongs to, the parameters of that variant, and the types of its
arguments. -/
structure Constructor where
  variant : String
  params : List TypeVar
  args : List Ty

/-- What a type name stands for. -/
inductive TypeDefinition where
  | variant (params : List TypeVar) (ctors : List String)
  | synonym (params : List TypeVar) (body : Ty)

/-- The parameters of a declared type. -/
def TypeDefinition.params : TypeDefinition → List TypeVar
  | variant params _ => params
  | synonym params _ => params

/-- The type with the parameters replaced by arguments, one after the other. -/
def Ty.instantiateParams (params : List TypeVar) (args : List Ty) (t : Ty) : Ty :=
  (params.zip args).foldl (fun t (param, arg) => t.substitute param arg) t

/-- The types of the constructor's arguments where its variant has these type arguments. -/
def Constructor.instantiateArgs (c : Constructor) (typeArgs : List Ty) : List Ty :=
  c.args.map (Ty.instantiateParams c.params typeArgs)

/-- All declared types and constructors. -/
structure VariantEnv where
  definitions : List (String × TypeDefinition) := []
  constructors : List (String × Constructor) := []

namespace VariantEnv

instance : Inhabited VariantEnv := ⟨{}⟩

/-- The names of the types that need no declaration. -/
def builtinNames : List String := ["int", "bool", "string", "unit", "list", "ref"]

/-- The declaration of a type. -/
def definition? (env : VariantEnv) (name : String) : Option TypeDefinition :=
  Fields.get? env.definitions name

/-- The declaration of a constructor. -/
def constructor? (env : VariantEnv) (name : String) : Option Constructor :=
  Fields.get? env.constructors name

/-- The constructors of a variant, in the order of their declaration. -/
def variantCtors? (env : VariantEnv) (name : String) : Option (List String) :=
  match env.definition? name with
  | some (.variant _ ctors) => some ctors
  | _ => none

/-- The declaration of a constructor that is used at a place. -/
def lookupConstructor (env : VariantEnv) (name : String) (range : Range) :
    Except VariantError Constructor :=
  match env.constructor? name with
  | some c => .ok c
  | none => .error ⟨.constructorNotFound name, range⟩

/-- The constructors of a variant that is named at a place. -/
def lookupVariant (env : VariantEnv) (name : String) (range : Range) :
    Except VariantError (List String) :=
  match env.variantCtors? name with
  | some ctors => .ok ctors
  | none => .error ⟨.typeNotFound name, range⟩

/-- The type of this name with these arguments. A synonym is kept with the type it stands for. -/
def resolve (env : VariantEnv) (name : String) (args : List Ty) (range : Range) :
    Except VariantError Ty :=
  match env.definition? name with
  | none => .error ⟨.typeNotFound name, range⟩
  | some d =>
      if d.params.length ≠ args.length then
        .error ⟨.typeArity name d.params.length args.length, range⟩
      else match d with
        | .variant _ _ => .ok (.variant name args range)
        | .synonym params body =>
            .ok (.synonym name args (body.instantiateParams params args) range)

/-- Every variable in the declarations. -/
def allVars (env : VariantEnv) : List TypeVar :=
  env.definitions.flatMap (fun (_, d) => d.params ++ match d with
    | .variant _ _ => []
    | .synonym _ body => body.allVars) ++
  env.constructors.flatMap fun (_, c) => Ty.allVarsOfList c.args

/-- A change of the tables. What was changed before a fault stays changed. -/
abbrev Change := ExceptT VariantError (StateM VariantEnv) Unit

namespace Change

/-- Puts the definition of a type into the table. -/
def insertDefinition (name : String) (d : TypeDefinition) : Change :=
  modify fun env => { env with definitions := Fields.insert name d env.definitions }

/-- Puts a constructor into the table. -/
def insertConstructor (name : String) (c : Constructor) : Change :=
  modify fun env => { env with constructors := Fields.insert name c env.constructors }

/-- Refuses a name of a type that is taken. -/
def ensureNew (name : String) (range : Range) : Change := do
  if ((← get).definition? name).isSome || builtinNames.contains name then
    throw ⟨.duplicateType name, range⟩

/-- Declares a variant that has no constructors yet. -/
def declareVariant (name : String) (params : List TypeVar) (range : Range) : Change := do
  ensureNew name range
  insertDefinition name (.variant params [])

/-- Declares a synonym. -/
def addSynonym (name : String) (params : List TypeVar) (body : Ty) (range : Range) : Change := do
  ensureNew name range
  insertDefinition name (.synonym params body)

/-- Refuses a name of a constructor that is taken. -/
def ensureNewConstructor (name : String) (range : Range) : Change := do
  if ((← get).constructor? name).isSome then
    throw ⟨.duplicateConstructor name, range⟩

/-- Lists the constructor with its variant and declares it. -/
def appendConstructor (variant name : String) (args : List Ty) (range : Range) : Change := do
  match (← get).definition? variant with
  | some (.variant params ctors) =>
      insertDefinition variant (.variant params (ctors ++ [name]))
      insertConstructor name ⟨variant, params, args⟩
  | _ => throw ⟨.typeNotFound variant, range⟩

/-- Declares one more constructor of a variant. -/
def addConstructor (variant name : String) (args : List Ty) (range : Range) : Change := do
  ensureNewConstructor name range
  appendConstructor variant name args range

end Change

end VariantEnv

end FieldML
