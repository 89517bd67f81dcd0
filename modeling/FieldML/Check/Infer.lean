import FieldML.Check.Generalize
import FieldML.Check.Pattern
import FieldML.Check.TypeExpr
import FieldML.Coverage

/-!
# Types of expressions

The type of an expression is found from those of its parts, which are made equal where the form of
the expression asks for it. A `let` gives its name a generalized type. The names of a recursive
group have plain types inside the group and generalized ones after it.
-/

namespace FieldML.Check

/-- Whether the expression is a function as it is written. -/
def isLambda : Expr → Bool
  | .lambda _ _ _ => true
  | _ => false

/-- New variables for the names of a recursive group, all of whose values must be functions. -/
def placeholders (bindings : List (RecBinding Expr)) : Check (List (String × Ty)) := do
  let found ← bindings.foldlM (fun found binding => do
    if !isLambda binding.value then
      fail (.recNotFunction binding.name.text) binding.range
    else if found.any (·.1 = binding.name.text) then
      fail (.duplicateBinding binding.name.text) binding.name.range
    else
      return (binding.name.text, ← fresh binding.name.range) :: found) []
  return found.reverse

/-- The environment with some more names, of which the last one counts. -/
def extendEnv (env : TypeEnv) (names : List (String × Ty)) : TypeEnv :=
  names.foldl (fun env (name, t) => Fields.insert name t env) env

/-- How many arguments a constructor expression gives. -/
def givenArgs : Option Expr → Nat
  | none => 0
  | some (.tuple items _) => items.length
  | some _ => 1

/-- The type of an application of a function of this type, where no more than its type is known. -/
def applyUnknown (func arg : Ty) (funcRange range : Range) : Check Ty := do
  let result ← fresh range
  unify (.func arg result funcRange) func funcRange
  return result

/-- The type of an application. If the function is known to be one, a fault points at the argument.
-/
def applyType (func arg : Ty) (funcRange argRange range : Range) : Check Ty := do
  match (← resolve func).expand with
  | .func param result _ => do
      unify param arg argRange
      return result.withRange range
  | _ => applyUnknown func arg funcRange range

/-- Remarks on arms that are never selected, and refuses the match, or remarks on it, if it has no
arm for some value. -/
def checkCoverage (arms : List (CoreArm Core)) (armRanges : List Range) (range : Range) :
    Check Unit := do
  let found := Coverage.analyze (← get).variants (arms.map (·.pattern))
  found.unused.forM fun i => warn ⟨.unusedArm, armRanges.getD i range⟩
  match found.missing with
  | none => pure ()
  | some missing =>
      match (← read).exhaustiveness with
      | .error => fail (.nonExhaustive missing) range
      | .warn => warn ⟨.nonExhaustive missing, range⟩

/-- The type that a `let` gives to the name of a value of this type. -/
def letScheme (value : Expr) (t : Ty) (env : TypeEnv) : Check Ty :=
  if value.isValue then generalize t env else return t

mutual

/-- The elaborated form of an expression, and its type. -/
def infer (env : TypeEnv) : Expr → Check (Core × Ty)
  | .literal v range => return (.literal v, literalType v range)
  | .var name => do
      match Fields.get? env name.text with
      | some scheme => return (.var name.text, ← instantiate scheme name.range)
      | none => fail (.unboundVariable name.text) name.range
  | .lambda param body range => do
      let paramTy ← fresh param.range
      let (body, bodyTy) ← infer (Fields.insert param.text paramTy env) body
      return (.lambda param.text paramTy body, .func paramTy bodyTy range)
  | .apply func arg range => do
      let (funcCore, funcTy) ← infer env func
      let (argCore, argTy) ← infer env arg
      return (.apply funcCore argCore, ← applyType funcTy argTy func.range arg.range range)
  | .letIn name value body _ => do
      let (valueCore, valueTy) ← infer env value
      let scheme ← letScheme value valueTy env
      let (body, bodyTy) ← infer (Fields.insert name.text scheme env) body
      return (.letIn name.text scheme valueCore body, bodyTy)
  | .letRec bindings body _ => do
      let names ← placeholders bindings
      let values ← inferBindings (extendEnv env names) (names.map (·.2)) bindings
      let schemes ← names.mapM fun (name, t) => return (name, ← generalize t env)
      let (body, bodyTy) ← infer (extendEnv env schemes) body
      let bindings := (schemes.zip values).map fun ((name, scheme), value) =>
        ⟨name, scheme, value⟩
      return (.letRec bindings body, bodyTy)
  | .ifElse cond yes no _ => do
      let (condCore, condTy) ← infer env cond
      unify (.base .bool cond.range) condTy cond.range
      let (yesCore, yesTy) ← infer env yes
      let (noCore, noTy) ← infer env no
      unify yesTy noTy no.range
      return (.ifElse condCore yesCore noCore, yesTy)
  | .list items range => do
      let elem ← fresh range
      let items ← inferAll env elem items
      return (.list items, .list elem range)
  | .tuple items range => do
      let (items, types) ← inferEach env items
      return (.tuple items, .product types range)
  | .record fields range => do
      let (fields, types) ← inferFields env [] fields
      return (.record fields, .record types range)
  | .field base name range => do
      let (baseCore, baseTy) ← infer env base
      let fieldTy ← fresh name.range
      let record ← freshKinded (.record [(name.text, fieldTy)]) range
      unify record baseTy base.range
      return (.field baseCore name.text, fieldTy)
  | .update base fields range => do
      let (baseCore, baseTy) ← infer env base
      let (fields, types) ← inferFields env [] fields
      let record ← freshKinded (.record types) range
      unify record baseTy base.range
      return (.update baseCore fields, baseTy)
  | .construct ctor arg range => do
      let (variant, types) ← instantiateConstructor ctor
      let args ← inferArgs env types
        (fail (.constructorArity ctor.text types.length (givenArgs arg)) range) arg
      return (.construct ctor.text args, variant.withRange range)
  | .caseOf scrutinee arms range => do
      let (scrutinee, scrutineeTy) ← infer env scrutinee
      let result ← fresh range
      let coreArms ← inferArms env scrutineeTy result arms
      checkCoverage coreArms (arms.map (·.range)) range
      return (.caseOf scrutinee scrutineeTy coreArms, result)
  | .ref value range => do
      let (value, t) ← infer env value
      return (.ref value, .ref t range)
  | .deref target range => do
      let (targetCore, targetTy) ← infer env target
      let content ← fresh range
      unify (.ref content target.range) targetTy target.range
      return (.deref targetCore, content)
  | .assign target value range => do
      let (targetCore, targetTy) ← infer env target
      let (valueCore, valueTy) ← infer env value
      let content ← fresh range
      unify (.ref content target.range) targetTy target.range
      unify content valueTy value.range
      return (.assign targetCore valueCore, .base .unit range)
  | .sequence first second _ => do
      let (firstCore, firstTy) ← infer env first
      unify (.base .unit first.range) firstTy first.range
      let (secondCore, secondTy) ← infer env second
      return (.sequence firstCore secondCore, secondTy)
  | .annot body type _ => do
      let (core, found) ← infer env body
      let expected ← annotation type
      unify expected found body.range
      return (.annot core expected, expected)

/-- The elaborated forms of some expressions, all of which must have one type. -/
def inferAll (env : TypeEnv) (elem : Ty) : List Expr → Check (List Core)
  | [] => return []
  | e :: es => do
      let (core, t) ← infer env e
      unify elem t e.range
      return core :: (← inferAll env elem es)

/-- The elaborated forms of some expressions, and the type of each. -/
def inferEach (env : TypeEnv) : List Expr → Check (List Core × List Ty)
  | [] => return ([], [])
  | e :: es => do
      let (core, t) ← infer env e
      let (cores, ts) ← inferEach env es
      return (core :: cores, t :: ts)

/-- The elaborated forms of some expressions, each of which must have a given type. -/
def inferAgainst (env : TypeEnv) (types : List Ty) : List Expr → Check (List Core)
  | [] => return []
  | e :: es => do
      match types with
      | [] => return []
      | type :: types =>
          let (core, found) ← infer env e
          unify type found e.range
          return core :: (← inferAgainst env types es)

/-- The elaborated arguments of a constructor that takes arguments of these types. -/
def inferArgs (env : TypeEnv) (types : List Ty) (wrongArity : Check (List Core)) :
    Option Expr → Check (List Core)
  | none => if types.isEmpty then return [] else wrongArity
  | some arg =>
      match types with
      | [] => wrongArity
      | [type] => do
          let (core, found) ← infer env arg
          unify type found arg.range
          return [core]
      | types =>
          match arg with
          | .tuple items _ =>
              if items.length = types.length then inferAgainst env types items else wrongArity
          | _ => wrongArity

/-- The elaborated values of some fields, and the types of these and the fields before them. -/
def inferFields (env : TypeEnv) (before : List (String × Ty)) :
    List (Ident × Expr) → Check (List (String × Core) × List (String × Ty))
  | [] => return ([], before)
  | (name, value) :: fields => do
      let (core, t) ← infer env value
      if (Fields.get? before name.text).isSome then fail (.duplicateField name.text) name.range
      else
        let (cores, types) ← inferFields env (Fields.insert name.text t before) fields
        return ((name.text, core) :: cores, types)

/-- The elaborated values of a recursive group, each of which must have a given type. -/
def inferBindings (env : TypeEnv) (types : List Ty) :
    List (RecBinding Expr) → Check (List Core)
  | [] => return []
  | ⟨_, value, range⟩ :: bindings => do
      match types with
      | [] => return []
      | type :: types =>
          let (core, found) ← infer env value
          unify type found range
          return core :: (← inferBindings env types bindings)

/-- The elaborated arms of a match on values of one type, all of which must have the type of the
result. -/
def inferArms (env : TypeEnv) (scrutinee result : Ty) :
    List (MatchArm Expr) → Check (List (CoreArm Core))
  | [] => return []
  | ⟨pat, body, _⟩ :: arms => do
      let (pat, bindings) ← pattern scrutinee [] pat
      let (core, t) ← infer (extendEnv env bindings) body
      unify result t body.range
      return ⟨pat, core⟩ :: (← inferArms env scrutinee result arms)

end

end FieldML.Check
