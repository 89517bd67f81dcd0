import FieldML.Proofs.Script.Basic

/-!
# The script of a whole check

Written types, declarations, patterns and expressions one after the other. At every expression the
check has the types of the environment at hand, and after it the type that it has found.
-/

namespace FieldML.Check.Script

/-! ### Written types -/

def typeVariable (name : Ident) (scope : TypeScope) : Script (Check.typeVariable name scope) := by
  dsimp only [Check.typeVariable]
  exact match Fields.get? scope.names name.text with
  | some _ => pure _
  | none => ite ((fresh name.range).bind fun _ => pure _) (fail _ _)

def namedType (name : Ident) (args : List Ty) (range : Range) :
    Script (Check.namedType name args range) := by
  dsimp only [Check.namedType]
  exact match baseType? name.text, unaryType? name.text with
  | some _, _ => ite (pure _) (fail _ _)
  | none, some _ =>
      match args with
      | [_] => pure _
      | [] | _ :: _ :: _ => fail _ _
  | none, none => (call .get).bind fun s => call (.resolve s.variants name args range)

mutual

def typeExpr (scope : TypeScope) (e : TypeExpr) : Script (Check.typeExpr scope e) :=
  holding (scope.names.map (·.2)) (fun r => r.1 :: r.2.names.map (·.2)) <|
    match e with
    | .var name => typeVariable name scope
    | .named args name range => (typeExprs scope args).bind fun r =>
        (namedType name r.1 range).bind fun _ => pure _
    | .func param result _ =>
        (typeExpr scope param).bind fun r => (typeExpr r.2 result).bind fun _ => pure _
    | .product items _ => (typeExprs scope items).bind fun _ => pure _
    | .record fields _ => (typeExprFields scope [] fields).bind fun _ => pure _

def typeExprs (scope : TypeScope) (es : List TypeExpr) : Script (Check.typeExprs scope es) :=
  match es with
  | [] => pure _
  | e :: es => (typeExpr scope e).bind fun r => (typeExprs r.2 es).bind fun _ => pure _

def typeExprFields (scope : TypeScope) (before : List (String × Ty))
    (fields : List (Ident × TypeExpr)) : Script (Check.typeExprFields scope before fields) :=
  match fields with
  | [] => pure _
  | (_, e) :: fields => (typeExpr scope e).bind fun r =>
      ite (fail _ _) (typeExprFields r.2 _ fields)

end

def annotated (e : TypeExpr) : Script ( Check.annotation e) :=
  (typeExpr _ e).bind fun _ => pure _

def declaredType (params : List (String × Ty)) (e : TypeExpr) :
    Script (Check.declaredType params e) :=
  (typeExpr _ e).bind fun _ => pure _

/-! ### Declarations -/

def declareParams (decl : TypeDecl) : Script (Check.declareParams decl) :=
  (foldlM (fun _ _ => holding [] (fun r => r.2.map (·.2)) <|
    (call .freshId).bind fun _ => ite (fail _ _) (pure _)) _ _).bind fun _ => pure _

def declareVariant (d : OpenDecl) : Script (Check.declareVariant d) :=
  match d with
  | ⟨.variant _ _ _ _, _, _⟩ =>
      ofEq (declareVariant_variant ..) <| (call .get).bind fun _ => setVariants _
  | ⟨.synonym _ _ _ _, _, _⟩ => pure _

def declareSynonym (d : OpenDecl) : Script (Check.declareSynonym d) :=
  match d with
  | ⟨.variant _ _ _ _, _, _⟩ => pure _
  | ⟨.synonym _ _ body _, _, names⟩ =>
      ofEq (declareSynonym_synonym ..) <|
        (declaredType names body).bind fun _ => (call .get).bind fun _ => setVariants _

def declareConstructors (d : OpenDecl) : Script (Check.declareConstructors d) :=
  match d with
  | ⟨.variant _ _ ctors _, _, names⟩ =>
      ofEq (declareConstructors_variant ..) <|
        forM (fun ctor : CtorDecl => (mapM (declaredType names) ctor.args).bind fun _ =>
          (call .get).bind fun _ => setVariants _) ctors
  | ⟨.synonym _ _ _ _, _, _⟩ => pure _

def declareGroup (group : List TypeDecl) : Script (Check.declareGroup group) :=
  (mapM declareParams group).bind fun decls => (forM declareVariant decls).bind fun _ =>
    (forM declareSynonym decls).bind fun _ => (forM declareConstructors decls).bind fun _ => report _

/-! ### Patterns -/

def bindName (bindings : PatternBindings) (name : Ident) (t : Ty) :
    Script (Check.bindName bindings name t) :=
  ite (fail _ _) (pure _)

def instantiateConstructor (ctor : Ident) : Script (Check.instantiateConstructor ctor) :=
  holding [] (fun r => r.1 :: r.2) <|
    (call .get).bind fun s => (call (.lookupConstructor s.variants ctor)).bind fun c =>
      (mapM (fun _ => fresh ctor.range) c.params).bind fun typeArgs =>
        call (.instantiateArgs c typeArgs ctor.range)

end Script

/-- What is left of the check of a constructor pattern when the argument types are known. -/
def patternArgs (ctor : Ident) (types : List Ty) (bindings : PatternBindings) (range : Range)
    (arg : Option Pattern) : Check (CorePattern × PatternBindings) :=
  let wrongArity : Check (CorePattern × PatternBindings) :=
    fail (.constructorArity ctor.text types.length (givenPatterns arg)) range
  match arg with
  | none => if types.isEmpty then return (.construct ctor.text [], bindings) else wrongArity
  | some arg =>
      match types with
      | [] => wrongArity
      | [type] => do
          let (arg, bindings) ← pattern type bindings arg
          return (.construct ctor.text [arg], bindings)
      | types =>
          match arg with
          | .wildcard _ =>
              return (.construct ctor.text (types.map fun _ => .wildcard), bindings)
          | .tuple items _ =>
              if items.length = types.length then do
                let (items, bindings) ← patterns types bindings items
                return (.construct ctor.text items, bindings)
              else wrongArity
          | _ => wrongArity

theorem pattern_construct (expected : Ty) (bindings : PatternBindings) (ctor : Ident)
    (arg : Option Pattern) (range : Range) :
    pattern expected bindings (.construct ctor arg range) = (do
      let (variant, types) ← instantiateConstructor ctor
      unify expected variant range
      patternArgs ctor types bindings range arg) := by
  rw [pattern]
  rfl

namespace Script

mutual

def pattern (expected : Ty) (bindings : PatternBindings) (p : Pattern) :
    Script (Check.pattern expected bindings p) :=
  holding [expected] (fun r => r.2.map (·.2)) <|
    match p with
    | .wildcard _ => pure _
    | .var name => (bindName bindings name expected).bind fun _ => pure _
    | .literal v range => (unify expected (literalType v range) range).bind fun _ => pure _
    | .tuple items range =>
        (mapM (fun item : Pattern => fresh item.range) items).bind fun types =>
          (unify expected (.product types range) range).bind fun _ =>
            (patterns types bindings items).bind fun _ => pure _
    | .nil range => (fresh range).bind fun elem =>
        (unify expected (.list elem range) range).bind fun _ => pure _
    | .cons head tail range => (fresh head.range).bind fun elem =>
        (unify expected (.list elem range) range).bind fun _ =>
          (pattern elem bindings head).bind fun r =>
            (pattern (.list elem range) r.2 tail).bind fun _ => pure _
    | .construct ctor arg range => ofEq (pattern_construct expected bindings ctor arg range) <|
        (instantiateConstructor ctor).bind fun (variant, types) =>
          (unify expected variant range).bind fun _ => patternArgs ctor types bindings range arg
    | .alias inner name _ => (pattern expected bindings inner).bind fun r =>
        (bindName r.2 name expected).bind fun _ => pure _

def patternArgs (ctor : Ident) (types : List Ty) (bindings : PatternBindings) (range : Range)
    (arg : Option Pattern) : Script (Check.patternArgs ctor types bindings range arg) :=
  match arg with
  | none => ite (pure _) (fail _ _)
  | some arg =>
      match types with
      | [] => fail _ _
      | [type] => (pattern type bindings arg).bind fun _ => pure _
      | type :: type' :: types =>
          match arg with
          | .wildcard _ => pure _
          | .tuple items _ =>
              ite ((patterns (type :: type' :: types) bindings items).bind fun _ => pure _)
                (fail _ _)
          | .var _ | .literal _ _ | .nil _ | .cons _ _ _ | .construct _ _ _ | .alias _ _ _ =>
              fail _ _

def patterns (types : List Ty) (bindings : PatternBindings) (ps : List Pattern) :
    Script (Check.patterns types bindings ps) :=
  match ps with
  | [] => pure _
  | p :: ps =>
      match types with
      | [] => pure _
      | type :: types => (pattern type bindings p).bind fun r =>
          (patterns types r.2 ps).bind fun _ => pure _

end

/-! ### Expressions -/

def generalize (t : Ty) (env : TypeEnv) : Script (Check.generalize t env) :=
  holding [t] (fun u => [u]) <|
    (call .get).bind fun _ => ite (pure _) ((report _).bind fun _ => pure _)

def letScheme (value : Expr) (t : Ty) (env : TypeEnv) : Script (Check.letScheme value t env) :=
  ite (generalize t env) (pure _)

def generalizeAll (names : List (String × Ty)) (env : TypeEnv) : Script (names.mapM
    fun b => (return (b.1, ← Check.generalize b.2 env) : Check (String × Ty))) :=
  mapM (fun b : String × Ty => (generalize b.2 env).bind fun _ => pure _) names

def placeholders (bindings : List (RecBinding Expr)) : Script (Check.placeholders bindings) :=
  (foldlM (fun _ _ => ite (fail _ _) (ite (fail _ _) ((fresh _).bind fun _ => pure _))) _ _).bind
    fun _ => pure _

def applyUnknown (func arg : Ty) (funcRange range : Range) :
    Script (Check.applyUnknown func arg funcRange range) :=
  (fresh range).bind fun _ => (unify _ func funcRange).bind fun _ => pure _

def applyType (func arg : Ty) (funcRange argRange range : Range) :
    Script (Check.applyType func arg funcRange argRange range) :=
  (resolve func).bind fun t =>
    match t.expand with
    | .func param _ _ => (unify param arg argRange).bind fun _ => pure _
    | .base _ _ | .var _ _ | .list _ _ | .ref _ _ | .product _ _ | .variant _ _ _
    | .synonym _ _ _ _ | .record _ _ | .all _ _ _ _ => applyUnknown func arg funcRange range

def checkCoverage (arms : List (CoreArm Core)) (armRanges : List Range) (range : Range) :
    Script (Check.checkCoverage arms armRanges range) :=
  call (.checkCoverage arms armRanges range)

/-- A name with the type that it has in the environment, if it is there. -/
def named (name : Ident) (found : Option Ty) : Script (match found with
    | some scheme => return (.var name.text, ← Check.instantiate scheme name.range)
    | none => Check.fail (.unboundVariable name.text) name.range : Check (Core × Ty)) :=
  match found with
  | some scheme => (instantiate scheme name.range).bind fun _ => pure _
  | none => fail _ _

mutual

def infer (env : TypeEnv) (e : Expr) : Script (Check.infer env e) :=
  holding (env.map (·.2)) (fun r => [r.2]) <|
    match e with
    | .literal _ _ => pure _
    | .var name => named name (Fields.get? env name.text)
    | .lambda param body _ =>
        (fresh param.range).bind fun _ => (infer _ body).bind fun _ => pure _
    | .apply func arg range => (infer env func).bind fun _ => (infer env arg).bind fun _ =>
        (applyType _ _ func.range arg.range range).bind fun _ => pure _
    | .letIn _ value body _ => (infer env value).bind fun _ =>
        (letScheme value _ env).bind fun _ => (infer _ body).bind fun _ => pure _
    | .letRec bindings body _ => (placeholders bindings).bind fun _ =>
        (inferBindings _ _ bindings).bind fun _ =>
          (generalizeAll _ env).bind fun _ => (infer _ body).bind fun _ => pure _
    | .ifElse cond yes no _ => (infer env cond).bind fun _ =>
        (unify _ _ cond.range).bind fun _ => (infer env yes).bind fun _ =>
          (infer env no).bind fun _ => (unify _ _ no.range).bind fun _ => pure _
    | .list items range =>
        (fresh range).bind fun _ => (inferAll env _ items).bind fun _ => pure _
    | .tuple items _ => (inferEach env items).bind fun _ => pure _
    | .record fields _ => (inferFields env [] fields).bind fun _ => pure _
    | .field base name range => (infer env base).bind fun _ => (fresh name.range).bind fun _ =>
        (freshKinded _ range).bind fun _ => (unify _ _ base.range).bind fun _ => pure _
    | .update base fields range => (infer env base).bind fun _ =>
        (inferFields env [] fields).bind fun _ => (freshKinded _ range).bind fun _ =>
          (unify _ _ base.range).bind fun _ => pure _
    | .construct ctor arg range => (instantiateConstructor ctor).bind fun _ =>
        (inferArgs env _ (fail _ range) arg).bind fun _ => pure _
    | .caseOf scrutinee arms range => (infer env scrutinee).bind fun _ =>
        (fresh range).bind fun _ => (inferArms env _ _ arms).bind fun _ =>
          (checkCoverage _ _ range).bind fun _ => pure _
    | .ref value _ => (infer env value).bind fun _ => pure _
    | .deref target range => (infer env target).bind fun _ => (fresh range).bind fun _ =>
        (unify _ _ target.range).bind fun _ => pure _
    | .assign target value range => (infer env target).bind fun _ =>
        (infer env value).bind fun _ => (fresh range).bind fun _ =>
          (unify _ _ target.range).bind fun _ => (unify _ _ value.range).bind fun _ => pure _
    | .sequence first second _ => (infer env first).bind fun _ =>
        (unify _ _ first.range).bind fun _ => (infer env second).bind fun _ => pure _
    | .annot body type _ => (infer env body).bind fun _ => (annotated type).bind fun _ =>
        (unify _ _ body.range).bind fun _ => pure _

def inferAll (env : TypeEnv) (elem : Ty) (es : List Expr) : Script (Check.inferAll env elem es) :=
  match es with
  | [] => pure _
  | e :: es => (infer env e).bind fun _ => (unify elem _ e.range).bind fun _ =>
      (inferAll env elem es).bind fun _ => pure _

def inferEach (env : TypeEnv) (es : List Expr) : Script (Check.inferEach env es) :=
  match es with
  | [] => pure _
  | e :: es => (infer env e).bind fun _ => (inferEach env es).bind fun _ => pure _

def inferAgainst (env : TypeEnv) (types : List Ty) (es : List Expr) :
    Script (Check.inferAgainst env types es) :=
  match es with
  | [] => pure _
  | e :: es =>
      match types with
      | [] => pure _
      | type :: types => (infer env e).bind fun _ => (unify type _ e.range).bind fun _ =>
          (inferAgainst env types es).bind fun _ => pure _

def inferArgs (env : TypeEnv) (types : List Ty) {wrongArity : Check (List Core)}
    (wrong : Script wrongArity) (arg : Option Expr) :
    Script (Check.inferArgs env types wrongArity arg) :=
  match arg with
  | none => ite (pure _) wrong
  | some arg =>
      match types with
      | [] => wrong
      | [type] => (infer env arg).bind fun _ => (unify type _ arg.range).bind fun _ => pure _
      | type :: type' :: types =>
          match arg with
          | .tuple items _ => ite (inferAgainst env (type :: type' :: types) items) wrong
          | .literal _ _ | .var _ | .lambda _ _ _ | .apply _ _ _ | .letIn _ _ _ _
          | .letRec _ _ _ | .ifElse _ _ _ _ | .list _ _ | .record _ _ | .field _ _ _
          | .update _ _ _ | .construct _ _ _ | .caseOf _ _ _ | .ref _ _ | .deref _ _
          | .assign _ _ _ | .sequence _ _ _ | .annot _ _ _ => wrong

def inferFields (env : TypeEnv) (before : List (String × Ty)) (fields : List (Ident × Expr)) :
    Script (Check.inferFields env before fields) :=
  match fields with
  | [] => pure _
  | (_, value) :: fields => (infer env value).bind fun _ =>
      ite (fail _ _) ((inferFields env _ fields).bind fun _ => pure _)

def inferBindings (env : TypeEnv) (types : List Ty) (bindings : List (RecBinding Expr)) :
    Script (Check.inferBindings env types bindings) :=
  match bindings with
  | [] => pure _
  | ⟨_, value, range⟩ :: bindings =>
      match types with
      | [] => pure _
      | type :: types => (infer env value).bind fun _ => (unify type _ range).bind fun _ =>
          (inferBindings env types bindings).bind fun _ => pure _

def inferArms (env : TypeEnv) (scrutinee result : Ty) (arms : List (MatchArm Expr)) :
    Script (Check.inferArms env scrutinee result arms) :=
  match arms with
  | [] => pure _
  | ⟨pat, body, _⟩ :: arms => (pattern scrutinee [] pat).bind fun _ =>
      (infer _ body).bind fun _ => (unify result _ body.range).bind fun _ =>
        (inferArms env scrutinee result arms).bind fun _ => pure _

end

end Script

/-- The part of a check that is done for a program. -/
def session (env : Environments) (p : Program) : Check (Core × Ty) := do
  p.groups.forM declareGroup
  infer env.types p.body

/-- The calls of a whole check. -/
def Script.session (env : Environments) (p : Program) : Script (Check.session env p) :=
  (forM declareGroup p.groups).bind fun _ => infer env.types p.body

theorem outcome_eq_session (env : Environments) (o : CheckOptions) (p : Program) :
    outcome env o p = session env p o (start env.variants env.kinds env.types) := rfl

end FieldML.Check
