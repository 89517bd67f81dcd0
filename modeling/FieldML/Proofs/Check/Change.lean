import FieldML.Check.Declare
import FieldML.Proofs.Check.Basic

/-!
# Changes of the declared types

A change of the tables is made step by step, and yet a declaration is made as a whole or not at all:
every reason to refuse it is found before the first step.
-/

namespace FieldML

namespace VariantEnv

variable (env : VariantEnv)

/-- The tables with one more type, unless its name is taken. -/
def define (name : String) (d : TypeDefinition) (range : Range) : Except VariantError VariantEnv :=
  if (env.definition? name).isSome || builtinNames.contains name then
    .error ⟨.duplicateType name, range⟩
  else .ok { env with definitions := Fields.insert name d env.definitions }

/-- The tables with one more constructor of a variant, unless its name is taken. -/
def addConstructor (variant name : String) (args : List Ty) (range : Range) :
    Except VariantError VariantEnv :=
  if (env.constructor? name).isSome then .error ⟨.duplicateConstructor name, range⟩
  else match env.definition? variant with
    | some (.variant params ctors) =>
        let d := TypeDefinition.variant params (ctors ++ [name])
        .ok { definitions := Fields.insert variant d env.definitions
              constructors := Fields.insert name ⟨variant, params, args⟩ env.constructors }
    | _ => .error ⟨.typeNotFound variant, range⟩

/-- The answer to a change, and the tables after it, where these are replaced as a whole. -/
def committed : Except VariantError VariantEnv → Except VariantError Unit × VariantEnv
  | .ok env' => (.ok (), env')
  | .error e => (.error e, env)

namespace Change

/-- The change replaces the tables as a whole, or leaves them and answers with the fault. -/
def Commits (change : Change) (result : VariantEnv → Except VariantError VariantEnv) : Prop :=
  ∀ env, change.run.run env = env.committed (result env)

theorem run_refuse (c : Prop) [Decidable c] (e : VariantError) (rest : Change) :
    ((if c then throw e else pure ()) >>= fun _ => rest : Change).run.run env =
      if c then (.error e, env) else rest.run.run env := by
  split <;> rfl

theorem commits_define (name : String) (d : TypeDefinition) (range : Range) :
    Commits (do ensureNew name range; insertDefinition name d) fun env =>
      env.define name d range := by
  intro env
  refine (run_refuse env _ _ _).trans ?_
  dsimp only [define]
  split <;> rfl

theorem commits_declareVariant (name : String) (params : List TypeVar) (range : Range) :
    (declareVariant name params range).Commits fun env =>
      env.define name (.variant params []) range :=
  commits_define name _ range

theorem commits_addSynonym (name : String) (params : List TypeVar) (body : Ty) (range : Range) :
    (addSynonym name params body range).Commits fun env =>
      env.define name (.synonym params body) range :=
  commits_define name _ range

theorem run_appendConstructor (variant name : String) (args : List Ty) (range : Range) :
    (appendConstructor variant name args range).run.run env =
      match env.definition? variant with
      | some (.variant params ctors) =>
          (do
            insertDefinition variant (.variant params (ctors ++ [name]))
            insertConstructor name ⟨variant, params, args⟩ : Change).run.run env
      | _ => (.error ⟨.typeNotFound variant, range⟩, env) := by
  change StateT.run (ExceptT.run (match env.definition? variant with
    | some (.variant params ctors) => do
        insertDefinition variant (.variant params (ctors ++ [name]))
        insertConstructor name ⟨variant, params, args⟩
    | _ => throw ⟨.typeNotFound variant, range⟩)) env = _
  rcases env.definition? variant with _ | ⟨params, ctors⟩ | ⟨params, body⟩ <;> rfl

theorem commits_addConstructor (variant name : String) (args : List Ty) (range : Range) :
    (addConstructor variant name args range).Commits fun env =>
      env.addConstructor variant name args range := by
  intro env
  refine (run_refuse env _ _ _).trans ?_
  dsimp only [VariantEnv.addConstructor]
  split
  · rfl
  · rw [run_appendConstructor]
    rcases env.definition? variant with _ | ⟨params, ctors⟩ | ⟨params, body⟩ <;> rfl

end Change

end VariantEnv

namespace Check

/-- Replaces the declared types. -/
def setVariants (variants : Except VariantError VariantEnv) : Check Unit := do
  let variants ← liftVariant variants
  modify fun s => { s with variants := variants }

theorem changeVariants_eq {change : VariantEnv.Change}
    {result : VariantEnv → Except VariantError VariantEnv} (h : change.Commits result) :
    changeVariants change = (do setVariants (result (← get).variants)) := by
  funext o s
  simp only [changeVariants, bind_apply, get_apply, modify_apply, h s.variants]
  cases result s.variants <;> rfl

section Declarations

variable (vars : List Ident) (name : Ident) (range : Range) (params : List TypeVar)
  (names : List (String × Ty))

theorem declareVariant_variant (ctors : List CtorDecl) :
    declareVariant ⟨.variant vars name ctors range, params, names⟩ = (do
      setVariants ((← get).variants.define name.text (.variant params []) name.range)) :=
  changeVariants_eq (VariantEnv.Change.commits_declareVariant name.text params name.range)

theorem declareSynonym_synonym (body : TypeExpr) :
    declareSynonym ⟨.synonym vars name body range, params, names⟩ = (do
      let body ← declaredType names body
      setVariants ((← get).variants.define name.text (.synonym params body) name.range)) :=
  bind_congr fun body =>
    changeVariants_eq (VariantEnv.Change.commits_addSynonym name.text params body name.range)

theorem declareConstructors_variant (ctors : List CtorDecl) :
    declareConstructors ⟨.variant vars name ctors range, params, names⟩ =
      (ctors.forM fun ctor => do
        let args ← ctor.args.mapM (declaredType names)
        setVariants
          ((← get).variants.addConstructor name.text ctor.name.text args ctor.name.range)) :=
  congrArg ctors.forM <| funext fun ctor => bind_congr fun args => changeVariants_eq <|
    VariantEnv.Change.commits_addConstructor name.text ctor.name.text args ctor.name.range

end Declarations

end Check

end FieldML
