import FieldML.Check.TypeExpr

/-!
# Declaring types

The variants of a group are declared first, so that all of the group may refer to them; then the
synonyms in their order, each of which may use those before it; then the constructors.
-/

namespace FieldML.Check

/-- Changes the declared types. -/
def changeVariants (change : VariantEnv.Change) : Check Unit := do
  let (answer, variants) := change.run.run (← get).variants
  modify fun s => { s with variants := variants }
  liftVariant answer

/-- A declaration with its parameters: their variables, and the types that their names stand for. -/
structure OpenDecl where
  decl : TypeDecl
  params : List TypeVar
  names : List (String × Ty)

/-- Makes variables for the parameters of a declaration. -/
def declareParams (decl : TypeDecl) : Check OpenDecl := do
  let params := match decl with
    | .variant params _ _ _ => params
    | .synonym params _ _ _ => params
  let (vars, names) ← params.foldlM (fun (vars, names) param => do
    let v ← freshId
    if (Fields.get? names param.text).isSome then
      fail (.duplicateBinding s!"'{param.text}") param.range
    else return (v :: vars, Fields.insert param.text (Ty.var v param.range) names)) ([], [])
  return ⟨decl, vars.reverse, names⟩

/-- Declares the variant, if it is one. -/
def declareVariant (d : OpenDecl) : Check Unit := do
  match d.decl with
  | .variant _ name _ _ =>
      changeVariants (.declareVariant name.text d.params name.range)
  | .synonym _ _ _ _ => pure ()

/-- Declares the synonym, if it is one. -/
def declareSynonym (d : OpenDecl) : Check Unit := do
  match d.decl with
  | .variant _ _ _ _ => pure ()
  | .synonym _ name body _ =>
      let body ← declaredType d.names body
      changeVariants (.addSynonym name.text d.params body name.range)

/-- Declares the constructors, if it is a variant. -/
def declareConstructors (d : OpenDecl) : Check Unit := do
  match d.decl with
  | .variant _ name ctors _ =>
      ctors.forM fun ctor => do
        let args ← ctor.args.mapM (declaredType d.names)
        changeVariants (.addConstructor name.text ctor.name.text args ctor.name.range)
  | .synonym _ _ _ _ => pure ()

/-- Declares a group of types that may refer to each other. -/
def declareGroup (group : List TypeDecl) : Check Unit := do
  let decls ← group.mapM declareParams
  decls.forM declareVariant
  decls.forM declareSynonym
  decls.forM declareConstructors
  report (.registered (group.map fun decl => decl.name.text))

end FieldML.Check
