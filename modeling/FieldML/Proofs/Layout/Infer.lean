import FieldML.Proofs.Layout.Check
import FieldML.Proofs.Layout.Pattern
import FieldML.Proofs.Scope.Core

/-!
# Types of expressions do not look at ranges

By recursion on the expression: the elaborated form and the type are the same up to ranges, wherever
its parts stand.
-/

namespace FieldML

mutual

@[simp] theorem Expr.isValue_erase (e : Expr) : e.erase.isValue = e.isValue := by
  match e with
  | .construct _ (some arg) _ => exact isValue_erase arg
  | .tuple items _ | .list items _ => exact areValues_eraseList items
  | .record fields _ => exact areFieldValues_eraseFields fields
  | .annot body _ _ => exact isValue_erase body
  | .literal _ _ | .var _ | .lambda _ _ _ | .construct _ none _ | .apply _ _ _ | .letIn _ _ _ _
  | .letRec _ _ _ | .ifElse _ _ _ _ | .field _ _ _ | .update _ _ _ | .caseOf _ _ _ | .ref _ _
  | .deref _ _ | .assign _ _ _ | .sequence _ _ _ => rfl

theorem Expr.areValues_eraseList (es : List Expr) : areValues (eraseList es) = areValues es := by
  match es with
  | [] => rfl
  | e :: es => rw [eraseList, areValues, areValues, isValue_erase e, areValues_eraseList es]

theorem Expr.areFieldValues_eraseFields (fields : List (Ident × Expr)) :
    areFieldValues (eraseFields fields) = areFieldValues fields := by
  match fields with
  | [] => rfl
  | (name, e) :: fields =>
      rw [eraseFields, areFieldValues, areFieldValues, isValue_erase e,
        areFieldValues_eraseFields fields]

end

theorem Core.pattern_mapTypesArms (f : Ty → Ty) (arms : List (CoreArm Core)) :
    (mapTypesArms f arms).map (·.pattern) = arms.map (·.pattern) := by
  rw [mapTypesArms_eq_map, List.map_map]
  rfl

theorem Core.mapTypesBindings_zip (schemes : List (String × Ty)) (values : List Core) :
    mapTypesBindings Ty.erase ((schemes.zip values).map fun p => ⟨p.1.1, p.1.2, p.2⟩) =
      ((Ty.eraseFields schemes).zip (mapTypesList Ty.erase values)).map
        fun p => ⟨p.1.1, p.1.2, p.2⟩ := by
  induction schemes generalizing values with
  | nil => rfl
  | cons p schemes ih =>
      cases values with
      | nil => rfl
      | cons value values => exact congrArg (_ :: ·) (ih values)

namespace Check

theorem isLambda_erase (e : Expr) : isLambda e.erase = isLambda e := by cases e <;> rfl

theorem givenArgs_eraseArg (arg : Option Expr) : givenArgs (Expr.eraseArg arg) = givenArgs arg := by
  rcases arg with _ | arg
  · rfl
  · cases arg with
    | tuple items _ => simp [Expr.eraseArg, Expr.erase, givenArgs]
    | _ => rfl

theorem snd_eraseFields (names : List (String × Ty)) :
    (Ty.eraseFields names).map (·.2) = Ty.eraseList (names.map (·.2)) := by
  rw [Ty.eraseFields_eq_map, Ty.eraseList_eq_map, List.map_map, List.map_map]
  rfl

theorem extendEnv_eraseFields (env : TypeEnv) (names : List (String × Ty)) :
    extendEnv (Ty.eraseFields env) (Ty.eraseFields names) =
      Ty.eraseFields (extendEnv env names) := by
  unfold extendEnv
  induction names generalizing env with
  | nil => rfl
  | cons p names ih =>
      obtain ⟨name, t⟩ := p
      simpa only [Ty.eraseFields, List.foldl_cons, Ty.insert_eraseFields] using
        ih (Fields.insert name t env)

/-! ### Steps of inference -/

theorem blind_placeholders (bindings : List (RecBinding Expr)) :
    Blind Ty.eraseFields (placeholders bindings)
      (placeholders (bindings.map RecBinding.erase)) := by
  refine (blind_foldlM (v := Ty.eraseFields) (c := RecBinding.erase) (fun found b => ?_)
    bindings []).bind fun found => .pure ?_
  · simp only [RecBinding.erase, isLambda_erase]
    have hbound := Ty.any_eraseFields found b.name.text
    refine .ite (blind_fail _) (.ite_iff (iff_of_eq (congrArg (· = true) hbound)) (blind_fail _) ?_)
    exact (blind_fresh b.name.range).bind fun t => .pure rfl
  · rw [Ty.eraseFields_eq_map, Ty.eraseFields_eq_map, List.map_reverse]

theorem blind_applyUnknown (func arg : Ty) (funcRange range : Range) :
    Blind Ty.erase (applyUnknown func arg funcRange range)
      (applyUnknown func.erase arg.erase .erased .erased) :=
  (blind_fresh range).bind fun result =>
    (blind_unify (.func arg result funcRange) func).bind fun _ => .pure rfl

theorem blind_applyType (func arg : Ty) (funcRange argRange range : Range) :
    Blind Ty.erase (applyType func arg funcRange argRange range)
      (applyType func.erase arg.erase .erased .erased .erased) := by
  refine (blind_resolve func).bind fun known => ?_
  rw [← Ty.erase_expand]
  cases known.expand with
  | func param result _ =>
      refine (blind_unify param arg).bind fun _ => .pure ?_
      rw [Ty.erase_withRange, Ty.withRange_erase]
  | _ => exact blind_applyUnknown func arg funcRange range

theorem blind_checkCoverage (arms : List (CoreArm Core)) (armRanges : List Range) (range : Range) :
    Blind id (checkCoverage arms armRanges range)
      (checkCoverage (Core.mapTypesArms Ty.erase arms) (armRanges.map fun _ => .erased)
        .erased) := by
  have blind_unused (i : Nat) :
      Blind id (warn ⟨.unusedArm, armRanges.getD i range⟩)
        (warn ⟨.unusedArm, (armRanges.map fun _ => .erased).getD i .erased⟩) := by
    have herased : (armRanges.map fun _ => Range.erased).getD i .erased = .erased := by
      rw [List.getD_eq_getElem?_getD, List.getElem?_map]
      cases armRanges[i]? <;> rfl
    rw [herased]
    exact blind_warn _ _
  refine blind_get_bind fun s s' hs => ?_
  rw [Core.pattern_mapTypesArms, hs.variants, Coverage.analyze_erase]
  have hunused := blind_forM (f := fun i => warn ⟨.unusedArm, armRanges.getD i range⟩) (c := id)
    (g := fun i => warn ⟨.unusedArm, (armRanges.map fun _ => .erased).getD i .erased⟩)
    blind_unused (Coverage.analyze s.variants (arms.map (·.pattern))).unused
  rw [List.map_id] at hunused
  refine hunused.bind fun _ => ?_
  cases (Coverage.analyze s.variants (arms.map (·.pattern))).missing with
  | none => exact .pure rfl
  | some missing =>
      refine blind_read_bind fun o => ?_
      cases o.exhaustiveness with
      | error => exact blind_fail (.nonExhaustive missing)
      | warn => exact blind_warn _ range

theorem blind_letScheme (value : Expr) (t : Ty) (env : TypeEnv) :
    Blind Ty.erase (letScheme value t env)
      (letScheme value.erase t.erase (Ty.eraseFields env)) := by
  unfold letScheme
  rw [value.isValue_erase]
  exact .ite (blind_generalize t env) (.pure rfl)

theorem blind_generalizeAll (names : List (String × Ty)) (env : TypeEnv) :
    Blind Ty.eraseFields (names.mapM fun (name, t) => return (name, ← generalize t env))
      ((Ty.eraseFields names).mapM fun (name, t) =>
        return (name, ← generalize t (Ty.eraseFields env))) := by
  rw [Ty.eraseFields_eq_map names]
  have hgeneralize (p : String × Ty) :
      Blind (fun p => (p.1, p.2.erase)) (do return (p.1, ← generalize p.2 env))
        (do return (p.1, ← generalize p.2.erase (Ty.eraseFields env))) :=
    (blind_generalize p.2 env).bind fun _ => .pure rfl
  exact (blind_mapM hgeneralize names).congr fun schemes => (Ty.eraseFields_eq_map schemes).symm

/-- An elaborated form and its type without ranges. -/
abbrev eraseFound (p : Core × Ty) : Core × Ty := (p.1.mapTypes Ty.erase, p.2.erase)

mutual

theorem blind_infer (env : TypeEnv) (e : Expr) :
    Blind eraseFound (infer env e) (infer (Ty.eraseFields env) e.erase) := by
  match e with
  | .literal l r => exact .pure (by rw [eraseFound, erase_literalType]; rfl)
  | .var name =>
      rw [Expr.erase, infer, infer]
      simp only [Ident.erase, Ty.get?_eraseFields]
      cases Fields.get? env name.text with
      | some scheme => exact (blind_instantiate scheme name.range).bind fun _ => .pure rfl
      | none => exact blind_fail _
  | .lambda param body r =>
      refine (blind_fresh param.range).bind fun t => ?_
      have hbody := blind_infer (Fields.insert param.text t env) body
      rw [← Ty.insert_eraseFields] at hbody
      exact hbody.bind fun found => .pure rfl
  | .apply func arg r =>
      refine (blind_infer env func).bind fun f => (blind_infer env arg).bind fun a => ?_
      rw [func.range_erase, arg.range_erase]
      exact (blind_applyType f.2 a.2 func.range arg.range r).bind fun _ => .pure rfl
  | .letIn name value body _ =>
      refine (blind_infer env value).bind fun found => ?_
      refine (blind_letScheme value found.2 env).bind fun scheme => ?_
      have hbody := blind_infer (Fields.insert name.text scheme env) body
      rw [← Ty.insert_eraseFields] at hbody
      exact hbody.bind fun found' => .pure rfl
  | .letRec bindings body _ =>
      have hnames := blind_placeholders bindings
      rw [← Expr.eraseBindings_eq_map] at hnames
      refine hnames.bind fun names => ?_
      have hvalues := blind_inferBindings (extendEnv env names) (names.map (·.2)) bindings
      rw [← extendEnv_eraseFields, ← snd_eraseFields] at hvalues
      refine hvalues.bind fun values => (blind_generalizeAll names env).bind fun schemes => ?_
      have hbody := blind_infer (extendEnv env schemes) body
      rw [← extendEnv_eraseFields] at hbody
      refine hbody.bind fun found => .pure ?_
      exact congrArg (fun bs => (Core.letRec bs _, _)) (Core.mapTypesBindings_zip schemes values)
  | .ifElse cond yes no _ =>
      rw [Expr.erase, infer, infer, cond.range_erase, no.range_erase]
      refine (blind_infer env cond).bind fun c => ?_
      refine (blind_unify (.base .bool cond.range) c.2).bind fun _ => ?_
      refine (blind_infer env yes).bind fun y => (blind_infer env no).bind fun n => ?_
      exact (blind_unify y.2 n.2).bind fun _ => .pure rfl
  | .list items r =>
      refine (blind_fresh r).bind fun elem => ?_
      exact (blind_inferAll env elem items).bind fun cores => .pure rfl
  | .tuple items r => exact (blind_inferEach env items).bind fun found => .pure rfl
  | .record fields r => exact (blind_inferFields env [] fields).bind fun found => .pure rfl
  | .field base name r =>
      rw [Expr.erase, infer, infer, base.range_erase]
      refine (blind_infer env base).bind fun found => ?_
      refine (blind_fresh name.range).bind fun t => ?_
      refine (blind_freshKinded (.record [(name.text, t)]) r).bind fun record => ?_
      exact (blind_unify record found.2).bind fun _ => .pure rfl
  | .update base fields r =>
      rw [Expr.erase, infer, infer, base.range_erase]
      refine (blind_infer env base).bind fun found => ?_
      refine (blind_inferFields env [] fields).bind fun given => ?_
      refine (blind_freshKinded (.record given.2) r).bind fun record => ?_
      exact (blind_unify record found.2).bind fun _ => .pure rfl
  | .construct ctor arg r =>
      refine (blind_instantiateConstructor ctor).bind fun found => ?_
      have refused : Blind (Core.mapTypesList Ty.erase)
          (fail (.constructorArity ctor.text found.2.length (givenArgs arg)) r)
          (fail (.constructorArity ctor.text (Ty.eraseList found.2).length
            (givenArgs (Expr.eraseArg arg))) .erased) := by
        rw [givenArgs_eraseArg, Ty.length_eraseList]
        exact blind_fail _
      refine (blind_inferArgs env found.2 refused arg).bind fun cores => .pure ?_
      rw [eraseFound, Ty.erase_withRange, Ty.withRange_erase]
      rfl
  | .caseOf scrutinee arms r =>
      refine (blind_infer env scrutinee).bind fun found => (blind_fresh r).bind fun result => ?_
      refine (blind_inferArms env found.2 result arms).bind fun cores => ?_
      have hranges : (Expr.eraseArms arms).map (·.range) =
          (arms.map (·.range)).map fun _ => .erased := by
        rw [Expr.eraseArms_eq_map, List.map_map, List.map_map]
        rfl
      rw [hranges]
      exact (blind_checkCoverage cores _ r).bind fun _ => .pure rfl
  | .ref value r => exact (blind_infer env value).bind fun found => .pure rfl
  | .deref target r =>
      rw [Expr.erase, infer, infer, target.range_erase]
      refine (blind_infer env target).bind fun found => (blind_fresh r).bind fun t => ?_
      exact (blind_unify (.ref t target.range) found.2).bind fun _ => .pure rfl
  | .assign target value r =>
      rw [Expr.erase, infer, infer, target.range_erase, value.range_erase]
      refine (blind_infer env target).bind fun found => (blind_infer env value).bind fun given => ?_
      refine (blind_fresh r).bind fun t => ?_
      refine (blind_unify (.ref t target.range) found.2).bind fun _ => ?_
      exact (blind_unify t given.2).bind fun _ => .pure rfl
  | .sequence first second _ =>
      rw [Expr.erase, infer, infer, first.range_erase]
      refine (blind_infer env first).bind fun found => ?_
      refine (blind_unify (.base .unit first.range) found.2).bind fun _ => ?_
      exact (blind_infer env second).bind fun found' => .pure rfl
  | .annot body type _ =>
      rw [Expr.erase, infer, infer, body.range_erase]
      refine (blind_infer env body).bind fun found => (blind_annotated type).bind fun t => ?_
      exact (blind_unify t found.2).bind fun _ => .pure rfl

theorem blind_inferAll (env : TypeEnv) (elem : Ty) (es : List Expr) :
    Blind (Core.mapTypesList Ty.erase) (inferAll env elem es)
      (inferAll (Ty.eraseFields env) elem.erase (Expr.eraseList es)) := by
  match es with
  | [] => exact .pure rfl
  | e :: es =>
      rw [Expr.eraseList, inferAll, inferAll, e.range_erase]
      refine (blind_infer env e).bind fun found => ?_
      refine (blind_unify elem found.2).bind fun _ => ?_
      exact (blind_inferAll env elem es).bind fun cores => .pure rfl

theorem blind_inferEach (env : TypeEnv) (es : List Expr) :
    Blind (fun p => (Core.mapTypesList Ty.erase p.1, Ty.eraseList p.2)) (inferEach env es)
      (inferEach (Ty.eraseFields env) (Expr.eraseList es)) := by
  match es with
  | [] => exact .pure rfl
  | e :: es =>
      refine (blind_infer env e).bind fun found => ?_
      exact (blind_inferEach env es).bind fun found' => .pure rfl

theorem blind_inferAgainst (env : TypeEnv) (types : List Ty) (es : List Expr) :
    Blind (Core.mapTypesList Ty.erase) (inferAgainst env types es)
      (inferAgainst (Ty.eraseFields env) (Ty.eraseList types) (Expr.eraseList es)) := by
  match es with
  | [] => exact .pure rfl
  | e :: es =>
      cases types with
      | nil => exact .pure rfl
      | cons t types =>
          rw [Expr.eraseList, Ty.eraseList, inferAgainst, inferAgainst, e.range_erase]
          refine (blind_infer env e).bind fun found => ?_
          refine (blind_unify t found.2).bind fun _ => ?_
          exact (blind_inferAgainst env types es).bind fun cores => .pure rfl

theorem blind_inferArgs (env : TypeEnv) (types : List Ty) {wrong wrong' : Check (List Core)}
    (refused : Blind (Core.mapTypesList Ty.erase) wrong wrong') (arg : Option Expr) :
    Blind (Core.mapTypesList Ty.erase) (inferArgs env types wrong arg)
      (inferArgs (Ty.eraseFields env) (Ty.eraseList types) wrong' (Expr.eraseArg arg)) := by
  cases arg with
  | none =>
      cases types with
      | nil => exact .pure rfl
      | cons => exact refused
  | some arg =>
      rcases types with _ | ⟨t, _ | ⟨u, types⟩⟩
      · exact refused
      · refine (blind_infer env arg).bind fun found => ?_
        exact (blind_unify t found.2).bind fun _ => .pure rfl
      · cases arg with
        | tuple items _ =>
            refine .ite_iff ?_ (blind_inferAgainst env (t :: u :: types) items) refused
            simp
        | _ => exact refused

theorem blind_inferFields (env : TypeEnv) (before : List (String × Ty))
    (fields : List (Ident × Expr)) :
    Blind (fun p => (Core.mapTypesFields Ty.erase p.1, Ty.eraseFields p.2))
      (inferFields env before fields)
      (inferFields (Ty.eraseFields env) (Ty.eraseFields before) (Expr.eraseFields fields)) := by
  match fields with
  | [] => exact .pure rfl
  | (name, e) :: fields =>
      refine (blind_infer env e).bind fun found => ?_
      simp only [Ident.erase, Ty.get?_eraseFields, Option.isSome_map, Ty.insert_eraseFields]
      refine .ite (blind_fail _) ?_
      exact (blind_inferFields env _ fields).bind fun found' => .pure rfl

theorem blind_inferBindings (env : TypeEnv) (types : List Ty) (bindings : List (RecBinding Expr)) :
    Blind (Core.mapTypesList Ty.erase) (inferBindings env types bindings)
      (inferBindings (Ty.eraseFields env) (Ty.eraseList types) (Expr.eraseBindings bindings)) := by
  match bindings with
  | [] => exact .pure rfl
  | ⟨_, e, r⟩ :: bindings =>
      cases types with
      | nil => exact .pure rfl
      | cons t types =>
          refine (blind_infer env e).bind fun found => ?_
          refine (blind_unify t found.2).bind fun _ => ?_
          exact (blind_inferBindings env types bindings).bind fun cores => .pure rfl

theorem blind_inferArms (env : TypeEnv) (scrutinee result : Ty) (arms : List (MatchArm Expr)) :
    Blind (Core.mapTypesArms Ty.erase) (inferArms env scrutinee result arms)
      (inferArms (Ty.eraseFields env) scrutinee.erase result.erase (Expr.eraseArms arms)) := by
  match arms with
  | [] => exact .pure rfl
  | ⟨p, e, _⟩ :: arms =>
      rw [Expr.eraseArms, inferArms, inferArms, e.range_erase]
      refine (blind_pattern scrutinee [] p).bind fun bound => ?_
      have hbody := blind_infer (extendEnv env bound.2) e
      rw [← extendEnv_eraseFields] at hbody
      refine hbody.bind fun found => ?_
      refine (blind_unify result found.2).bind fun _ => ?_
      exact (blind_inferArms env scrutinee result arms).bind fun cores => .pure rfl

end

end Check

end FieldML
