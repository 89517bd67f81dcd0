import FieldML.Check.Infer
import FieldML.Proofs.Check.Basic
import FieldML.Proofs.Scope.Core
import Mathlib.Data.List.Forall2

/-!
# Names in programs that check

A checked expression is scoped in the names of the environment it was checked in, and an elaborated
pattern binds the names that were bound when it was checked.
-/

namespace FieldML.Check

open FieldML.Core

variable {α β : Type} {m : Check α} {f : α → Check β} {P Q : α → Prop} {R : β → Prop}

/-- Whenever the part of a check succeeds, `Q` holds for its outcome. -/
def Gives (m : Check α) (Q : α → Prop) : Prop := ∀ o s a s', m o s = (.ok a, s') → Q a

theorem Gives.bind (hm : Gives m P) (hf : ∀ a, P a → Gives (f a) R) : Gives (m >>= f) R := by
  intro o s b s' hrun
  rw [bind_apply] at hrun
  rcases hrun₁ : m o s with ⟨e | a, s₁⟩
  · rw [hrun₁] at hrun
    cases hrun
  · rw [hrun₁] at hrun
    exact hf a (hm o s a s₁ hrun₁) o s₁ b s' hrun

theorem Gives.skip (hf : ∀ a, Gives (f a) R) : Gives (m >>= f) R :=
  Gives.bind (P := fun _ => True) (fun _ _ _ _ _ => trivial) fun a _ => hf a

theorem Gives.pure {a : α} (ha : Q a) : Gives (Pure.pure a : Check α) Q := by
  rintro o s _ _ ⟨⟩
  exact ha

theorem gives_fail (cause : TypeError.Cause) (range : Range) :
    Gives (fail cause range : Check α) Q := by
  rintro o s a s' ⟨⟩

theorem gives_mapM {l : List α} {g : α → Check β} {S : α → β → Prop}
    (hg : ∀ a ∈ l, Gives (g a) (S a)) : Gives (l.mapM g) (List.Forall₂ S l) := by
  induction l with
  | nil => exact .pure .nil
  | cons a l ih =>
      rw [List.mapM_cons]
      refine (hg a List.mem_cons_self).bind fun b hb => ?_
      exact (ih fun a ha => hg a (List.mem_cons_of_mem _ ha)).bind fun bs hbs =>
        .pure (.cons hb hbs)

section Pattern

theorem gives_bindName (bindings : PatternBindings) (name : Ident) (t : Ty) :
    Gives (bindName bindings name t) fun bs =>
      Fields.names bs = Fields.names bindings ++ [name.text] := by
  unfold bindName
  split
  · exact gives_fail _ _
  · exact .pure (by simp [Fields.names])

mutual

/-- The names that are bound when a pattern is checked are those of the elaborated pattern. -/
theorem gives_pattern (t : Ty) (bindings : PatternBindings) (p : Pattern) :
    Gives (pattern t bindings p) fun r =>
      Fields.names r.2 = Fields.names bindings ++ r.1.binders := by
  match p with
  | .wildcard _ => exact .pure (by simp [CorePattern.binders])
  | .var name => exact (gives_bindName bindings name t).bind fun bs hbs => .pure hbs
  | .literal v range => exact .skip fun _ => .pure (by simp [CorePattern.binders])
  | .tuple items range =>
      refine Gives.bind (gives_mapM fun _ _ => fun _ _ _ _ _ => trivial) fun types htypes => ?_
      refine .skip fun _ => (gives_patterns types bindings items htypes.length_eq).bind
        fun r hr => .pure hr
  | .nil range => exact .skip fun _ => .skip fun _ => .pure (by simp [CorePattern.binders])
  | .cons head tail range =>
      refine .skip fun elem => .skip fun _ => ?_
      refine (gives_pattern elem bindings head).bind fun r hr => ?_
      refine (gives_pattern _ r.2 tail).bind fun r' hr' => .pure ?_
      rw [hr', hr, List.append_assoc]
      rfl
  | .construct ctor arg range =>
      rw [pattern]
      refine .skip fun ⟨variant, types⟩ => .skip fun _ => ?_
      match arg with
      | none =>
          dsimp only
          split
          · exact .pure (by simp [CorePattern.binders, CorePattern.bindersOfList])
          · exact gives_fail _ _
      | some arg =>
          match types with
          | [] => exact gives_fail _ _
          | [type] =>
              refine (gives_pattern type bindings arg).bind fun r hr => .pure ?_
              simpa [CorePattern.binders, CorePattern.bindersOfList] using hr
          | type :: type' :: types =>
              match arg with
              | .wildcard _ =>
                  refine .pure ?_
                  rw [CorePattern.binders, CorePattern.bindersOfList_wildcards, List.append_nil]
              | .tuple items _ =>
                  dsimp only
                  split
                  · next hlength =>
                      exact (gives_patterns _ bindings items hlength).bind fun r hr => .pure hr
                  · exact gives_fail _ _
              | .var _ | .literal _ _ | .nil _ | .cons _ _ _ | .construct _ _ _
              | .alias _ _ _ => exact gives_fail _ _
  | .alias inner name _ =>
      refine (gives_pattern t bindings inner).bind fun r hr => ?_
      refine (gives_bindName r.2 name t).bind fun bs hbs => .pure ?_
      rw [hbs, hr, List.append_assoc]
      rfl

theorem gives_patterns (types : List Ty) (bindings : PatternBindings) (ps : List Pattern)
    (hlength : ps.length = types.length) :
    Gives (patterns types bindings ps) fun r =>
      Fields.names r.2 = Fields.names bindings ++ CorePattern.bindersOfList r.1 := by
  match ps, types with
  | [], [] => exact .pure (by simp [CorePattern.bindersOfList])
  | p :: ps, t :: types =>
      refine (gives_pattern t bindings p).bind fun r hr => ?_
      refine (gives_patterns types r.2 ps (by simpa using hlength)).bind fun rs hrs => .pure ?_
      rw [hrs, hr, List.append_assoc]
      rfl

end

end Pattern

section Infer

theorem names_insert_subset (x : String) (t : Ty) (env : TypeEnv) :
    Fields.names (Fields.insert x t env) ⊆ x :: Fields.names env := fun y hy => by
  rw [Fields.mem_names_insert] at hy
  exact List.mem_cons.2 hy

theorem names_extendEnv_subset (env : TypeEnv) (names : List (String × Ty)) :
    Fields.names (extendEnv env names) ⊆ Fields.names names ++ Fields.names env := by
  induction names generalizing env with
  | nil => exact fun y hy => hy
  | cons p names ih =>
      intro y hy
      have hmem := ih (Fields.insert p.1 p.2 env) hy
      rw [List.mem_append, Fields.mem_names_insert] at hmem
      rw [Fields.names, List.map_cons, List.cons_append, List.mem_cons, List.mem_append]
      tauto

/-- The names of a recursive group are those of its bindings, all of which are functions. -/
theorem gives_placeholders (bindings : List (RecBinding Expr)) :
    Gives (placeholders bindings) fun names =>
      Fields.names names = bindings.map (·.name.text) ∧
        ∀ b ∈ bindings, isLambda b.value = true := by
  let body := fun (found : List (String × Ty)) (binding : RecBinding Expr) => (do
    if !isLambda binding.value then
      fail (.recNotFunction binding.name.text) binding.range
    else if found.any (·.1 = binding.name.text) then
      fail (.duplicateBinding binding.name.text) binding.name.range
    else
      return (binding.name.text, ← fresh binding.name.range) :: found : Check (List (String × Ty)))
  have hfold : ∀ found : List (String × Ty), Gives (bindings.foldlM body found) fun names =>
      Fields.names names = (bindings.map (·.name.text)).reverse ++ Fields.names found ∧
        ∀ b ∈ bindings, isLambda b.value = true := by
    induction bindings with
    | nil => exact fun found => .pure (by simp)
    | cons b bindings ih =>
        intro found
        rw [List.foldlM_cons]
        by_cases hlambda : isLambda b.value = true
        · refine Gives.bind (P := fun names => Fields.names names =
            b.name.text :: Fields.names found) ?_ fun names hnames => ?_
          · simp only [body, hlambda, Bool.not_true, Bool.false_eq_true, if_false]
            split
            · exact gives_fail _ _
            · exact .skip fun _ => .pure rfl
          · intro o s a s' hrun
            obtain ⟨h, hall⟩ := ih names o s a s' hrun
            refine ⟨by simp [h, hnames], fun x hx => ?_⟩
            rcases List.mem_cons.1 hx with rfl | hx
            · exact hlambda
            · exact hall x hx
        · refine Gives.bind (P := fun _ => False) ?_ fun _ h => h.elim
          simp only [body, hlambda, Bool.not_false, if_true]
          exact gives_fail _ _
  refine (hfold []).bind fun names hnames => .pure ?_
  exact ⟨by simpa [Fields.names, List.map_reverse] using congrArg List.reverse hnames.1, hnames.2⟩

theorem gives_lambda {env : TypeEnv} {e : Expr} (he : isLambda e = true) :
    Gives (infer env e) fun r => r.1.IsLambda := by
  cases e <;> first | (simp [isLambda] at he; done) | skip
  exact .skip fun t => .skip fun r => .pure ⟨_, _, _, rfl⟩

theorem names_of_forall₂ {ps qs : List (String × Ty)}
    (h : List.Forall₂ (fun p q => q.1 = p.1) ps qs) : Fields.names qs = Fields.names ps := by
  induction h with
  | nil => rfl
  | cons hpq _ ih => rw [Fields.names, List.map_cons, hpq]; exact congrArg (_ :: ·) ih

/-- A recursive group is scoped if its values are, in its own names as well. -/
theorem scoped_letRec {xs names : List String} {schemes : List (String × Ty)}
    {values : List Core} {body : Core} (hnames : Fields.names schemes = names)
    (hlength : values.length = names.length) (hlambda : ∀ c ∈ values, c.IsLambda)
    (hvalues : ∀ c ∈ values, c.Scoped (names ++ xs)) (hbody : body.Scoped (names ++ xs)) :
    (Core.letRec ((schemes.zip values).map fun ((name, scheme), value) =>
      ⟨name, scheme, value⟩) body).Scoped xs := by
  have hmap : ((schemes.zip values).map fun ((name, scheme), value) =>
      (⟨name, scheme, value⟩ : CoreBinding Core)).map (·.name) = names := by
    rw [List.map_map, ← hnames, Fields.names]
    have hfst : (schemes.zip values).map Prod.fst = schemes :=
      List.map_fst_zip (by rw [hlength, ← hnames, Fields.names, List.length_map])
    conv_rhs => rw [← hfst]
    rw [List.map_map]
    rfl
  have hmem : ∀ b ∈ (schemes.zip values).map fun ((name, scheme), value) =>
      (⟨name, scheme, value⟩ : CoreBinding Core), b.value ∈ values := by
    intro b hb
    obtain ⟨p, hp, rfl⟩ := List.mem_map.1 hb
    exact (List.of_mem_zip hp).2
  refine .letRec (fun b hb => hlambda _ (hmem b hb)) (fun b hb => ?_) (by rwa [hmap])
  rw [hmap]
  exact hvalues _ (hmem b hb)

mutual

theorem gives_infer (env : TypeEnv) (e : Expr) :
    Gives (infer env e) fun r => r.1.Scoped (Fields.names env) := by
  match e with
  | .literal v range => exact .pure (.literal v)
  | .var name =>
      rw [infer]
      split
      · next scheme hscheme =>
          refine .skip fun t => .pure (.var ?_)
          exact Fields.mem_names.2 ⟨scheme, Fields.mem_of_get? hscheme⟩
      · exact gives_fail _ _
  | .lambda param body range =>
      refine .skip fun t => (gives_infer _ body).bind fun r hr => .pure (.lambda ?_)
      exact hr.mono (names_insert_subset _ _ _)
  | .apply func arg range =>
      refine (gives_infer env func).bind fun f hf => (gives_infer env arg).bind fun a ha => ?_
      exact .skip fun t => .pure (.apply hf ha)
  | .letIn name value body _ =>
      refine (gives_infer env value).bind fun v hv => .skip fun scheme => ?_
      refine (gives_infer _ body).bind fun r hr => .pure (.letIn hv ?_)
      exact hr.mono (names_insert_subset _ _ _)
  | .letRec bindings body _ =>
      refine (gives_placeholders bindings).bind fun names ⟨hnames, hlambda⟩ => ?_
      have hlength : names.length = bindings.length := by
        simpa [Fields.names] using congrArg List.length hnames
      refine (gives_inferBindings _ _ bindings (by simp [hlength]) hlambda).bind
        fun values ⟨hvalues, hlambdas, hscoped⟩ => ?_
      have hschemes : Gives (names.mapM fun (name, t) => return (name, ← generalize t env))
          fun schemes => Fields.names schemes = Fields.names names := fun o s schemes s' hrun =>
        names_of_forall₂ (gives_mapM (S := fun p q => q.1 = p.1)
          (fun p _ => .skip fun scheme => .pure rfl) o s schemes s' hrun)
      refine hschemes.bind fun schemes hschemes => ?_
      refine (gives_infer _ body).bind fun r hr => .pure ?_
      rw [hnames] at hschemes
      exact scoped_letRec hschemes (by simpa using hvalues) hlambdas
        (fun c hc => (hscoped c hc).mono (hnames ▸ names_extendEnv_subset env names))
        (hr.mono (hschemes ▸ names_extendEnv_subset env schemes))
  | .ifElse cond yes no _ =>
      refine (gives_infer env cond).bind fun c hc => .skip fun _ => ?_
      refine (gives_infer env yes).bind fun y hy => (gives_infer env no).bind fun n hn => ?_
      exact .skip fun _ => .pure (.ifElse hc hy hn)
  | .list items range =>
      exact .skip fun elem => (gives_inferAll env elem items).bind fun es hes => .pure (.list hes)
  | .tuple items range => exact (gives_inferEach env items).bind fun r hr => .pure (.tuple hr)
  | .record fields range =>
      exact (gives_inferFields env [] fields).bind fun r hr => .pure (.record hr)
  | .field base name range =>
      refine (gives_infer env base).bind fun b hb => .skip fun _ => .skip fun _ => .skip fun _ => ?_
      exact .pure (.field name.text hb)
  | .update base fields range =>
      refine (gives_infer env base).bind fun b hb => ?_
      refine (gives_inferFields env [] fields).bind fun r hr => .skip fun _ => .skip fun _ => ?_
      exact .pure (.update hb hr)
  | .construct ctor arg range =>
      refine .skip fun ⟨variant, types⟩ => ?_
      exact (gives_inferArgs env types (gives_fail _ _) arg).bind fun args hargs =>
        .pure (.construct ctor.text hargs)
  | .caseOf scrutinee arms range =>
      refine (gives_infer env scrutinee).bind fun r hr => .skip fun result => ?_
      refine (gives_inferArms env _ result arms).bind fun coreArms harms => .skip fun _ => ?_
      exact .pure (.caseOf hr harms)
  | .ref value range => exact (gives_infer env value).bind fun r hr => .pure (.ref hr)
  | .deref target range =>
      refine (gives_infer env target).bind fun r hr => .skip fun _ => .skip fun _ => ?_
      exact .pure (.deref hr)
  | .assign target value range =>
      refine (gives_infer env target).bind fun r hr => (gives_infer env value).bind fun v hv => ?_
      exact .skip fun _ => .skip fun _ => .skip fun _ => .pure (.assign hr hv)
  | .sequence first second _ =>
      refine (gives_infer env first).bind fun r hr => .skip fun _ => ?_
      exact (gives_infer env second).bind fun r' hr' => .pure (.sequence hr hr')
  | .annot body type _ =>
      exact (gives_infer env body).bind fun r hr => .skip fun _ => .skip fun _ => .pure (.annot hr)

theorem gives_inferAll (env : TypeEnv) (elem : Ty) (es : List Expr) :
    Gives (inferAll env elem es) fun cs => ∀ c ∈ cs, c.Scoped (Fields.names env) := by
  match es with
  | [] => exact .pure (List.forall_mem_nil _)
  | e :: es =>
      refine (gives_infer env e).bind fun r hr => .skip fun _ => ?_
      exact (gives_inferAll env elem es).bind fun cs hcs =>
        .pure (List.forall_mem_cons.2 ⟨hr, hcs⟩)

theorem gives_inferEach (env : TypeEnv) (es : List Expr) :
    Gives (inferEach env es) fun r => ∀ c ∈ r.1, c.Scoped (Fields.names env) := by
  match es with
  | [] => exact .pure (List.forall_mem_nil _)
  | e :: es =>
      refine (gives_infer env e).bind fun r hr => ?_
      exact (gives_inferEach env es).bind fun rs hrs =>
        .pure (List.forall_mem_cons.2 ⟨hr, hrs⟩)

theorem gives_inferAgainst (env : TypeEnv) (types : List Ty) (es : List Expr) :
    Gives (inferAgainst env types es) fun cs => ∀ c ∈ cs, c.Scoped (Fields.names env) := by
  match es, types with
  | [], _ => exact .pure (List.forall_mem_nil _)
  | _ :: _, [] => exact .pure (List.forall_mem_nil _)
  | e :: es, type :: types =>
      refine (gives_infer env e).bind fun r hr => .skip fun _ => ?_
      exact (gives_inferAgainst env types es).bind fun cs hcs =>
        .pure (List.forall_mem_cons.2 ⟨hr, hcs⟩)

theorem gives_inferArgs (env : TypeEnv) (types : List Ty) {wrongArity : Check (List Core)}
    (hwrong : Gives wrongArity fun cs => ∀ c ∈ cs, c.Scoped (Fields.names env))
    (arg : Option Expr) :
    Gives (inferArgs env types wrongArity arg) fun cs => ∀ c ∈ cs, c.Scoped (Fields.names env) := by
  match arg with
  | none =>
      rw [inferArgs]
      split
      · exact .pure (List.forall_mem_nil _)
      · exact hwrong
  | some arg =>
      match types with
      | [] => exact hwrong
      | [type] =>
          refine (gives_infer env arg).bind fun r hr => .skip fun _ => .pure ?_
          exact List.forall_mem_singleton.2 hr
      | type :: type' :: types =>
          match arg with
          | .tuple items _ =>
              rw [inferArgs]
              rotate_left
              · simp
              · simp
              split
              · exact gives_inferAgainst env _ items
              · exact hwrong
          | .literal _ _ | .var _ | .lambda _ _ _ | .apply _ _ _ | .letIn _ _ _ _
          | .letRec _ _ _ | .ifElse _ _ _ _ | .list _ _ | .record _ _ | .field _ _ _
          | .update _ _ _ | .construct _ _ _ | .caseOf _ _ _ | .ref _ _ | .deref _ _
          | .assign _ _ _ | .sequence _ _ _ | .annot _ _ _ => exact hwrong

theorem gives_inferFields (env : TypeEnv) (before : List (String × Ty))
    (fields : List (Ident × Expr)) :
    Gives (inferFields env before fields) fun r => ∀ p ∈ r.1, p.2.Scoped (Fields.names env) := by
  match fields with
  | [] => exact .pure (List.forall_mem_nil _)
  | (name, value) :: fields =>
      refine (gives_infer env value).bind fun (core, t) hr => ?_
      dsimp only
      split
      · exact gives_fail _ _
      · exact (gives_inferFields env _ fields).bind fun rs hrs =>
          .pure (List.forall_mem_cons.2 ⟨hr, hrs⟩)

theorem gives_inferBindings (env : TypeEnv) (types : List Ty) (bindings : List (RecBinding Expr))
    (hlength : types.length = bindings.length)
    (hlambda : ∀ b ∈ bindings, isLambda b.value = true) :
    Gives (inferBindings env types bindings) fun cs => cs.length = bindings.length ∧
      (∀ c ∈ cs, c.IsLambda) ∧ ∀ c ∈ cs, c.Scoped (Fields.names env) := by
  match bindings, types with
  | [], [] => exact .pure (by simp)
  | ⟨name, value, range⟩ :: bindings, type :: types =>
      obtain ⟨hvalue, hlambda⟩ := List.forall_mem_cons.1 hlambda
      refine Gives.bind (P := fun r => r.1.IsLambda ∧ r.1.Scoped (Fields.names env))
        (fun o s a s' hrun => ⟨gives_lambda hvalue o s a s' hrun, gives_infer env value o s a s' hrun⟩)
        fun r hr => .skip fun _ => ?_
      refine (gives_inferBindings env types bindings (by simpa using hlength) hlambda).bind
        fun cs hcs => .pure ⟨by simp [hcs.1], ?_, ?_⟩
      · exact List.forall_mem_cons.2 ⟨hr.1, hcs.2.1⟩
      · exact List.forall_mem_cons.2 ⟨hr.2, hcs.2.2⟩

theorem gives_inferArms (env : TypeEnv) (scrutinee result : Ty) (arms : List (MatchArm Expr)) :
    Gives (inferArms env scrutinee result arms) fun cs =>
      ∀ c ∈ cs, c.body.Scoped (c.pattern.binders ++ Fields.names env) := by
  match arms with
  | [] => exact .pure (List.forall_mem_nil _)
  | ⟨pat, body, _⟩ :: arms =>
      refine (gives_pattern scrutinee [] pat).bind fun p hp => ?_
      refine (gives_infer _ body).bind fun r hr => .skip fun _ => ?_
      refine (gives_inferArms env scrutinee result arms).bind fun cs hcs =>
        .pure (List.forall_mem_cons.2 ⟨?_, hcs⟩)
      have hnames : Fields.names p.2 = p.1.binders := by simpa [Fields.names] using hp
      exact hr.mono (hnames ▸ names_extendEnv_subset env p.2)

end

end Infer

end FieldML.Check
