import FieldML.Primitive
import FieldML.Proofs.Check.Declare
import FieldML.Proofs.Coverage.Matrix

/-!
# Constructors of declared types

Whatever groups of types are declared, and whether or not a group is accepted, a variant lists no
constructor but its own.
-/

namespace FieldML

open Check

/-- Every constructor that a variant lists is declared, and belongs to that variant. -/
def VariantEnv.Backed (env : VariantEnv) : Prop :=
  ∀ variant params ctors, env.definition? variant = some (.variant params ctors) →
    ∀ name ∈ ctors, ∃ c, env.constructor? name = some c ∧ c.variant = variant

namespace VariantEnv.Backed

variable {env env' : VariantEnv}

theorem define (henv : env.Backed) {name : String} {d : TypeDefinition} {range : Range}
    (hd : ∀ params ctors, d = .variant params ctors → ctors = [])
    (h : env.define name d range = .ok env') : env'.Backed := by
  intro variant params ctors hdef other hother
  rw [definition?_define h] at hdef
  split at hdef
  · rw [hd params ctors (Option.some.inj hdef)] at hother
    exact absurd hother List.not_mem_nil
  · rw [constructor?_define h]
    exact henv variant params ctors hdef other hother

theorem addConstructor (henv : env.Backed) {variant name : String} {args : List Ty} {range : Range}
    (h : env.addConstructor variant name args range = .ok env') : env'.Backed := by
  obtain ⟨hnew, params, ctors, hdef, hdefs, hctors⟩ := addConstructor_eq_ok h
  -- A constructor that was listed before is not the new one, whose name was not taken.
  have hold : ∀ v params ctors, env.definition? v = some (.variant params ctors) →
      ∀ other ∈ ctors, ∃ c, env'.constructor? other = some c ∧ c.variant = v := by
    intro v params ctors hv other hother
    obtain ⟨c, hc, hvariant⟩ := henv v params ctors hv other hother
    refine ⟨c, ?_, hvariant⟩
    rw [hctors, if_neg, hc]
    rintro rfl
    simp [hnew] at hc
  intro v params' ctors' hv other hother
  rw [hdefs] at hv
  split at hv
  · next heq =>
      obtain ⟨rfl, rfl⟩ := TypeDefinition.variant.inj (Option.some.inj hv)
      subst heq
      rcases List.mem_append.1 hother with hother | hother
      · exact hold _ _ _ hdef other hother
      · obtain rfl := List.mem_singleton.1 hother
        exact ⟨_, by rw [hctors, if_pos rfl], rfl⟩
  · exact hold v params' ctors' hv other hother

end VariantEnv.Backed

theorem backed_initialVariantEnv : initialVariantEnv.Backed := by
  intro variant params ctors hdef name hname
  have hmem : (variant, TypeDefinition.variant params ctors) ∈ initialVariantEnv.definitions :=
    Fields.mem_of_get? hdef
  simp only [initialVariantEnv, List.mem_singleton, Prod.mk.injEq,
    TypeDefinition.variant.injEq] at hmem
  obtain ⟨rfl, rfl, rfl⟩ := hmem
  rcases List.mem_cons.1 hname with rfl | hname
  · exact ⟨_, rfl, rfl⟩
  · obtain rfl := List.mem_singleton.1 hname
    exact ⟨_, rfl, rfl⟩

/-- No declared type has the name of one that needs no declaration. -/
def VariantEnv.Reserves (env : VariantEnv) : Prop :=
  ∀ name ∈ builtinNames, env.definition? name = none

namespace VariantEnv.Reserves

variable {env env' : VariantEnv}

theorem define (henv : env.Reserves) {name : String} {d : TypeDefinition} {range : Range}
    (h : env.define name d range = .ok env') : env'.Reserves := by
  intro other hother
  have hne : name ≠ other := by
    rintro rfl
    simp [VariantEnv.define, hother] at h
  rw [definition?_define h, if_neg hne, henv other hother]

theorem addConstructor (henv : env.Reserves) {variant name : String} {args : List Ty}
    {range : Range} (h : env.addConstructor variant name args range = .ok env') :
    env'.Reserves := by
  obtain ⟨-, params, ctors, hdef, hdefs, -⟩ := addConstructor_eq_ok h
  intro other hother
  have hne : variant ≠ other := by
    rintro rfl
    cases (henv _ hother).symm.trans hdef
  rw [hdefs, if_neg hne, henv other hother]

end VariantEnv.Reserves

theorem reserves_initialVariantEnv : initialVariantEnv.Reserves := by
  have hall : ∀ name ∈ VariantEnv.builtinNames,
      (initialVariantEnv.definition? name).isNone = true := by decide
  exact fun name hname => Option.isNone_iff_eq_none.1 (hall name hname)

namespace Check

variable {α β : Type} {P : VariantEnv → Prop} {m : Check α} {f : α → Check β}

/-- The declared types have the property after a part of a check, however it ends, if they had it
before. -/
def Preserves (P : VariantEnv → Prop) (m : Check α) : Prop :=
  ∀ o s, P s.variants → P (m o s).2.variants

theorem Preserves.bind (hm : Preserves P m) (hf : ∀ a, Preserves P (f a)) :
    Preserves P (m >>= f) := by
  intro o s hs
  have hs₁ := hm o s hs
  rw [bind_apply]
  rcases hrun : m o s with ⟨e | a, s₁⟩
  · rw [hrun] at hs₁
    exact hs₁
  · rw [hrun] at hs₁
    exact hf a o s₁ hs₁

theorem preserves_pure (a : α) : Preserves P (pure a : Check α) := fun _ _ hs => hs

theorem preserves_fail (cause : TypeError.Cause) (range : Range) :
    Preserves P (fail cause range : Check α) := fun _ _ hs => hs

theorem preserves_fresh (range : Range) : Preserves P (fresh range) := fun _ _ hs => hs

theorem preserves_report (e : Event) : Preserves P (report e) := fun _ _ hs => hs

theorem preserves_liftVariant (e : Except VariantError α) : Preserves P (liftVariant e) := by
  cases e with
  | ok a => exact preserves_pure a
  | error e => exact preserves_fail _ _

theorem preserves_mapM {l : List α} (hf : ∀ a ∈ l, Preserves P (f a)) :
    Preserves P (l.mapM f) := by
  induction l with
  | nil => exact preserves_pure []
  | cons a l ih =>
      rw [List.mapM_cons]
      exact (hf a List.mem_cons_self).bind fun b =>
        (ih fun c hc => hf c (List.mem_cons_of_mem _ hc)).bind fun bs => preserves_pure _

theorem preserves_forM {l : List α} {f : α → Check PUnit} (hf : ∀ a ∈ l, Preserves P (f a)) :
    Preserves P (l.forM f) := by
  induction l with
  | nil => exact preserves_pure PUnit.unit
  | cons a l ih =>
      exact (hf a List.mem_cons_self).bind fun _ => ih fun c hc => hf c (List.mem_cons_of_mem _ hc)

/-- New declarations in place of those that there are. -/
theorem preserves_setVariants {g : VariantEnv → Except VariantError VariantEnv}
    (hg : ∀ env env', P env → g env = .ok env' → P env') :
    Preserves P (do setVariants (g (← get).variants)) := by
  intro o s hs
  rw [bind_apply, get_apply]
  change P (setVariants (g s.variants) o s).2.variants
  cases henv : g s.variants with
  | error e => exact hs
  | ok env => exact hg s.variants env hs henv

theorem preserves_typeVariable (name : Ident) (scope : TypeScope) :
    Preserves P (typeVariable name scope) := by
  unfold typeVariable
  split
  · exact preserves_pure _
  · split
    · exact (preserves_fresh _).bind fun t => preserves_pure _
    · exact preserves_fail _ _

theorem preserves_namedType (name : Ident) (args : List Ty) (range : Range) :
    Preserves P (namedType name args range) := by
  unfold namedType
  split
  · split
    · exact preserves_pure _
    · exact preserves_fail _ _
  · split
    · exact preserves_pure _
    · exact preserves_fail _ _
  · exact Preserves.bind (fun _ _ hs => hs) fun s => preserves_liftVariant _

mutual

theorem preserves_typeExpr (scope : TypeScope) (e : TypeExpr) :
    Preserves P (typeExpr scope e) := by
  match e with
  | .var name => exact preserves_typeVariable name scope
  | .named args name range =>
      exact (preserves_typeExprs scope args).bind fun _ =>
        (preserves_namedType name _ range).bind fun _ => preserves_pure _
  | .func param result range =>
      exact (preserves_typeExpr scope param).bind fun r =>
        (preserves_typeExpr r.2 result).bind fun _ => preserves_pure _
  | .product items range =>
      exact (preserves_typeExprs scope items).bind fun _ => preserves_pure _
  | .record fields range =>
      exact (preserves_typeExprFields scope [] fields).bind fun _ => preserves_pure _

theorem preserves_typeExprs (scope : TypeScope) (es : List TypeExpr) :
    Preserves P (typeExprs scope es) := by
  match es with
  | [] => exact preserves_pure _
  | e :: es =>
      exact (preserves_typeExpr scope e).bind fun r =>
        (preserves_typeExprs r.2 es).bind fun _ => preserves_pure _

theorem preserves_typeExprFields (scope : TypeScope) (before : List (String × Ty))
    (fields : List (Ident × TypeExpr)) : Preserves P (typeExprFields scope before fields) := by
  match fields with
  | [] => exact preserves_pure _
  | (name, e) :: fields =>
      refine (preserves_typeExpr scope e).bind fun r => ?_
      dsimp only
      split
      · exact preserves_fail _ _
      · exact preserves_typeExprFields r.2 _ fields

end

theorem preserves_declaredType (names : List (String × Ty)) (e : TypeExpr) :
    Preserves P (declaredType names e) :=
  (preserves_typeExpr _ e).bind fun _ => preserves_pure _

theorem preserves_declareParams (decl : TypeDecl) : Preserves P (declareParams decl) := by
  intro o s hs
  rw [(idles_declareParams decl).1.variants]
  exact hs

section Declarations

variable
  (hdefine : ∀ {env env' : VariantEnv} {name : String} {d : TypeDefinition} {range : Range}, P env →
    (∀ params ctors, d = .variant params ctors → ctors = []) →
    env.define name d range = .ok env' → P env')
  (hadd : ∀ {env env' : VariantEnv} {variant name : String} {args : List Ty} {range : Range}, P env →
    env.addConstructor variant name args range = .ok env' → P env')

include hdefine in
theorem preserves_declareVariant (d : OpenDecl) : Preserves P (declareVariant d) := by
  match d with
  | ⟨.synonym _ _ _ _, _, _⟩ => exact preserves_pure _
  | ⟨.variant _ name _ _, params, names⟩ =>
      rw [declareVariant_variant]
      exact preserves_setVariants fun env env' henv h => hdefine henv (by simp) h

include hdefine in
theorem preserves_declareSynonym (d : OpenDecl) : Preserves P (declareSynonym d) := by
  match d with
  | ⟨.variant _ _ _ _, _, _⟩ => exact preserves_pure _
  | ⟨.synonym _ name body _, params, names⟩ =>
      rw [declareSynonym_synonym]
      exact (preserves_declaredType names body).bind fun t =>
        preserves_setVariants fun env env' henv h => hdefine henv (by simp) h

include hadd in
theorem preserves_declareConstructors (d : OpenDecl) : Preserves P (declareConstructors d) := by
  match d with
  | ⟨.synonym _ _ _ _, _, _⟩ => exact preserves_pure _
  | ⟨.variant _ name ctors _, params, names⟩ =>
      rw [declareConstructors_variant]
      exact preserves_forM fun ctor _ =>
        (preserves_mapM fun e _ => preserves_declaredType names e).bind fun args =>
          preserves_setVariants fun env env' henv h => hadd henv h

include hdefine hadd in
/-- What one declaration preserves is preserved by a group, accepted or not. -/
theorem preserves_declareGroup (group : List TypeDecl) : Preserves P (declareGroup group) :=
  (preserves_mapM fun decl _ => preserves_declareParams decl).bind fun _ =>
    (preserves_forM fun d _ => preserves_declareVariant hdefine d).bind fun _ =>
      (preserves_forM fun d _ => preserves_declareSynonym hdefine d).bind fun _ =>
        (preserves_forM fun d _ => preserves_declareConstructors hadd d).bind fun _ =>
          preserves_report _

end Declarations

end Check

/-- What declaring groups of types leads to, from nothing or from the types that every program can
use. A group may also be refused, which leaves the declarations before the fault. -/
inductive VariantEnv.Registered : VariantEnv → Prop
  | empty : Registered {}
  | initial : Registered initialVariantEnv
  | declareGroup {s : CheckState} (o : CheckOptions) (group : List TypeDecl)
      (h : Registered s.variants) : Registered (Check.declareGroup group o s).2.variants

namespace VariantEnv.Registered

variable {env : VariantEnv}

theorem backed (h : env.Registered) : env.Backed := by
  induction h with
  | empty => simp [Backed, definition?, Fields.get?]
  | initial => exact backed_initialVariantEnv
  | declareGroup o group h ih =>
      exact preserves_declareGroup (fun h => h.define) (fun h => h.addConstructor) group o _ ih

/-- No declared type takes the name of one that needs no declaration. -/
theorem reserves (h : env.Registered) : env.Reserves := by
  induction h with
  | empty => exact fun _ _ => rfl
  | initial => exact reserves_initialVariantEnv
  | declareGroup o group h ih =>
      exact preserves_declareGroup (fun h _ => h.define) (fun h => h.addConstructor) group o _ ih

/-- So the constructors of a variant are exactly those that it lists. -/
theorem listsAll (h : env.Registered) (henv : env.Wf) : env.ListsAll := by
  intro name c hc
  obtain ⟨ctors, hdef, -⟩ := henv.listed name c hc
  refine ⟨ctors, by rw [variantCtors?, hdef], fun other => ⟨h.backed _ _ _ hdef other, ?_⟩⟩
  rintro ⟨d, hd, hvariant⟩
  obtain ⟨ctors', hdef', hmem⟩ := henv.listed other d hd
  rw [hvariant, hdef] at hdef'
  obtain ⟨-, rfl⟩ := TypeDefinition.variant.inj (Option.some.inj hdef')
  exact hmem

end VariantEnv.Registered

end FieldML
