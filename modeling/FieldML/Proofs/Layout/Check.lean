import FieldML.Check.Declare
import FieldML.Proofs.Check.Basic
import FieldML.Proofs.Check.TypeExpr
import FieldML.Proofs.Layout.Syntax
import FieldML.Proofs.Layout.Unify
import FieldML.Proofs.Layout.Variants

/-!
# Steps of a check do not look at ranges

In a state whose types have no ranges a step of a check does the same: it hands out the same
variables, fails for the same cause and makes the same remarks. Only the events tell places apart.
-/

namespace FieldML

def TypeError.Cause.erase : TypeError.Cause → TypeError.Cause
  | .contradiction c => .contradiction c.erase
  | cause => cause

/-- The fault without its range and those of the types in it. -/
def TypeError.erase (e : TypeError) : TypeError := ⟨e.cause.erase, .erased⟩

theorem Contradiction.erase_erase (c : Contradiction) : c.erase.erase = c.erase := by
  obtain ⟨reason, t, u, kinds⟩ := c
  have hreason : reason.erase.erase = reason.erase := by
    cases reason with
    | occurs v t => exact congrArg (Reason.occurs v) t.erase_erase
    | _ => rfl
  simp [erase, hreason, Kind.erase_erase]

theorem TypeError.Cause.erase_erase (cause : Cause) : cause.erase.erase = cause.erase := by
  cases cause with
  | contradiction c => exact congrArg Cause.contradiction c.erase_erase
  | _ => rfl

def Warning.erase (w : Warning) : Warning := ⟨w.cause, .erased⟩

/-- The second state is the first one without ranges, apart from what was only reported. -/
structure CheckState.Erased (s s' : CheckState) : Prop where
  variants : s'.variants = s.variants.erase
  solver : s.solver.Erased s'.solver
  next : s'.next = s.next
  warnings : s'.warnings = s.warnings.map Warning.erase

namespace Check

variable {α β : Type} {v : α → α} {w : β → β} {p q : Check α}

/-- In a state without ranges `q` does what `p` does in the state itself, and `v` erases the outcome.
Ranges that only explain a fault may differ. -/
def Blind (v : α → α) (p q : Check α) : Prop :=
  ∀ o s s', CheckState.Erased s s' →
    (q o s').1.mapError TypeError.erase = ((p o s).1.map v).mapError TypeError.erase ∧
      (p o s).2.Erased (q o s').2

theorem Blind.bind {f g : α → Check β} (hp : Blind v p q) (hf : ∀ a, Blind w (f a) (g (v a))) :
    Blind w (p >>= f) (q >>= g) := by
  intro o s s' hs
  obtain ⟨hresult, hstate⟩ := hp o s s' hs
  rw [bind_apply, bind_apply]
  rcases hfirst : p o s with ⟨e | a, s₁⟩ <;> rcases hsecond : q o s' with ⟨e' | b, s₁'⟩ <;>
    rw [hfirst, hsecond] at hresult hstate
  · exact ⟨congrArg Except.error (Except.error.inj hresult), hstate⟩
  · cases hresult
  · cases hresult
  · obtain rfl : b = v a := Except.ok.inj hresult
    exact hf a o s₁ s₁' hstate

theorem Blind.pure {a b : α} (h : v a = b) : Blind v (Pure.pure a) (Pure.pure b) := by
  subst h
  exact fun _ _ _ hs => ⟨rfl, hs⟩

theorem Blind.ite_iff {c c' : Prop} [Decidable c] [Decidable c'] {p' q' : Check α} (hc : c' ↔ c)
    (hp : Blind v p q) (hp' : Blind v p' q') :
    Blind v (if c then p else p') (if c' then q else q') := by
  by_cases h : c
  · rw [if_pos h, if_pos (hc.2 h)]
    exact hp
  · rw [if_neg h, if_neg (h ∘ hc.1)]
    exact hp'

theorem Blind.ite {c : Prop} [Decidable c] {p' q' : Check α} (hp : Blind v p q)
    (hp' : Blind v p' q') : Blind v (if c then p else p') (if c then q else q') :=
  .ite_iff .rfl hp hp'

theorem Blind.congr {v' : α → α} (h : Blind v p q) (hv : ∀ a, v a = v' a) : Blind v' p q :=
  funext hv ▸ h

theorem Blind.trans_eq {q' : Check α} (h : Blind v p q) (heq : q = q') : Blind v p q' := heq ▸ h

theorem blind_fail (cause : TypeError.Cause) {r r' : Range} :
    Blind v (fail cause r) (fail cause.erase r') := fun _ _ _ hs =>
  ⟨congrArg (fun cause => Except.error (TypeError.mk cause _)) cause.erase_erase, hs⟩

theorem blind_get_bind {f g : CheckState → Check α}
    (h : ∀ s s', CheckState.Erased s s' → Blind v (f s) (g s')) :
    Blind v (get >>= f) (get >>= g) := fun o s s' hs => h s s' hs o s s' hs

theorem blind_read_bind {f g : CheckOptions → Check α} (h : ∀ o, Blind v (f o) (g o)) :
    Blind v (read >>= f) (read >>= g) := fun o => h o o

theorem blind_modify {f g : CheckState → CheckState}
    (h : ∀ s s', CheckState.Erased s s' → (f s).Erased (g s')) :
    Blind id (modify f) (modify g) := fun _ s s' hs => ⟨rfl, h s s' hs⟩

theorem blind_report (e e' : Event) : Blind id (report e) (report e') :=
  blind_modify fun _ _ hs => ⟨hs.variants, hs.solver, hs.next, hs.warnings⟩

theorem blind_warn (cause : Warning.Cause) (r : Range) :
    Blind id (warn ⟨cause, r⟩) (warn ⟨cause, .erased⟩) :=
  blind_modify fun _ _ hs => ⟨hs.variants, hs.solver, hs.next, congrArg (_ :: ·) hs.warnings⟩

/-! ### Repetition -/

theorem blind_forM {γ δ : Type} {f : γ → Check Unit} {g : δ → Check Unit} {c : γ → δ}
    (h : ∀ a, Blind id (f a) (g (c a))) (as : List γ) :
    Blind id (as.forM f) ((as.map c).forM g) := by
  induction as with
  | nil => exact .pure rfl
  | cons a as ih => exact (h a).bind fun _ => ih

theorem blind_mapM {γ δ : Type} {f : γ → Check α} {g : δ → Check α} {c : γ → δ}
    (h : ∀ a, Blind v (f a) (g (c a))) (as : List γ) :
    Blind (List.map v) (as.mapM f) ((as.map c).mapM g) := by
  induction as with
  | nil => exact .pure rfl
  | cons a as ih =>
      rw [List.map_cons, List.mapM_cons, List.mapM_cons]
      exact (h a).bind fun b => ih.bind fun bs => .pure rfl

theorem blind_foldlM {γ δ : Type} {f : α → γ → Check α} {g : α → δ → Check α} {c : γ → δ}
    (h : ∀ a b, Blind v (f a b) (g (v a) (c b))) (bs : List γ) (a : α) :
    Blind v (bs.foldlM f a) ((bs.map c).foldlM g (v a)) := by
  induction bs generalizing a with
  | nil => exact .pure rfl
  | cons b bs ih => exact (h a b).bind ih

/-! ### Type variables and comparisons -/

theorem blind_freshId : Blind id freshId freshId := fun _ _ _ hs =>
  ⟨congrArg Except.ok hs.next, hs.variants, hs.solver, congrArg (· + 1) hs.next, hs.warnings⟩

theorem blind_fresh (r : Range) : Blind Ty.erase (fresh r) (fresh .erased) :=
  blind_freshId.bind fun _ => .pure rfl

theorem blind_freshKinded (kind : Kind) (r : Range) :
    Blind Ty.erase (freshKinded kind r) (freshKinded kind.erase .erased) := by
  refine blind_freshId.bind fun v => ?_
  cases kind with
  | universal => exact .pure rfl
  | record fs =>
      refine blind_get_bind fun s s' hs => ?_
      cases hknown : s.solver.kinds.kinds.contains v with
      | true =>
          simp only [KindEnv.extend, id, hs.solver.kinds.contains, hknown, if_true]
          exact (blind_fail (v := id (α := Unit)) (.alreadyKinded ⟨v⟩)).bind fun _ => .pure rfl
      | false =>
          simp only [KindEnv.extend, id, hs.solver.kinds.contains, hknown, Bool.false_eq_true,
            if_false]
          refine (blind_modify fun s₁ s₁' hs₁ => ?_).bind fun _ => .pure rfl
          exact ⟨hs₁.variants, ⟨hs₁.solver.subst, hs.solver.kinds.refine v (.record fs)⟩, hs₁.next,
            hs₁.warnings⟩

theorem blind_unify (t u : Ty) {r r' : Range} :
    Blind id (unify t u r) (unify t.erase u.erase r') := by
  intro o s s' hs
  obtain ⟨hresult, hsolver⟩ := hs.solver.unify t u
  rw [unify_apply, unify_apply, hresult]
  refine ⟨?_, hs.variants, hsolver, hs.next, hs.warnings⟩
  rcases (s.solver.unify t u).1 with c | ⟨⟩
  · exact congrArg (fun c => Except.error (TypeError.mk (.contradiction c) _)) c.erase_erase
  · rfl

theorem blind_resolve (t : Ty) : Blind Ty.erase (resolve t) (resolve t.erase) :=
  blind_get_bind fun _ _ hs => .pure (hs.solver.subst.apply t)

theorem quantifiers_erase (t : Ty) : quantifiers t.erase = quantifiers t := by
  match t with
  | .all _ _ t _ => exact congrArg (· + 1) (quantifiers_erase t)
  | .base _ _ | .var _ _ | .func _ _ _ | .list _ _ | .ref _ _ | .product _ _ | .variant _ _ _
  | .synonym _ _ _ _ | .record _ _ => rfl

theorem blind_openQuantifiers (r : Range) (n : Nat) (t : Ty) :
    Blind Ty.erase (openQuantifiers r n t) (openQuantifiers .erased n t.erase) := by
  induction n generalizing t with
  | zero => exact .pure rfl
  | succ n ih =>
      cases t with
      | all v kind t _ =>
          refine (blind_freshKinded kind r).bind fun u => (ih (t.substitute v u)).trans_eq ?_
          rw [Ty.erase_substitute]
      | _ => exact .pure rfl

theorem blind_instantiate (t : Ty) (r : Range) :
    Blind Ty.erase (instantiate t r) (instantiate t.erase .erased) := by
  unfold instantiate
  rw [quantifiers_erase]
  refine (blind_openQuantifiers r (quantifiers t) t).bind fun u => .pure ?_
  rw [Ty.erase_withRange, Ty.withRange_erase]

theorem blind_liftVariant {r r' : Except VariantError α}
    (h : r' = (r.map v).mapError VariantError.erase) :
    Blind v (liftVariant r) (liftVariant r') := by
  subst h
  cases r with
  | error e => exact blind_fail _
  | ok a => exact .pure rfl

end Check

end FieldML

/-! ## Declarations do not look at ranges

What a written type means does not depend on where it is written, and neither do the declarations of
types. -/

namespace FieldML

def TypeScope.erase (scope : TypeScope) : TypeScope := ⟨Ty.eraseFields scope.names, scope.isOpen⟩

namespace Check

variable {α : Type} {v : α → α} {p q : Check α}

/-- The type of a step without ranges, in the scope that it leads to. -/
abbrev eraseScoped (f : α → α) (p : α × TypeScope) : α × TypeScope := (f p.1, p.2.erase)

theorem blind_typeVariable (name : Ident) (scope : TypeScope) :
    Blind (eraseScoped Ty.erase) (typeVariable name scope)
      (typeVariable name.erase scope.erase) := by
  unfold typeVariable
  simp only [Ident.erase, TypeScope.erase, Ty.get?_eraseFields]
  cases Fields.get? scope.names name.text with
  | some t => exact .pure (by simp [Ty.erase_withRange, Ty.withRange_erase, TypeScope.erase])
  | none =>
      refine .ite ((blind_fresh name.range).bind fun t => .pure ?_) (blind_fail _)
      exact congrArg (fun names => (t.erase, TypeScope.mk names scope.isOpen))
        (Ty.insert_eraseFields scope.names name.text t).symm

theorem blind_namedType (name : Ident) (args : List Ty) (r : Range) :
    Blind Ty.erase (namedType name args r)
      (namedType name.erase (Ty.eraseList args) .erased) := by
  have blind_arity (expected : Nat) :
      Blind Ty.erase (fail (.variant (.typeArity name.text expected args.length)) name.range)
        (fail (.variant (.typeArity name.text expected (Ty.eraseList args).length)) .erased) := by
    rw [Ty.length_eraseList]
    exact blind_fail _
  unfold namedType
  simp only [Ident.erase]
  cases baseType? name.text with
  | some b =>
      have hempty : (Ty.eraseList args).isEmpty = args.isEmpty := by cases args <;> rfl
      rw [hempty]
      exact .ite (.pure rfl) (blind_arity 0)
  | none =>
      cases hmake : unaryType? name.text with
      | some make =>
          rcases args with _ | ⟨t, _ | ⟨u, args⟩⟩
          · exact blind_arity 1
          · rcases eq_of_unaryType? hmake with rfl | rfl
            · exact .pure rfl
            · exact .pure rfl
          · exact blind_arity 1
      | none =>
          refine blind_get_bind fun s s' hs => blind_liftVariant ?_
          rw [hs.variants, s.variants.resolve_erase]

mutual

theorem blind_typeExpr (scope : TypeScope) (t : TypeExpr) :
    Blind (eraseScoped Ty.erase) (typeExpr scope t) (typeExpr scope.erase t.erase) := by
  match t with
  | .var name => exact blind_typeVariable name scope
  | .named args name r =>
      refine (blind_typeExprs scope args).bind fun found => ?_
      exact (blind_namedType name found.1 r).bind fun t => .pure rfl
  | .func param result r =>
      refine (blind_typeExpr scope param).bind fun found => ?_
      exact (blind_typeExpr found.2 result).bind fun found' => .pure rfl
  | .product items r => exact (blind_typeExprs scope items).bind fun found => .pure rfl
  | .record fields r => exact (blind_typeExprFields scope [] fields).bind fun found => .pure rfl

theorem blind_typeExprs (scope : TypeScope) (ts : List TypeExpr) :
    Blind (eraseScoped Ty.eraseList) (typeExprs scope ts)
      (typeExprs scope.erase (TypeExpr.eraseList ts)) := by
  match ts with
  | [] => exact .pure rfl
  | t :: ts =>
      refine (blind_typeExpr scope t).bind fun found => ?_
      exact (blind_typeExprs found.2 ts).bind fun found' => .pure rfl

theorem blind_typeExprFields (scope : TypeScope) (before : List (String × Ty))
    (fields : List (Ident × TypeExpr)) :
    Blind (eraseScoped Ty.eraseFields) (typeExprFields scope before fields)
      (typeExprFields scope.erase (Ty.eraseFields before) (TypeExpr.eraseFields fields)) := by
  match fields with
  | [] => exact .pure rfl
  | (name, t) :: fields =>
      refine (blind_typeExpr scope t).bind fun found => ?_
      simp only [Ident.erase, Ty.get?_eraseFields, Option.isSome_map, Ty.insert_eraseFields]
      exact .ite (blind_fail _) (blind_typeExprFields found.2 _ fields)

end

theorem blind_annotated (t : TypeExpr) :
    Blind Ty.erase ( annotation t) ( annotation t.erase) :=
  (blind_typeExpr ⟨[], true⟩ t).bind fun _ => .pure rfl

theorem blind_declaredType (params : List (String × Ty)) (t : TypeExpr) :
    Blind Ty.erase (declaredType params t) (declaredType (Ty.eraseFields params) t.erase) :=
  (blind_typeExpr ⟨params, false⟩ t).bind fun _ => .pure rfl

/-! ### Groups of declarations -/

def OpenDecl.erase (d : OpenDecl) : OpenDecl := ⟨d.decl.erase, d.params, Ty.eraseFields d.names⟩

theorem blind_setVariants {env env' : Except VariantError VariantEnv}
    (h : env' = (env.map VariantEnv.erase).mapError VariantError.erase) :
    Blind id (setVariants env) (setVariants env') :=
  (blind_liftVariant h).bind fun _ =>
    blind_modify fun _ _ hs => ⟨rfl, hs.solver, hs.next, hs.warnings⟩

theorem blind_declareParams (decl : TypeDecl) :
    Blind OpenDecl.erase (declareParams decl) (declareParams decl.erase) := by
  rcases decl with ⟨params, _, _, _⟩ | ⟨params, _, _, _⟩
  all_goals
    refine Blind.bind (v := Prod.map id Ty.eraseFields) (blind_foldlM (c := Ident.erase)
      (fun found param => blind_freshId.bind fun v => ?_) params ([], [])) fun _ => .pure rfl
    simp only [Ident.erase, Ty.get?_eraseFields, Option.isSome_map]
    refine .ite (blind_fail _) (.pure ?_)
    exact congrArg (Prod.mk _) (Ty.insert_eraseFields found.2 param.text (.var v _)).symm

theorem blind_declareVariant (d : OpenDecl) :
    Blind id (declareVariant d) (declareVariant d.erase) := by
  obtain ⟨decl, params, names⟩ := d
  cases decl with
  | variant _ name _ _ =>
      rw [OpenDecl.erase, TypeDecl.erase, declareVariant_variant, declareVariant_variant]
      refine blind_get_bind fun s s' hs => blind_setVariants ?_
      rw [hs.variants]
      exact s.variants.define_erase name.text (.variant params []) name.range
  | «synonym» _ _ _ _ => exact .pure rfl

theorem blind_declareSynonym (d : OpenDecl) :
    Blind id (declareSynonym d) (declareSynonym d.erase) := by
  obtain ⟨decl, params, names⟩ := d
  cases decl with
  | variant _ _ _ _ => exact .pure rfl
  | «synonym» _ name body _ =>
      rw [OpenDecl.erase, TypeDecl.erase, declareSynonym_synonym, declareSynonym_synonym]
      refine (blind_declaredType names body).bind fun t => ?_
      refine blind_get_bind fun s s' hs => blind_setVariants ?_
      rw [hs.variants]
      exact s.variants.define_erase name.text (.synonym params t) name.range

theorem blind_declareConstructors (d : OpenDecl) :
    Blind id (declareConstructors d) (declareConstructors d.erase) := by
  obtain ⟨decl, params, names⟩ := d
  cases decl with
  | variant _ name ctors _ =>
      rw [OpenDecl.erase, TypeDecl.erase, declareConstructors_variant, declareConstructors_variant]
      refine blind_forM (c := CtorDecl.erase) (fun ctor => ?_) ctors
      have hargs := blind_mapM (blind_declaredType names) ctor.args
      rw [← TypeExpr.eraseList_eq_map] at hargs
      refine hargs.bind fun ts => blind_get_bind fun s s' hs => blind_setVariants ?_
      rw [hs.variants, ← Ty.eraseList_eq_map]
      exact s.variants.addConstructor_erase name.text ctor.name.text ts ctor.name.range
  | «synonym» _ _ _ _ => exact .pure rfl

theorem blind_declareGroup (group : List TypeDecl) :
    Blind id (declareGroup group) (declareGroup (group.map TypeDecl.erase)) := by
  refine (blind_mapM blind_declareParams group).bind fun decls => ?_
  refine (blind_forM blind_declareVariant decls).bind fun _ => ?_
  refine (blind_forM blind_declareSynonym decls).bind fun _ => ?_
  exact (blind_forM blind_declareConstructors decls).bind fun _ => blind_report _ _

end Check

end FieldML
