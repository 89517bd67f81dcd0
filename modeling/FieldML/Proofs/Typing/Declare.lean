import FieldML.Proofs.Check.Program
import FieldML.Proofs.Typing.Constructor

/-!
# Declarations without synonyms

Where no type is declared as a synonym, written types mean types without synonyms. So declaring
variants leads to constructors that take arguments of such types, and finds out nothing about
variables.
-/

namespace FieldML

open Check

/-- Whether the declaration is one of a variant. -/
def TypeDecl.isVariant : TypeDecl → Bool
  | .variant _ _ _ _ => true
  | .synonym _ _ _ _ => false

/-- No type is declared as a synonym, nor are there synonyms in the types of arguments. -/
structure VariantEnv.SynonymFree (env : VariantEnv) : Prop where
  definitions : ∀ name params body, env.definition? name ≠ some (.synonym params body)
  flat : env.Flat

namespace VariantEnv.SynonymFree

variable {env env' : VariantEnv} {t : Ty} {args : List Ty} {name : String} {range : Range}

theorem resolve (henv : env.SynonymFree) (hargs : ∀ t ∈ args, t.Simple False)
    (h : env.resolve name args range = .ok t) : t.Simple False := by
  unfold VariantEnv.resolve at h
  split at h
  · cases h
  · next d hd =>
      split at h
      · cases h
      · cases d with
        | variant params ctors =>
            obtain rfl := Except.ok.inj h
            exact .variant name range hargs
        | synonym params body => exact absurd hd (henv.definitions name params body)

theorem defineVariant (henv : env.SynonymFree) {params : List TypeVar}
    (h : env.define name (.variant params []) range = .ok env') : env'.SynonymFree where
  definitions other params' body hdef := by
    rw [definition?_define h] at hdef
    split at hdef
    · simp at hdef
    · exact henv.definitions other params' body hdef
  flat other c hc := by
    rw [constructor?_define h] at hc
    exact henv.flat other c hc

theorem addConstructor (henv : env.SynonymFree) {variant : String}
    (hargs : ∀ t ∈ args, t.Simple False)
    (h : env.addConstructor variant name args range = .ok env') : env'.SynonymFree := by
  obtain ⟨-, params, ctors, -, hdefs, hctors⟩ := addConstructor_eq_ok h
  refine ⟨fun other params' body hdef => ?_, fun other c hc => ?_⟩
  · rw [hdefs] at hdef
    split at hdef
    · simp at hdef
    · exact henv.definitions other params' body hdef
  · rw [hctors] at hc
    split at hc
    · obtain rfl := Option.some.inj hc
      exact hargs
    · exact henv.flat other c hc

end VariantEnv.SynonymFree

theorem synonymFree_initialVariantEnv : initialVariantEnv.SynonymFree := by
  refine ⟨fun name params body h => ?_, fun name c h t ht => ?_⟩
  · have hmem : (name, TypeDefinition.synonym params body) ∈ initialVariantEnv.definitions :=
      Fields.mem_of_get? h
    simp [initialVariantEnv] at hmem
  · have hmem : (name, c) ∈ initialVariantEnv.constructors := Fields.mem_of_get? h
    rcases List.mem_cons.1 hmem with heq | hmem
    · obtain ⟨-, rfl⟩ := Prod.mk.inj heq
      simp at ht
    · obtain ⟨-, rfl⟩ := Prod.mk.inj (List.mem_singleton.1 hmem)
      obtain rfl := List.mem_singleton.1 ht
      exact .var 4 _

/-- All names of the scope mean types without synonyms. -/
def TypeScope.SynonymFree (scope : TypeScope) : Prop := ∀ p ∈ scope.names, p.2.Simple False

namespace Check

variable {α β : Type} {m : Check α} {f : α → Check β} {Q P : α → Prop} {R : β → Prop}
  {scope : TypeScope}

/-- Where there are no synonyms, a part of a check declares none and finds out nothing, with an
outcome for which `Q` holds if it succeeds. -/
def Declaring (m : Check α) (Q : α → Prop) : Prop :=
  ∀ o s a s', s.variants.SynonymFree → m o s = (.ok a, s') →
    s'.variants.SynonymFree ∧ s'.solver = s.solver ∧ Q a

namespace Declaring

theorem bind (hm : Declaring m Q) (hf : ∀ a, Q a → Declaring (f a) R) :
    Declaring (m >>= f) R := by
  intro o s b s' hs hrun
  rw [bind_apply] at hrun
  rcases hrun₁ : m o s with ⟨e | a, s₁⟩
  · rw [hrun₁] at hrun
    cases hrun
  · rw [hrun₁] at hrun
    obtain ⟨hs₁, hsolver₁, ha⟩ := hm o s a s₁ hs hrun₁
    obtain ⟨hs', hsolver', hb⟩ := hf a ha o s₁ b s' hs₁ hrun
    exact ⟨hs', hsolver'.trans hsolver₁, hb⟩

theorem mono (hm : Declaring m P) (h : ∀ a, P a → Q a) : Declaring m Q :=
  fun o s a s' hs hrun =>
    have ⟨hs', hsolver, ha⟩ := hm o s a s' hs hrun
    ⟨hs', hsolver, h a ha⟩

theorem pure {a : α} (ha : Q a) : Declaring (Pure.pure a : Check α) Q := by
  rintro o s _ _ hs ⟨rfl, rfl⟩
  exact ⟨hs, rfl, ha⟩

theorem fail (cause : TypeError.Cause) (range : Range) :
    Declaring (Check.fail cause range : Check α) Q := by
  rintro o s _ _ hs ⟨⟩

theorem fresh (range : Range) : Declaring (Check.fresh range) fun t => t.Simple False := by
  rintro o s _ _ hs ⟨rfl, rfl⟩
  exact ⟨hs, rfl, .var _ range⟩

theorem report (e : Event) : Declaring (Check.report e) fun _ => True := by
  rintro o s _ _ hs ⟨rfl, rfl⟩
  exact ⟨hs, rfl, trivial⟩

theorem mapM {l : List α} (hf : ∀ a ∈ l, Declaring (f a) R) :
    Declaring (l.mapM f) fun bs => ∀ b ∈ bs, R b := by
  induction l with
  | nil => exact .pure (by simp)
  | cons a l ih =>
      rw [List.mapM_cons]
      exact (hf a List.mem_cons_self).bind fun b hb =>
        (ih fun c hc => hf c (List.mem_cons_of_mem _ hc)).bind fun bs hbs =>
          .pure (List.forall_mem_cons.2 ⟨hb, hbs⟩)

theorem forM {l : List α} {f : α → Check PUnit} (hf : ∀ a ∈ l, Declaring (f a) fun _ => True) :
    Declaring (l.forM f) fun _ => True := by
  induction l with
  | nil => exact .pure trivial
  | cons a l ih =>
      exact (hf a List.mem_cons_self).bind fun _ _ =>
        ih fun c hc => hf c (List.mem_cons_of_mem _ hc)

theorem foldlM {l : List β} {g : α → β → Check α} (hg : ∀ a b, Q a → Declaring (g a b) Q) {a : α}
    (ha : Q a) : Declaring (l.foldlM g a) Q := by
  induction l generalizing a with
  | nil => exact .pure ha
  | cons b l ih => exact (hg a b ha).bind fun a ha => ih ha

/-- New declarations in place of those that there are. -/
theorem setVariants {g : VariantEnv → Except VariantError VariantEnv}
    (hg : ∀ env env', env.SynonymFree → g env = .ok env' → env'.SynonymFree) :
    Declaring (do Check.setVariants (g (← get).variants)) fun _ => True := by
  intro o s a s' hs hrun
  rw [bind_apply, get_apply] at hrun
  change Check.setVariants (g s.variants) o s = (.ok a, s') at hrun
  cases henv : g s.variants with
  | error e =>
      rw [henv] at hrun
      cases hrun
  | ok env =>
      rw [henv] at hrun
      cases hrun
      exact ⟨hg s.variants env hs henv, rfl, trivial⟩

end Declaring

theorem declaring_typeVariable (hscope : scope.SynonymFree) (name : Ident) :
    Declaring (typeVariable name scope) fun r => r.1.Simple False ∧ r.2.SynonymFree := by
  unfold typeVariable
  split
  · next t ht => exact .pure ⟨(hscope _ (Fields.mem_of_get? ht)).withRange _, hscope⟩
  · split
    · refine (Declaring.fresh name.range).bind fun t ht => .pure ⟨ht, ?_⟩
      rintro ⟨other, u⟩ hp
      rcases Fields.mem_insert hp with heq | hp
      · obtain ⟨-, rfl⟩ := Prod.mk.inj heq
        exact ht
      · exact hscope _ hp
    · exact .fail _ _

theorem declaring_namedType {args : List Ty} (hargs : ∀ t ∈ args, t.Simple False) (name : Ident)
    (range : Range) : Declaring (namedType name args range) fun t => t.Simple False := by
  unfold namedType
  split
  · split
    · exact .pure (.base _ range)
    · exact .fail _ _
  · next make hmake =>
      split
      · next t =>
          have ht := hargs t List.mem_cons_self
          rcases eq_of_unaryType? hmake with rfl | rfl
          · exact .pure (.list range ht)
          · exact .pure (.ref range ht)
      · exact .fail _ _
  · intro o s t s' hs hrun
    rw [bind_apply, get_apply] at hrun
    change liftVariant (s.variants.resolve name.text args range) o s = (.ok t, s') at hrun
    cases hresolve : s.variants.resolve name.text args range with
    | error e =>
        rw [hresolve] at hrun
        cases hrun
    | ok u =>
        rw [hresolve] at hrun
        cases hrun
        exact ⟨hs, rfl, hs.resolve hargs hresolve⟩

mutual

theorem declaring_typeExpr {scope : TypeScope} (hscope : scope.SynonymFree) (e : TypeExpr) :
    Declaring (typeExpr scope e) fun r => r.1.Simple False ∧ r.2.SynonymFree := by
  match e with
  | .var name => exact declaring_typeVariable hscope name
  | .named args name range =>
      exact (declaring_typeExprs hscope args).bind fun r ⟨hargs, hscope₁⟩ =>
        (declaring_namedType hargs name range).bind fun t ht => .pure ⟨ht, hscope₁⟩
  | .func param result range =>
      exact (declaring_typeExpr hscope param).bind fun p ⟨hp, hscope₁⟩ =>
        (declaring_typeExpr hscope₁ result).bind fun q ⟨hq, hscope₂⟩ =>
          .pure ⟨.func range hp hq, hscope₂⟩
  | .product items range =>
      exact (declaring_typeExprs hscope items).bind fun r ⟨hitems, hscope₁⟩ =>
        .pure ⟨.product range hitems, hscope₁⟩
  | .record fields range =>
      exact (declaring_typeExprFields hscope Fields.sorted_nil (by simp) fields).bind
        fun r ⟨hsorted, hfields, hscope₁⟩ => .pure ⟨.record range hsorted hfields, hscope₁⟩

theorem declaring_typeExprs {scope : TypeScope} (hscope : scope.SynonymFree)
    (es : List TypeExpr) :
    Declaring (typeExprs scope es) fun r => (∀ t ∈ r.1, t.Simple False) ∧ r.2.SynonymFree := by
  match es with
  | [] => exact .pure ⟨by simp, hscope⟩
  | e :: es =>
      exact (declaring_typeExpr hscope e).bind fun r ⟨ht, hscope₁⟩ =>
        (declaring_typeExprs hscope₁ es).bind fun rs ⟨hts, hscope₂⟩ =>
          .pure ⟨List.forall_mem_cons.2 ⟨ht, hts⟩, hscope₂⟩

theorem declaring_typeExprFields {scope : TypeScope} (hscope : scope.SynonymFree)
    {before : List (String × Ty)} (hsorted : Fields.Sorted before)
    (hbefore : ∀ p ∈ before, p.2.Simple False) (fields : List (Ident × TypeExpr)) :
    Declaring (typeExprFields scope before fields) fun r =>
      Fields.Sorted r.1 ∧ (∀ p ∈ r.1, p.2.Simple False) ∧ r.2.SynonymFree := by
  match fields with
  | [] => exact .pure ⟨hsorted, hbefore, hscope⟩
  | (name, e) :: fields =>
      refine (declaring_typeExpr hscope e).bind fun r ⟨ht, hscope₁⟩ => ?_
      dsimp only
      split
      · exact .fail _ _
      · refine declaring_typeExprFields hscope₁ (Fields.sorted_insert hsorted name.text r.1) ?_
          fields
        rintro ⟨other, u⟩ hp
        rcases Fields.mem_insert hp with heq | hp
        · obtain ⟨-, rfl⟩ := Prod.mk.inj heq
          exact ht
        · exact hbefore _ hp

end

theorem declaring_declaredType {names : List (String × Ty)}
    (hnames : ∀ p ∈ names, p.2.Simple False) (e : TypeExpr) :
    Declaring (declaredType names e) fun t => t.Simple False :=
  have hscope : TypeScope.SynonymFree ⟨names, false⟩ := hnames
  (declaring_typeExpr hscope e).bind fun _ ⟨ht, _⟩ => .pure ht

theorem declaring_declareParams (decl : TypeDecl) :
    Declaring (declareParams decl) fun d => d.decl = decl ∧ ∀ p ∈ d.names, p.2.Simple False := by
  refine Declaring.bind (Q := fun r => ∀ p ∈ r.2, p.2.Simple False)
    (.foldlM (fun r param hr => ?_) (by simp)) fun r hr => .pure ⟨rfl, hr⟩
  refine Declaring.bind (Q := fun _ => True) ?_ fun v _ => ?_
  · rintro o s _ _ hs ⟨rfl, rfl⟩
    exact ⟨hs, rfl, trivial⟩
  · split
    · exact .fail _ _
    · refine .pure ?_
      rintro ⟨other, t⟩ hp
      rcases Fields.mem_insert hp with heq | hp
      · obtain ⟨-, rfl⟩ := Prod.mk.inj heq
        exact .var v _
      · exact hr _ hp

theorem declaring_declareVariant (d : OpenDecl) :
    Declaring (declareVariant d) fun _ => True := by
  match d with
  | ⟨.synonym _ _ _ _, _, _⟩ => exact .pure trivial
  | ⟨.variant _ name _ _, params, _⟩ =>
      rw [declareVariant_variant]
      exact .setVariants fun env env' henv h => henv.defineVariant h

theorem declaring_declareSynonym {d : OpenDecl} (hd : d.decl.isVariant = true) :
    Declaring (declareSynonym d) fun _ => True := by
  match d with
  | ⟨.variant _ _ _ _, _, _⟩ => exact .pure trivial

theorem declaring_declareConstructors {d : OpenDecl} (hd : ∀ p ∈ d.names, p.2.Simple False) :
    Declaring (declareConstructors d) fun _ => True := by
  match d with
  | ⟨.synonym _ _ _ _, _, _⟩ => exact .pure trivial
  | ⟨.variant _ name ctors _, params, names⟩ =>
      rw [declareConstructors_variant]
      exact .forM fun ctor _ =>
        (Declaring.mapM fun e _ => declaring_declaredType hd e).bind fun args hargs =>
          .setVariants fun env env' henv h => henv.addConstructor hargs h

theorem declaring_declareGroup {group : List TypeDecl}
    (hgroup : ∀ decl ∈ group, decl.isVariant = true) :
    Declaring (declareGroup group) fun _ => True := by
  have hparams : Declaring (group.mapM declareParams) fun decls => ∀ d ∈ decls,
      d.decl.isVariant = true ∧ ∀ p ∈ d.names, p.2.Simple False :=
    .mapM fun decl hdecl => (declaring_declareParams decl).mono fun d ⟨heq, hnames⟩ =>
      ⟨heq ▸ hgroup decl hdecl, hnames⟩
  exact hparams.bind fun decls hdecls =>
    (Declaring.forM fun d _ => declaring_declareVariant d).bind fun _ _ =>
      (Declaring.forM fun d hd => declaring_declareSynonym (hdecls d hd).1).bind fun _ _ =>
        (Declaring.forM fun d hd => declaring_declareConstructors (hdecls d hd).2).bind fun _ _ =>
          .report _

end Check

end FieldML
