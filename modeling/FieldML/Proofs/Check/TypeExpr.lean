import FieldML.Check.Declare
import FieldML.Check.Pattern
import FieldML.Proofs.Check.Generalize

/-!
# Types that are written, and other steps without comparisons

A written type means a type without quantifiers. In a declaration it mentions only the parameters of
the declaration.
-/

/-! ## Steps without comparisons

Much of a check only hands out variables and looks things up. Such steps compare nothing and declare
nothing, so what is known about variables stays as it was. -/

namespace FieldML

open Check

namespace CheckState

variable {s s' s₁ : CheckState}

/-- Between the two states only variables were handed out and remarks were made. -/
structure Idle (s s' : CheckState) : Prop where
  next : s.next ≤ s'.next
  solver : s'.solver = s.solver
  compared : s'.compared = s.compared
  kinded : s'.kinded = s.kinded
  variants : s'.variants = s.variants

theorem Idle.refl (s : CheckState) : s.Idle s := ⟨Nat.le_refl _, rfl, rfl, rfl, rfl⟩

theorem Idle.trans (h₁ : s.Idle s₁) (h₂ : s₁.Idle s') : s.Idle s' :=
  ⟨h₁.next.trans h₂.next, h₂.solver.trans h₁.solver, h₂.compared.trans h₁.compared,
    h₂.kinded.trans h₁.kinded, h₂.variants.trans h₁.variants⟩

theorem Idle.leads (h : s.Idle s') : s.Leads s' :=
  ⟨h.next, fun _ hp => h.compared ▸ hp, fun _ hp => h.kinded ▸ hp, h.variants⟩

theorem Wf.of_idle (hs : s.Wf) (h : s.Idle s') : s'.Wf where
  simple := h.solver ▸ hs.simple
  closed := by
    rw [h.solver]
    refine ⟨fun v t _ ht => ?_, fun v _ p hp => ?_⟩
    · have hlt : v < s.next := by
        by_contra hge
        rw [(hs.fresh v (Nat.le_of_not_lt hge)).1] at ht
        simp at ht
      exact (hs.closed.binding v t hlt ht).mono fun w hw => hw.trans_le h.next
    · have hlt : v < s.next := by
        by_contra hge
        rw [kindOf_of_none (hs.fresh v (Nat.le_of_not_lt hge)).2] at hp
        simp [Kind.fields] at hp
      exact (hs.closed.kind v hlt p hp).mono fun w hw => hw.trans_le h.next
  fresh v hv := h.solver ▸ hs.fresh v (h.next.trans hv)
  variants := h.variants ▸ hs.variants.mono h.next
  steady i hlevel := h.solver ▸ hs.steady i ⟨h.compared ▸ hlevel.1, h.kinded ▸ hlevel.2⟩

end CheckState

namespace Check

variable {α β : Type} {m : Check α} {f : α → Check β} {o : CheckOptions} {s s' : CheckState}
  {Q R : α → CheckState → Prop} {Q' : β → CheckState → Prop}

/-- A part of a check compares nothing, with an outcome for which `Q` holds if it succeeds. -/
def Idles (m : Check α) (o : CheckOptions) (s : CheckState) (Q : α → CheckState → Prop) : Prop :=
  s.Idle (m o s).2 ∧
    match m o s with
    | (.ok a, s') => Q a s'
    | (.error e, _) => ¬e.OutOfFuel

theorem Idles.keeps (hm : Idles m o s Q) (hs : s.Wf) : Keeps m o s Q := by
  unfold Idles at hm
  unfold Keeps
  rcases hrun : m o s with ⟨e | a, s₁⟩
  · rw [hrun] at hm
    exact ⟨hm.1.leads, hs.of_idle hm.1, fun h => absurd h hm.2⟩
  · rw [hrun] at hm
    exact ⟨hm.1.leads, hs.of_idle hm.1, hm.2⟩

theorem Idles.bind (hm : Idles m o s Q)
    (hf : ∀ a s₁, s.Idle s₁ → Q a s₁ → Idles (f a) o s₁ Q') : Idles (m >>= f) o s Q' := by
  unfold Idles at hm ⊢
  rw [bind_apply]
  rcases hrun : m o s with ⟨e | a, s₁⟩
  · rw [hrun] at hm
    exact hm
  · rw [hrun] at hm
    obtain ⟨hidle, hq⟩ := hm
    obtain ⟨hidle', hq'⟩ := hf a s₁ hidle hq
    exact ⟨hidle.trans hidle', hq'⟩

theorem Idles.mono (hm : Idles m o s Q) (h : ∀ a s', s.Idle s' → Q a s' → R a s') :
    Idles m o s R := by
  unfold Idles at hm ⊢
  rcases hrun : m o s with ⟨e | a, s₁⟩
  · rw [hrun] at hm
    exact hm
  · rw [hrun] at hm
    exact ⟨hm.1, h a s₁ hm.1 hm.2⟩

theorem Idles.pure {a : α} (ha : Q a s) : Idles (Pure.pure a : Check α) o s Q := ⟨.refl s, ha⟩

theorem idles_fail {cause : TypeError.Cause} (hcause : ∀ c, cause ≠ .contradiction c)
    (range : Range) : Idles (fail cause range) o s Q := by
  refine ⟨.refl s, ?_⟩
  rintro ⟨c, hc, -⟩
  exact hcause c hc

theorem idles_get : Idles (get : Check CheckState) o s fun a s' => a = s ∧ s' = s :=
  ⟨.refl s, rfl, rfl⟩

theorem idles_report (e : Event) : Idles (report e) o s fun _ _ => True :=
  ⟨⟨Nat.le_refl _, rfl, rfl, rfl, rfl⟩, trivial⟩

theorem idles_warn (w : Warning) : Idles (warn w) o s fun _ _ => True :=
  ⟨⟨Nat.le_refl _, rfl, rfl, rfl, rfl⟩, trivial⟩

theorem idles_freshId : Idles freshId o s fun v s' => v = s.next ∧ s'.next = s.next + 1 :=
  ⟨⟨Nat.le_succ _, rfl, rfl, rfl, rfl⟩, rfl, rfl⟩

theorem idles_fresh (range : Range) : Idles (fresh range) o s fun t s' => t.Known s'.next :=
  ⟨⟨Nat.le_succ _, rfl, rfl, rfl, rfl⟩, .var (Nat.lt_succ_self _) range⟩

theorem idles_resolve (hs : s.Wf) {t : Ty} (ht : t.Known s.next) :
    Idles (resolve t) o s fun t' s' => s' = s ∧ t'.Known s.next :=
  ⟨.refl s, rfl, hs.apply ht⟩

theorem idles_liftVariant {e : Except VariantError α} (he : ∀ a, e = .ok a → Q a s) :
    Idles (liftVariant e) o s Q := by
  cases e with
  | error e => exact idles_fail (by simp) e.range
  | ok a => exact .pure (he a rfl)

theorem idles_mapM {l : List α} {P : β → CheckState → Prop}
    (hstable : ∀ b s s', P b s → s.Idle s' → P b s')
    (hf : ∀ a ∈ l, ∀ s₁, s.Idle s₁ → Idles (f a) o s₁ P) :
    Idles (l.mapM f) o s fun bs s' => bs.length = l.length ∧ ∀ b ∈ bs, P b s' := by
  induction l generalizing s with
  | nil => exact .pure ⟨rfl, by simp⟩
  | cons a l ih =>
      rw [List.mapM_cons]
      refine (hf a List.mem_cons_self s (.refl s)).bind fun b s₁ hidle hb => ?_
      refine (ih fun a ha s₂ h => hf a (List.mem_cons_of_mem _ ha) s₂ (hidle.trans h)).bind
        fun bs s₂ hidle' hbs => .pure ⟨by simp [hbs.1], fun x hx => ?_⟩
      rcases List.mem_cons.1 hx with rfl | hx
      · exact hstable x s₁ s₂ hb hidle'
      · exact hbs.2 x hx

theorem idles_foldlM {γ : Type} {l : List α} {f : γ → α → Check γ} {P : γ → CheckState → Prop}
    {c : γ} (hc : P c s)
    (hf : ∀ c, ∀ a ∈ l, ∀ s₁, s.Idle s₁ → P c s₁ → Idles (f c a) o s₁ P) :
    Idles (l.foldlM f c) o s P := by
  induction l generalizing s c with
  | nil => exact .pure hc
  | cons a l ih =>
      rw [List.foldlM_cons]
      refine (hf c a List.mem_cons_self s (.refl s) hc).bind fun c s₁ hidle hc => ?_
      exact ih hc fun c a ha s₂ h => hf c a (List.mem_cons_of_mem _ ha) s₂ (hidle.trans h)

theorem idles_forM {l : List α} {f : α → Check PUnit}
    (hf : ∀ a ∈ l, ∀ s₁, s.Idle s₁ → Idles (f a) o s₁ fun _ _ => True) :
    Idles (l.forM f) o s fun _ _ => True := by
  induction l generalizing s with
  | nil => exact .pure trivial
  | cons a l ih =>
      refine (hf a List.mem_cons_self s (.refl s)).bind fun _ s₁ hidle _ => ?_
      exact ih fun a ha s₂ h => hf a (List.mem_cons_of_mem _ ha) s₂ (hidle.trans h)

end Check

end FieldML

/-! ## Types that are written -/

namespace FieldML

open Check

variable {o : CheckOptions} {s s' : CheckState} {scope : TypeScope} {V : TypeVar → Prop}
  {n m : TypeVar} {t : Ty} {ts : List Ty}

/-- A type without quantifiers whose variables are in the region or, if the scope is open, below
`n`. -/
def TypeScope.Allows (scope : TypeScope) (V : TypeVar → Prop) (n : TypeVar) (t : Ty) : Prop :=
  t.Simple True ∧ t.Inside fun v => V v ∨ scope.isOpen = true ∧ v < n

/-- All names of the scope mean types that it allows. -/
def TypeScope.Within (scope : TypeScope) (V : TypeVar → Prop) (n : TypeVar) : Prop :=
  ∀ p ∈ scope.names, scope.Allows V n p.2

theorem TypeScope.Allows.mono (h : scope.Allows V n t) (hnm : n ≤ m) : scope.Allows V m t :=
  ⟨h.1, h.2.mono fun _ hv => hv.imp_right fun hv => ⟨hv.1, hv.2.trans_le hnm⟩⟩

theorem TypeScope.Within.mono (h : scope.Within V n) (hnm : n ≤ m) : scope.Within V m :=
  fun p hp => (h p hp).mono hnm

namespace VariantEnv.Wf

variable {env : VariantEnv}

/-- A declared type with arguments of a region. -/
theorem resolve (henv : env.Wf) {name : String} {range : Range}
    (hts : ∀ t ∈ ts, t.Simple True ∧ t.Inside V) (h : env.resolve name ts range = .ok t) :
    t.Simple True ∧ t.Inside V := by
  have hlist : ∀ v ∈ Ty.freeVarsOfList [] ts, V v := by
    intro v hv
    obtain ⟨u, hu, hv⟩ := Ty.mem_freeVarsOfList.1 hv
    exact (hts u hu).2 v hv
  unfold VariantEnv.resolve at h
  split at h
  · simp at h
  · next d hd =>
      split at h
      · simp at h
      · next hlength =>
          split at h
          · obtain rfl := Except.ok.inj h
            exact ⟨.variant name range fun t ht => (hts t ht).1, hlist⟩
          · next params body =>
              obtain rfl := Except.ok.inj h
              obtain ⟨hbody, hvars⟩ := henv.synonyms name params body hd
              have hinst := hbody.instantiateParams
                (V := fun v => v ∈ Ty.freeVarsOfList [] ts) (fun v hv => Or.inl (hvars v hv))
                (by simpa [TypeDefinition.params] using hlength)
                fun u hu => ⟨(hts u hu).1, fun v hv => Ty.mem_freeVarsOfList.2 ⟨u, hu, hv⟩⟩
              exact ⟨.synonym name range trivial (fun t ht => (hts t ht).1) hinst.1 hinst.2, hlist⟩

end VariantEnv.Wf

namespace Check

theorem idles_typeVariable (name : Ident) (hscope : scope.Within V s.next) :
    Idles (typeVariable name scope) o s fun r s' =>
      scope.Allows V s'.next r.1 ∧ r.2.Within V s'.next ∧ r.2.isOpen = scope.isOpen := by
  unfold typeVariable
  split
  · next t ht =>
      obtain ⟨hsimple, hin⟩ := hscope _ (Fields.mem_of_get? ht)
      refine .pure ⟨⟨hsimple.withRange _, ?_⟩, hscope, rfl⟩
      exact fun v hv => hin v (by rwa [Ty.freeVars_withRange] at hv)
  · split
    · next hopen =>
        refine (idles_fresh name.range).bind fun t s₁ hidle ht => .pure ?_
        have hallows : scope.Allows V s₁.next t :=
          ⟨ht.simple, ht.below.mono fun v hv => Or.inr ⟨hopen, hv⟩⟩
        refine ⟨hallows, ?_, rfl⟩
        rintro ⟨other, u⟩ hp
        rcases Fields.mem_insert hp with heq | hp
        · obtain ⟨-, rfl⟩ := Prod.mk.inj heq
          exact hallows
        · exact (hscope.mono hidle.next) _ hp
    · exact idles_fail (by simp) _

theorem baseType?_eq_none {name : String} (h : name ∉ VariantEnv.builtinNames) :
    baseType? name = none := by
  unfold baseType?
  split
  case h_5 => rfl
  all_goals exact absurd (by decide) h

theorem unaryType?_eq_none {name : String} (h : name ∉ VariantEnv.builtinNames) :
    unaryType? name = none := by
  unfold unaryType?
  split
  case h_3 => rfl
  all_goals exact absurd (by decide) h

theorem eq_of_unaryType? {name : String} {make : Ty → Range → Ty}
    (h : unaryType? name = some make) : make = .list ∨ make = .ref := by
  unfold unaryType? at h
  split at h
  · exact .inl (Option.some.inj h).symm
  · exact .inr (Option.some.inj h).symm
  · cases h

theorem idles_namedType (hs : s.variants.Wf) (name : Ident)
    (hts : ∀ t ∈ ts, t.Simple True ∧ t.Inside V) (range : Range) :
    Idles (namedType name ts range) o s fun t _ => t.Simple True ∧ t.Inside V := by
  unfold namedType
  split
  · split
    · exact .pure ⟨.base _ range, fun v hv => (Ty.mem_freeVars_base.1 hv).elim⟩
    · exact idles_fail (by simp) _
  · next make hmake =>
      split
      · next t =>
          obtain ⟨ht, hin⟩ := hts t List.mem_cons_self
          rcases eq_of_unaryType? hmake with rfl | rfl
          · exact .pure ⟨.list range ht, hin⟩
          · exact .pure ⟨.ref range ht, hin⟩
      · exact idles_fail (by simp) _
  · refine idles_get.bind fun a s₁ hidle ha => ?_
    obtain ⟨rfl, rfl⟩ := ha
    exact idles_liftVariant fun t ht => hs.resolve hts ht

mutual

theorem idles_typeExpr {s : CheckState} {scope : TypeScope} (hs : s.variants.Wf)
    (hscope : scope.Within V s.next) (e : TypeExpr) :
    Idles (typeExpr scope e) o s fun r s' =>
      scope.Allows V s'.next r.1 ∧ r.2.Within V s'.next ∧ r.2.isOpen = scope.isOpen := by
  match e with
  | .var name => exact idles_typeVariable name hscope
  | .named args name range =>
      refine (idles_typeExprs hs hscope args).bind fun (ts, scope₁) s₁ hidle hts => ?_
      obtain ⟨hts, hscope₁, hopen⟩ := hts
      refine (idles_namedType (hidle.variants ▸ hs) name hts range).bind fun t s₂ hidle₂ ht => ?_
      exact .pure ⟨TypeScope.Allows.mono ht hidle₂.next, hscope₁.mono hidle₂.next, hopen⟩
  | .func param result range =>
      refine (idles_typeExpr hs hscope param).bind fun (p, scope₁) s₁ hidle hp => ?_
      obtain ⟨hp, hscope₁, hopen⟩ := hp
      refine (idles_typeExpr (hidle.variants ▸ hs) hscope₁ result).bind
        fun (q, scope₂) s₂ hidle₂ hq => ?_
      obtain ⟨hq, hscope₂, hopen₂⟩ := hq
      refine .pure ⟨⟨.func range hp.1 hq.1, fun v hv => ?_⟩, hscope₂, hopen₂.trans hopen⟩
      rcases Ty.mem_freeVars_func.1 hv with hv | hv
      · exact (hp.mono hidle₂.next).2 v hv
      · exact hopen ▸ hq.2 v hv
  | .product items range =>
      refine (idles_typeExprs hs hscope items).bind fun (ts, scope₁) s₁ hidle hts => ?_
      obtain ⟨hts, hscope₁, hopen⟩ := hts
      refine .pure ⟨⟨.product range fun t ht => (hts t ht).1, fun v hv => ?_⟩, hscope₁, hopen⟩
      obtain ⟨t, ht, hv⟩ := Ty.mem_freeVars_product.1 hv
      exact (hts t ht).2 v hv
  | .record fields range =>
      refine (idles_typeExprFields hs hscope Fields.sorted_nil (by simp) fields).bind
        fun (fs, scope₁) s₁ hidle hfs => ?_
      obtain ⟨hsorted, hfs, hscope₁, hopen⟩ := hfs
      refine .pure ⟨⟨.record range hsorted fun p hp => (hfs p hp).1, fun v hv => ?_⟩, hscope₁, hopen⟩
      obtain ⟨p, hp, hv⟩ := Ty.mem_freeVars_record.1 hv
      exact (hfs p hp).2 v hv

theorem idles_typeExprs {s : CheckState} {scope : TypeScope} (hs : s.variants.Wf)
    (hscope : scope.Within V s.next) (es : List TypeExpr) :
    Idles (typeExprs scope es) o s fun r s' =>
      (∀ t ∈ r.1, scope.Allows V s'.next t) ∧ r.2.Within V s'.next ∧
        r.2.isOpen = scope.isOpen := by
  match es with
  | [] => exact .pure ⟨by simp, hscope, rfl⟩
  | e :: es =>
      refine (idles_typeExpr hs hscope e).bind fun (t, scope₁) s₁ hidle ht => ?_
      obtain ⟨ht, hscope₁, hopen⟩ := ht
      refine (idles_typeExprs (hidle.variants ▸ hs) hscope₁ es).bind
        fun (ts, scope₂) s₂ hidle₂ hts => ?_
      obtain ⟨hts, hscope₂, hopen₂⟩ := hts
      refine .pure ⟨fun u hu => ?_, hscope₂, hopen₂.trans hopen⟩
      rcases List.mem_cons.1 hu with rfl | hu
      · exact ht.mono hidle₂.next
      · have := hts u hu
        unfold TypeScope.Allows at this ⊢
        rwa [hopen] at this

theorem idles_typeExprFields {s : CheckState} {scope : TypeScope} (hs : s.variants.Wf)
    (hscope : scope.Within V s.next) {before : List (String × Ty)} (hsorted : Fields.Sorted before)
    (hbefore : ∀ p ∈ before, scope.Allows V s.next p.2) (fields : List (Ident × TypeExpr)) :
    Idles (typeExprFields scope before fields) o s fun r s' =>
      Fields.Sorted r.1 ∧ (∀ p ∈ r.1, scope.Allows V s'.next p.2) ∧ r.2.Within V s'.next ∧
        r.2.isOpen = scope.isOpen := by
  match fields with
  | [] => exact .pure ⟨hsorted, hbefore, hscope, rfl⟩
  | (name, e) :: fields =>
      refine (idles_typeExpr hs hscope e).bind fun (t, scope₁) s₁ hidle ht => ?_
      obtain ⟨ht, hscope₁, hopen⟩ := ht
      dsimp only
      split
      · exact idles_fail (by simp) _
      · have hallows : ∀ p ∈ Fields.insert name.text t before, scope₁.Allows V s₁.next p.2 := by
          rintro ⟨other, u⟩ hp
          unfold TypeScope.Allows
          rw [hopen]
          rcases Fields.mem_insert hp with heq | hp
          · obtain ⟨-, rfl⟩ := Prod.mk.inj heq
            exact ht
          · exact (hbefore _ hp).mono hidle.next
        refine (idles_typeExprFields (hidle.variants ▸ hs) hscope₁
          (Fields.sorted_insert hsorted name.text t) hallows fields).mono fun r s₂ _ hr => ?_
        unfold TypeScope.Allows at hr ⊢
        rw [hopen] at hr
        exact hr

end

/-- An annotation means a type over variables that were handed out. -/
theorem idles_annotated (hs : s.variants.Wf) (e : TypeExpr) :
    Idles ( annotation e) o s fun t s' => t.Known s'.next := by
  have hscope : TypeScope.Within ⟨[], true⟩ (· < s.next) s.next := by simp [TypeScope.Within]
  refine (idles_typeExpr hs hscope e).bind fun (t, scope) s₁ hidle ht =>
    .pure ⟨ht.1.1, ht.1.2.mono fun v hv => ?_⟩
  exact hv.elim (fun hv => hv.trans_le hidle.next) fun hv => hv.2

/-- A type in a declaration mentions only parameters. -/
theorem idles_declaredType (hs : s.variants.Wf) {names : List (String × Ty)}
    (hnames : ∀ p ∈ names, p.2.Simple True ∧ p.2.Inside V) (e : TypeExpr) :
    Idles (declaredType names e) o s fun t _ => t.Simple True ∧ t.Inside V := by
  have hscope : TypeScope.Within ⟨names, false⟩ V s.next := fun p hp =>
    ⟨(hnames p hp).1, (hnames p hp).2.mono fun v hv => Or.inl hv⟩
  exact (idles_typeExpr hs hscope e).bind
    fun (t, scope) s₁ hidle ht => .pure ⟨ht.1.1, ht.1.2.mono fun v hv => by simpa using hv⟩

end Check

end FieldML
