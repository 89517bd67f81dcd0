import FieldML.Proofs.Typing.Sound

/-!
# Completeness of inference

Inference succeeds on every expression that has a type by the rules, and that type is what the
inferred one stands for, once types are given to the variables that were handed out.
-/

namespace FieldML

open Check

variable {sig : VariantEnv} {V : TypeVar → Prop} {o : CheckOptions} {s : CheckState}
  {σ : Instantiation} {env : TypeEnv} {Γ : Context}

theorem HasTypes.length_eq {sig : Signature} {es : List Expr} {τs : List MonoTy}
    (h : HasTypes sig Γ es τs) : es.length = τs.length := by
  induction es generalizing τs with
  | nil =>
      cases h
      rfl
  | cons e es ih =>
      cases h with
      | cons _ hs => simp [ih hs]

theorem HasTypes.uncons {sig : Signature} {e : Expr} {es : List Expr} {τs : List MonoTy}
    (h : HasTypes sig Γ (e :: es) τs) :
    ∃ τ τs', τs = τ :: τs' ∧ HasType sig Γ e τ ∧ HasTypes sig Γ es τs' := by
  cases h with
  | cons he hes => exact ⟨_, _, rfl, he, hes⟩

namespace Check

theorem atLeast_schemes {names : List (String × Ty)} (hs : s.Live sig V)
    (henv : TypeEnv.Live V s.next env) (hσ : s.solver.subst.AgreesWith σ) (hΓ : env.AtLeast σ Γ)
    (hnames : ∀ p ∈ names, p.2.Live V s.next) :
    TypeEnv.AtLeast σ (extendEnv env (names.map fun p => (p.1, s.scheme env p.2)))
      (Γ.extend ((Fields.names names).zip ((names.map fun p => p.2.mono σ).map Γ.generalize))) := by
  refine Fields.Related.foldl_insert hΓ ?_
  rw [List.map_map, Fields.names, List.zip_map', Fields.Related, List.forall₂_map_left_iff,
    List.forall₂_map_right_iff, List.forall₂_same]
  exact fun p hp => ⟨rfl, hs.atLeast_scheme henv hσ hΓ (hnames p hp)⟩

mutual

theorem achieves_infer {V : TypeVar → Prop} {s : CheckState} {env : TypeEnv} {σ : Instantiation}
    {Γ : Context} {τ : MonoTy} (hflat : sig.Flat) (hwarn : o.exhaustiveness = .warn)
    (hs : s.Live sig V) (henv : TypeEnv.Live V s.next env) (hσ : s.solver.subst.AgreesWith σ)
    (hΓ : env.AtLeast σ Γ) (e : Expr) (he : e.isPlain = true) (h : HasType sig.signature Γ e τ) :
    Achieves (infer env e) o s σ fun r _ σ' => r.2.mono σ' = τ := by
  match e with
  | .literal v range =>
      cases h
      exact .pure hσ (mono_literalType v range)
  | .var name =>
      cases h with
      | var hname hτ =>
          obtain ⟨scheme, hscheme, hatLeast⟩ := (Fields.Related.swap hΓ).get? hname
          have hpoly := henv _ (Fields.mem_of_get? hscheme)
          simp only [infer, hscheme]
          exact (achieves_instantiate hs hpoly hσ (hatLeast _ hτ) name.range).bind
            (infers_instantiate hs hpoly name.range)
            fun t s₁ σ₁ _ _ hσ₁ _ hmono => .pure hσ₁ hmono
  | .lambda param body range =>
      cases h with
      | @lambda _ _ _ τ τ' _ hbody =>
          refine (achieves_fresh hs hσ param.range τ).bind (infers_fresh hs param.range)
            fun t s₁ σ₁ h₁ ht hσ₁ hsame₁ hmono => ?_
          have hparam : t.AtLeast σ₁ (.ofMono τ) := hmono ▸ ht.simple.atLeast_ofMono
          have henv₁ := (henv.mono h₁.next).insert (.of_live ht) param.text
          refine (achieves_infer hflat hwarn h₁.live henv₁ hσ₁
            (Fields.Related.insert (henv.atLeast_congr hΓ hsame₁) param.text hparam) body he
            hbody).bind (infers_infer hflat h₁.live henv₁ body he)
            fun r s₂ σ₂ _ _ hσ₂ hsame₂ hr => .pure hσ₂ ?_
          rw [Ty.mono_func, ht.mono_eq hsame₂, hmono, hr]
  | .apply func arg range =>
      obtain ⟨hfunc, harg⟩ := Bool.and_eq_true_iff.1 he
      cases h with
      | @apply _ _ _ τ τ' _ htfunc htarg =>
          refine (achieves_infer hflat hwarn hs henv hσ hΓ func hfunc htfunc).bind
            (infers_infer hflat hs henv func hfunc)
            fun f s₁ σ₁ h₁ ⟨hf, _⟩ hσ₁ hsame₁ hfmono => ?_
          have henv₁ := henv.mono h₁.next
          refine (achieves_infer hflat hwarn h₁.live henv₁ hσ₁ (henv.atLeast_congr hΓ hsame₁) arg
            harg htarg).bind (infers_infer hflat h₁.live henv₁ arg harg)
            fun a s₂ σ₂ h₂ ⟨ha, _⟩ hσ₂ hsame₂ hamono => ?_
          have hf₂ := hf.mono h₂.next
          refine (achieves_applyType h₂.live hf₂ ha hσ₂ ?_ _ _ range).bind
            (infers_applyType h₂.live hf₂ ha _ _ range)
            fun t s₃ σ₃ _ _ hσ₃ _ ht => .pure hσ₃ ht
          rw [hf.mono_eq hsame₂, hfmono, hamono]
  | .letIn name value body range =>
      obtain ⟨hvalue, hbody⟩ := Bool.and_eq_true_iff.1 he
      cases h with
      | @letIn _ _ _ _ τ τ' _ htvalue htbody =>
          refine (achieves_infer hflat hwarn hs henv hσ hΓ value hvalue htvalue).bind
            (infers_infer hflat hs henv value hvalue)
            fun (core, t) s₁ σ₁ h₁ ⟨ht, _⟩ hσ₁ hsame₁ hmono => ?_
          have henv₁ := henv.mono h₁.next
          have hΓ₁ := henv.atLeast_congr hΓ hsame₁
          dsimp only [letScheme] at ht hmono ⊢
          subst hmono
          by_cases hval : value.isValue = true
          · rw [Context.letType, if_pos hval] at htbody
            rw [if_pos hval]
            refine (achieves_generalize hσ₁ t env).bind (infers_generalize h₁.live t env)
              fun _ s₂ σ₂ h₂ ⟨hscheme, hidle⟩ hσ₂ _ heq₂ => ?_
            subst hscheme heq₂
            have hs₂ := (h₁.live.live_within env).of_idle hidle
            have henv₂ := ((h₁.live.env_within henv₁).insert (h₁.live.poly_scheme ht)
              name.text).mono hidle.next
            refine (achieves_infer hflat hwarn hs₂ henv₂ hσ₂ (Fields.Related.insert hΓ₁ name.text
              (h₁.live.atLeast_scheme henv₁ hσ₁ hΓ₁ ht)) body hbody htbody).bind
              ((infers_infer hflat hs₂ henv₂ body hbody).widen h₂.live fun _ hv => hv.1)
              fun r s₃ σ₃ _ _ hσ₃ _ hr => .pure hσ₃ hr
          · rw [Context.letType, if_neg hval] at htbody
            rw [if_neg hval, pure_bind]
            have henv₂ := henv₁.insert (.of_live ht) name.text
            exact (achieves_infer hflat hwarn h₁.live henv₂ hσ₁ (Fields.Related.insert hΓ₁ name.text
              ht.simple.atLeast_ofMono) body hbody htbody).bind
              (infers_infer hflat h₁.live henv₂ body hbody)
              fun r s₃ σ₃ _ _ hσ₃ _ hr => .pure hσ₃ hr
  | .letRec bindings body range =>
      obtain ⟨hbindings, hbody⟩ := Bool.and_eq_true_iff.1 he
      cases h with
      | @letRec _ _ _ τs τ _ hlambda hnodup htvalues htbody =>
          have hlength : τs.length = bindings.length := by simpa using htvalues.length_eq.symm
          refine (achieves_placeholders hs hσ ⟨hlambda, hnodup⟩ hlength).bind
            (infers_placeholders hs bindings)
            fun names s₁ σ₁ h₁ hnames hσ₁ hsame₁ hmono => ?_
          have henv₁ := henv.mono h₁.next
          have hΓ₁ := henv.atLeast_congr hΓ hsame₁
          have hinner : TypeEnv.AtLeast σ₁ (extendEnv env names) _ :=
            TypeEnv.AtLeast.extendMono hΓ₁ fun p hp => (hnames.live p hp).simple
          have hmono : (names.map fun p => (p.1, p.2.mono σ₁)) = _ := hmono
          rw [hmono] at hinner
          have hτs : Ty.monos σ₁ (names.map (·.2)) = τs := by
            have hsnd := congrArg (List.map Prod.snd) hmono
            rw [List.map_snd_zip (by simp [hlength]), List.map_map] at hsnd
            rwa [Ty.monos, List.map_map]
          subst hτs
          have henvIn := henv₁.extend fun p hp => .of_live (hnames.live p hp)
          refine (achieves_inferBindings hflat hwarn h₁.live henvIn hσ₁ hinner hnames.types_live
            bindings hbindings htvalues).bind (infers_inferBindings hflat h₁.live henvIn
              hnames.types_live bindings hnames.length_types hbindings)
            fun values s₂ σ₂ h₂ _ hσ₂ hsame₂ _ => ?_
          have henv₂ := henv₁.mono h₂.next
          have hΓ₂ := henv₁.atLeast_congr hΓ₁ hsame₂
          have hlive₂ : ∀ p ∈ names, p.2.Live V s₂.next := fun p hp =>
            (hnames.live p hp).mono h₂.next
          refine (achieves_generalizeAll hσ₂ names env).bind
            (infers_generalizeAll h₂.live names env)
            fun _ s₃ σ₃ h₃ ⟨hschemes, hidle⟩ hσ₃ _ heq₃ => ?_
          subst hschemes heq₃
          have hs₃ := (h₂.live.live_within env).of_idle hidle
          have henv₃ := (h₂.live.schemes_within henv₂ hlive₂).mono hidle.next
          have hΓ₃ := atLeast_schemes h₂.live henv₂ hσ₂ hΓ₂ hlive₂
          have hmonos : (names.map fun p => p.2.mono σ₃) = Ty.monos σ₁ (names.map (·.2)) := by
            rw [← Ty.Live.monos_eq hnames.types_live hsame₂, Ty.monos, List.map_map]
            rfl
          rw [hnames.names_eq, hmonos] at hΓ₃
          exact (achieves_infer hflat hwarn hs₃ henv₃ hσ₃ hΓ₃ body hbody htbody).bind
            ((infers_infer hflat hs₃ henv₃ body hbody).widen h₃.live fun _ hv => hv.1)
            fun r s₄ σ₄ _ _ hσ₄ _ hr => .pure hσ₄ hr
  | .ifElse cond yes no range =>
      obtain ⟨⟨hcond, hyes⟩, hno⟩ : (cond.isPlain = true ∧ yes.isPlain = true) ∧
        no.isPlain = true := by simpa [Expr.isPlain] using he
      cases h with
      | ifElse _ htcond htyes htno =>
          refine (achieves_infer hflat hwarn hs henv hσ hΓ cond hcond htcond).bind
            (infers_infer hflat hs henv cond hcond)
            fun c s₁ σ₁ h₁ ⟨hc, _⟩ hσ₁ hsame₁ hcmono => ?_
          refine (achieves_unify h₁.live (.base .bool cond.range) hc hσ₁ hcmono.symm
            cond.range).bind (infers_unify h₁.live (.base .bool cond.range) hc cond.range)
            fun _ s₂ σ₂ h₂ _ hσ₂ _ heq₂ => ?_
          subst heq₂
          have henv₁ := henv.mono h₁.next
          have henv₂ := henv₁.mono h₂.next
          have hΓ₁ := henv.atLeast_congr hΓ hsame₁
          refine (achieves_infer hflat hwarn h₂.live henv₂ hσ₂ hΓ₁ yes hyes htyes).bind
            (infers_infer hflat h₂.live henv₂ yes hyes)
            fun y s₃ σ₃ h₃ ⟨hy, _⟩ hσ₃ hsame₃ hymono => ?_
          have henv₃ := henv₂.mono h₃.next
          refine (achieves_infer hflat hwarn h₃.live henv₃ hσ₃ (henv₂.atLeast_congr hΓ₁ hsame₃) no
            hno htno).bind (infers_infer hflat h₃.live henv₃ no hno)
            fun n s₄ σ₄ h₄ ⟨hn, _⟩ hσ₄ hsame₄ hnmono => ?_
          have hy₄ : y.2.mono σ₄ = τ := by rw [hy.mono_eq hsame₄, hymono]
          refine (achieves_unify h₄.live (hy.mono h₄.next) hn hσ₄ (hy₄.trans hnmono.symm)
            no.range).bind (infers_unify h₄.live (hy.mono h₄.next) hn no.range)
            fun _ s₅ σ₅ _ _ hσ₅ _ heq₅ => .pure hσ₅ ?_
          rw [heq₅, hy₄]
  | .list items range =>
      cases h with
      | @list _ _ τ _ hitems =>
          refine (achieves_fresh hs hσ range τ).bind (infers_fresh hs range)
            fun elem s₁ σ₁ h₁ helem hσ₁ hsame₁ hmono => ?_
          subst hmono
          have henv₁ := henv.mono h₁.next
          refine (achieves_inferAll hflat hwarn h₁.live henv₁ hσ₁ (henv.atLeast_congr hΓ hsame₁)
            helem items he hitems).bind (infers_inferAll hflat h₁.live henv₁ helem items he)
            fun cores s₂ σ₂ _ _ hσ₂ hsame₂ _ => .pure hσ₂ ?_
          rw [Ty.mono_list, helem.mono_eq hsame₂]
  | .tuple items range =>
      cases h with
      | tuple _ hitems =>
          refine (achieves_inferEach hflat hwarn hs henv hσ hΓ items he hitems).bind
            (infers_inferEach hflat hs henv items he)
            fun r s₁ σ₁ _ _ hσ₁ _ hr => .pure hσ₁ ?_
          rw [Ty.mono_product]
          exact congrArg MonoTy.product hr
  | .record fields range =>
      cases h with
      | record _ hnodup hfields =>
          refine (achieves_inferFields hflat hwarn hs henv hσ hΓ [] fields he hnodup
            (by simp [Fields.names]) hfields).bind (infers_inferFields hflat hs henv [] fields he)
            fun (cores, types) s₁ σ₁ _ _ hσ₁ _ ⟨ts, htypes, hmonos⟩ => .pure hσ₁ ?_
          obtain rfl : types = Fields.ofList ((fields.map (·.1.text)).zip ts) := htypes
          rw [Ty.mono_record, Fields.map_ofList, ← hmonos, Ty.monos, List.zip_map_right]
          rfl
  | .construct ctor arg range =>
      have harg : arg.elim true Expr.isPlain = true := by cases arg <;> exact he
      cases h with
      | @construct _ _ c _ items τs _ hctor hparams hspread hitems =>
          refine (achieves_instantiateConstructor hs hflat hσ hctor hparams).bind
            (infers_instantiateConstructor hs hflat ctor) fun (variant, types) s₁ σ₁ h₁
              ⟨c', args, hused⟩ hσ₁ hsame₁ ⟨hvariant, htypes, hlength⟩ => ?_
          dsimp only at hused hvariant htypes hlength
          have henv₁ := henv.mono h₁.next
          rw [← hlength] at hspread
          rw [← htypes] at hitems
          refine (achieves_inferArgs hflat hwarn h₁.live henv₁ hσ₁ (henv.atLeast_congr hΓ hsame₁)
            hused.live arg _ range harg hspread hitems).bind
            (infers_inferArgs hflat h₁.live henv₁ hused.live arg _ range harg)
            fun cores s₂ σ₂ _ _ hσ₂ hsame₂ _ => .pure hσ₂ ?_
          rw [Ty.mono_withRange, hused.variant_live.mono_eq hsame₂, hvariant]
  | .caseOf scrutinee arms range =>
      obtain ⟨hscrutinee, harms⟩ := Bool.and_eq_true_iff.1 he
      cases h with
      | @caseOf _ _ _ τ' _ _ htscrutinee htarms =>
          refine (achieves_infer hflat hwarn hs henv hσ hΓ scrutinee hscrutinee htscrutinee).bind
            (infers_infer hflat hs henv scrutinee hscrutinee)
            fun r s₁ σ₁ h₁ ⟨hr, _⟩ hσ₁ hsame₁ hrmono => ?_
          refine (achieves_fresh h₁.live hσ₁ range τ).bind (infers_fresh h₁.live range)
            fun result s₂ σ₂ h₂ hresult hσ₂ hsame₂ hmono => ?_
          have henv₁ := henv.mono h₁.next
          have henv₂ := henv₁.mono h₂.next
          have hΓ₂ := henv₁.atLeast_congr (henv.atLeast_congr hΓ hsame₁) hsame₂
          have hr₂ : r.2.mono σ₂ = τ' := by rw [hr.mono_eq hsame₂, hrmono]
          refine (achieves_inferArms hflat hwarn h₂.live henv₂ hσ₂ hΓ₂ (hr.mono h₂.next) hresult
            hr₂ hmono arms harms htarms).bind (infers_inferArms hflat h₂.live henv₂
              (hr.mono h₂.next) hresult arms harms)
            fun coreArms s₃ σ₃ h₃ _ hσ₃ hsame₃ _ => ?_
          refine (achieves_checkCoverage hwarn hσ₃ coreArms _ range).bind
            ((idles_checkCoverage coreArms _ range).infers h₃.live)
            fun _ s₅ σ₅ _ _ hσ₅ _ heq₅ => .pure hσ₅ ?_
          rw [heq₅, hresult.mono_eq hsame₃, hmono]
  | .ref value range =>
      cases h with
      | ref _ htvalue =>
          refine (achieves_infer hflat hwarn hs henv hσ hΓ value he htvalue).bind
            (infers_infer hflat hs henv value he) fun r s₁ σ₁ _ _ hσ₁ _ hr => .pure hσ₁ ?_
          rw [Ty.mono_ref, hr]
  | .deref target range =>
      cases h with
      | deref _ httarget =>
          refine (achieves_infer hflat hwarn hs henv hσ hΓ target he httarget).bind
            (infers_infer hflat hs henv target he)
            fun r s₁ σ₁ h₁ ⟨hr, _⟩ hσ₁ hsame₁ hrmono => ?_
          refine (achieves_fresh h₁.live hσ₁ range τ).bind (infers_fresh h₁.live range)
            fun content s₂ σ₂ h₂ hcontent hσ₂ hsame₂ hmono => ?_
          have hr₂ := hr.mono h₂.next
          refine (achieves_unify h₂.live (hcontent.ref target.range) hr₂ hσ₂ ?_ target.range).bind
            (infers_unify h₂.live (hcontent.ref target.range) hr₂ target.range)
            fun _ s₃ σ₃ _ _ hσ₃ _ heq₃ => .pure hσ₃ ?_
          · rw [Ty.mono_ref, hmono, hr.mono_eq hsame₂, hrmono]
          · rw [heq₃, hmono]
  | .assign target value range =>
      obtain ⟨htarget, hvalue⟩ := Bool.and_eq_true_iff.1 he
      cases h with
      | @assign _ _ _ τ _ httarget htvalue =>
          refine (achieves_infer hflat hwarn hs henv hσ hΓ target htarget httarget).bind
            (infers_infer hflat hs henv target htarget)
            fun r s₁ σ₁ h₁ ⟨hr, _⟩ hσ₁ hsame₁ hrmono => ?_
          have henv₁ := henv.mono h₁.next
          refine (achieves_infer hflat hwarn h₁.live henv₁ hσ₁ (henv.atLeast_congr hΓ hsame₁) value
            hvalue htvalue).bind (infers_infer hflat h₁.live henv₁ value hvalue)
            fun v s₂ σ₂ h₂ ⟨hv, _⟩ hσ₂ hsame₂ hvmono => ?_
          refine (achieves_fresh h₂.live hσ₂ range τ).bind (infers_fresh h₂.live range)
            fun content s₃ σ₃ h₃ hcontent hσ₃ hsame₃ hmono => ?_
          have hr₃ := hr.mono (h₂.trans h₃).next
          refine (achieves_unify h₃.live (hcontent.ref target.range) hr₃ hσ₃ ?_ target.range).bind
            (infers_unify h₃.live (hcontent.ref target.range) hr₃ target.range)
            fun _ s₄ σ₄ h₄ _ hσ₄ _ heq₄ => ?_
          · rw [Ty.mono_ref, hmono, (hr.mono h₂.next).mono_eq hsame₃, hr.mono_eq hsame₂, hrmono]
          subst heq₄
          have hcontent₄ := hcontent.mono h₄.next
          have hv₄ := hv.mono (h₃.trans h₄).next
          refine (achieves_unify h₄.live hcontent₄ hv₄ hσ₄ ?_ value.range).bind
            (infers_unify h₄.live hcontent₄ hv₄ value.range)
            fun _ s₅ σ₅ _ _ hσ₅ _ _ => .pure hσ₅ rfl
          rw [hmono, hv.mono_eq hsame₃, hvmono]
  | .sequence first second range =>
      obtain ⟨hfirst, hsecond⟩ := Bool.and_eq_true_iff.1 he
      cases h with
      | sequence _ htfirst htsecond =>
          refine (achieves_infer hflat hwarn hs henv hσ hΓ first hfirst htfirst).bind
            (infers_infer hflat hs henv first hfirst)
            fun r s₁ σ₁ h₁ ⟨hr, _⟩ hσ₁ hsame₁ hrmono => ?_
          refine (achieves_unify h₁.live (.base .unit first.range) hr hσ₁ hrmono.symm
            first.range).bind (infers_unify h₁.live (.base .unit first.range) hr first.range)
            fun _ s₂ σ₂ h₂ _ hσ₂ _ heq₂ => ?_
          subst heq₂
          have henv₂ := henv.mono (h₁.trans h₂).next
          exact (achieves_infer hflat hwarn h₂.live henv₂ hσ₂ (henv.atLeast_congr hΓ hsame₁) second
            hsecond htsecond).bind (infers_infer hflat h₂.live henv₂ second hsecond)
            fun r' s₃ σ₃ _ _ hσ₃ _ hr' => .pure hσ₃ hr'

theorem achieves_inferAll {V : TypeVar → Prop} {s : CheckState} {env : TypeEnv}
    {σ : Instantiation} {Γ : Context} {elem : Ty} (hflat : sig.Flat)
    (hwarn : o.exhaustiveness = .warn) (hs : s.Live sig V) (henv : TypeEnv.Live V s.next env)
    (hσ : s.solver.subst.AgreesWith σ) (hΓ : env.AtLeast σ Γ) (helem : elem.Live V s.next)
    (es : List Expr) (hes : Expr.arePlain es = true)
    (h : ∀ e ∈ es, HasType sig.signature Γ e (elem.mono σ)) :
    Achieves (inferAll env elem es) o s σ fun _ _ _ => True := by
  match es with
  | [] => exact .pure hσ trivial
  | e :: es =>
      obtain ⟨he, hes⟩ := Bool.and_eq_true_iff.1 hes
      obtain ⟨hte, htes⟩ := List.forall_mem_cons.1 h
      refine (achieves_infer hflat hwarn hs henv hσ hΓ e he hte).bind
        (infers_infer hflat hs henv e he) fun r s₁ σ₁ h₁ ⟨hr, _⟩ hσ₁ hsame₁ hrmono => ?_
      have helem₁ : elem.mono σ₁ = elem.mono σ := helem.mono_eq hsame₁
      refine (achieves_unify h₁.live (helem.mono h₁.next) hr hσ₁ (helem₁.trans hrmono.symm)
        e.range).bind (infers_unify h₁.live (helem.mono h₁.next) hr e.range)
        fun _ s₂ σ₂ h₂ _ hσ₂ _ heq₂ => ?_
      subst heq₂
      have hnext := (h₁.trans h₂).next
      exact (achieves_inferAll hflat hwarn h₂.live (henv.mono hnext) hσ₂
        (henv.atLeast_congr hΓ hsame₁) (helem.mono hnext) es hes (helem₁ ▸ htes)).bind
        (infers_inferAll hflat h₂.live (henv.mono hnext) (helem.mono hnext) es hes)
        fun _ _ _ _ _ hσ₃ _ _ => .pure hσ₃ trivial

theorem achieves_inferEach {V : TypeVar → Prop} {s : CheckState} {env : TypeEnv}
    {σ : Instantiation} {Γ : Context} {τs : List MonoTy} (hflat : sig.Flat)
    (hwarn : o.exhaustiveness = .warn) (hs : s.Live sig V) (henv : TypeEnv.Live V s.next env)
    (hσ : s.solver.subst.AgreesWith σ) (hΓ : env.AtLeast σ Γ) (es : List Expr)
    (hes : Expr.arePlain es = true) (h : HasTypes sig.signature Γ es τs) :
    Achieves (inferEach env es) o s σ fun r _ σ' => Ty.monos σ' r.2 = τs := by
  match es with
  | [] =>
      cases h
      exact .pure hσ rfl
  | e :: es =>
      obtain ⟨he, hes⟩ := Bool.and_eq_true_iff.1 hes
      obtain ⟨τ, τs, rfl, hte, htes⟩ := h.uncons
      refine (achieves_infer hflat hwarn hs henv hσ hΓ e he hte).bind
        (infers_infer hflat hs henv e he) fun r s₁ σ₁ h₁ ⟨hr, _⟩ hσ₁ hsame₁ hrmono => ?_
      have henv₁ := henv.mono h₁.next
      refine (achieves_inferEach hflat hwarn h₁.live henv₁ hσ₁ (henv.atLeast_congr hΓ hsame₁)
        es hes htes).bind (infers_inferEach hflat h₁.live henv₁ es hes)
        fun rs s₂ σ₂ _ _ hσ₂ hsame₂ hrs => .pure hσ₂ ?_
      exact congrArg₂ List.cons ((hr.mono_eq hsame₂).trans hrmono) hrs

theorem achieves_inferAgainst {V : TypeVar → Prop} {s : CheckState} {env : TypeEnv}
    {σ : Instantiation} {Γ : Context} {types : List Ty} (hflat : sig.Flat)
    (hwarn : o.exhaustiveness = .warn) (hs : s.Live sig V) (henv : TypeEnv.Live V s.next env)
    (hσ : s.solver.subst.AgreesWith σ) (hΓ : env.AtLeast σ Γ)
    (htypes : ∀ t ∈ types, t.Live V s.next) (es : List Expr) (hes : Expr.arePlain es = true)
    (h : HasTypes sig.signature Γ es (Ty.monos σ types)) :
    Achieves (inferAgainst env types es) o s σ fun _ _ _ => True := by
  match es, types with
  | [], _ => exact .pure hσ trivial
  | _ :: _, [] => cases h
  | e :: es, type :: types =>
      obtain ⟨he, hes⟩ := Bool.and_eq_true_iff.1 hes
      obtain ⟨htype, htypes⟩ := List.forall_mem_cons.1 htypes
      cases h with
      | cons hte htes =>
          refine (achieves_infer hflat hwarn hs henv hσ hΓ e he hte).bind
            (infers_infer hflat hs henv e he) fun r s₁ σ₁ h₁ ⟨hr, _⟩ hσ₁ hsame₁ hrmono => ?_
          refine (achieves_unify h₁.live (htype.mono h₁.next) hr hσ₁
            ((htype.mono_eq hsame₁).trans hrmono.symm) e.range).bind
            (infers_unify h₁.live (htype.mono h₁.next) hr e.range)
            fun _ s₂ σ₂ h₂ _ hσ₂ _ heq₂ => ?_
          subst heq₂
          have hnext := (h₁.trans h₂).next
          have htypes₂ : ∀ t ∈ types, t.Live V s₂.next := fun t ht => (htypes t ht).mono hnext
          have hmonos : Ty.monos σ₂ types = types.map (Ty.mono σ) :=
            Ty.Live.monos_eq htypes hsame₁
          rw [← hmonos] at htes
          have hlength : es.length = types.length := by simpa [Ty.monos] using htes.length_eq
          exact (achieves_inferAgainst hflat hwarn h₂.live (henv.mono hnext) hσ₂
            (henv.atLeast_congr hΓ hsame₁) htypes₂ es hes htes).bind
            (infers_inferAgainst hflat h₂.live (henv.mono hnext) htypes₂ es hlength hes)
            fun _ _ _ _ _ hσ₃ _ _ => .pure hσ₃ trivial

theorem achieves_inferArgs {V : TypeVar → Prop} {s : CheckState} {env : TypeEnv}
    {σ : Instantiation} {Γ : Context} {types : List Ty} {items : List Expr} (hflat : sig.Flat)
    (hwarn : o.exhaustiveness = .warn) (hs : s.Live sig V) (henv : TypeEnv.Live V s.next env)
    (hσ : s.solver.subst.AgreesWith σ) (hΓ : env.AtLeast σ Γ)
    (htypes : ∀ t ∈ types, t.Live V s.next) (arg : Option Expr) (cause : TypeError.Cause)
    (range : Range) (harg : arg.elim true Expr.isPlain = true)
    (hspread : Expr.spread? types.length arg = some items)
    (h : HasTypes sig.signature Γ items (Ty.monos σ types)) :
    Achieves (inferArgs env types (fail cause range) arg) o s σ fun _ _ _ => True := by
  match arg, types with
  | none, [] => exact .pure hσ trivial
  | none, _ :: _ => simp [Expr.spread?] at hspread
  | some arg, [] => simp [Expr.spread?] at hspread
  | some arg, [type] =>
      obtain rfl : [arg] = items := by simpa [Expr.spread?] using hspread
      have htype := htypes type List.mem_cons_self
      cases h with
      | cons htarg _ =>
          refine (achieves_infer hflat hwarn hs henv hσ hΓ arg harg htarg).bind
            (infers_infer hflat hs henv arg harg)
            fun r s₁ σ₁ h₁ ⟨hr, _⟩ hσ₁ hsame₁ hrmono => ?_
          exact (achieves_unify h₁.live (htype.mono h₁.next) hr hσ₁
            ((htype.mono_eq hsame₁).trans hrmono.symm) arg.range).bind
            (infers_unify h₁.live (htype.mono h₁.next) hr arg.range)
            fun _ _ _ _ _ hσ₂ _ _ => .pure hσ₂ trivial
  | some (.tuple es range'), type :: type' :: types =>
      obtain ⟨hlength, rfl⟩ : es.length = types.length + 2 ∧ es = items := by
        simpa [Expr.spread?] using hspread
      simp only [inferArgs, List.length_cons, hlength, if_true]
      exact achieves_inferAgainst hflat hwarn hs henv hσ hΓ htypes es harg h
  | some (.literal _ _), _ :: _ :: _ | some (.var _), _ :: _ :: _
  | some (.lambda _ _ _), _ :: _ :: _ | some (.apply _ _ _), _ :: _ :: _
  | some (.letIn _ _ _ _), _ :: _ :: _ | some (.letRec _ _ _), _ :: _ :: _
  | some (.ifElse _ _ _ _), _ :: _ :: _ | some (.list _ _), _ :: _ :: _
  | some (.record _ _), _ :: _ :: _ | some (.field _ _ _), _ :: _ :: _
  | some (.update _ _ _), _ :: _ :: _ | some (.construct _ _ _), _ :: _ :: _
  | some (.caseOf _ _ _), _ :: _ :: _ | some (.ref _ _), _ :: _ :: _
  | some (.deref _ _), _ :: _ :: _ | some (.assign _ _ _), _ :: _ :: _
  | some (.sequence _ _ _), _ :: _ :: _ | some (.annot _ _ _), _ :: _ :: _ =>
      simp [Expr.spread?] at hspread

theorem achieves_inferFields {V : TypeVar → Prop} {s : CheckState} {env : TypeEnv}
    {σ : Instantiation} {Γ : Context} {τs : List MonoTy} (hflat : sig.Flat)
    (hwarn : o.exhaustiveness = .warn) (hs : s.Live sig V) (henv : TypeEnv.Live V s.next env)
    (hσ : s.solver.subst.AgreesWith σ) (hΓ : env.AtLeast σ Γ) (before : List (String × Ty))
    (fields : List (Ident × Expr)) (hfields : Expr.arePlainFields fields = true)
    (hnodup : (fields.map (·.1.text)).Nodup)
    (hapart : ∀ x ∈ fields.map (·.1.text), x ∉ Fields.names before)
    (h : HasTypes sig.signature Γ (fields.map (·.2)) τs) :
    Achieves (inferFields env before fields) o s σ fun r _ σ' =>
      ∃ ts, r.2 = ((fields.map (·.1.text)).zip ts).foldl
        (fun fs entry => Fields.insert entry.1 entry.2 fs) before ∧ Ty.monos σ' ts = τs := by
  match fields with
  | [] =>
      cases h
      exact .pure hσ ⟨[], rfl, rfl⟩
  | (name, value) :: fields =>
      obtain ⟨hvalue, hfields⟩ := Bool.and_eq_true_iff.1 hfields
      obtain ⟨hname, hnodup⟩ := List.nodup_cons.1 hnodup
      obtain ⟨hnew, hapart⟩ := List.forall_mem_cons.1 hapart
      obtain ⟨τ, τs, rfl, htvalue, htfields⟩ := h.uncons
      refine (achieves_infer hflat hwarn hs henv hσ hΓ value hvalue htvalue).bind
        (infers_infer hflat hs henv value hvalue)
        fun (core, t) s₁ σ₁ h₁ ⟨ht, _⟩ hσ₁ hsame₁ hmono => ?_
      have henv₁ := henv.mono h₁.next
      have hnone : ¬(Fields.get? before name.text).isSome = true := by
        simpa [Fields.get?_eq_none] using hnew
      dsimp only
      rw [if_neg hnone]
      refine (achieves_inferFields hflat hwarn h₁.live henv₁ hσ₁
        (henv.atLeast_congr hΓ hsame₁) (Fields.insert name.text t before) fields hfields hnodup
        (fun x hx hmem => ?_) htfields).bind (infers_inferFields hflat h₁.live henv₁
          (Fields.insert name.text t before) fields hfields)
        fun r s₂ σ₂ h₂ _ hσ₂ hsame₂ ⟨ts, hr, hts⟩ => .pure hσ₂ ⟨t :: ts, hr, ?_⟩
      · rcases Fields.mem_names_insert.1 hmem with rfl | hmem
        · exact hname hx
        · exact hapart x hx hmem
      · exact congrArg₂ List.cons ((ht.mono_eq hsame₂).trans hmono) hts

theorem achieves_inferBindings {V : TypeVar → Prop} {s : CheckState} {env : TypeEnv}
    {σ : Instantiation} {Γ : Context} {types : List Ty} (hflat : sig.Flat)
    (hwarn : o.exhaustiveness = .warn) (hs : s.Live sig V) (henv : TypeEnv.Live V s.next env)
    (hσ : s.solver.subst.AgreesWith σ) (hΓ : env.AtLeast σ Γ)
    (htypes : ∀ t ∈ types, t.Live V s.next) (bindings : List (RecBinding Expr))
    (hbindings : Expr.arePlainBindings bindings = true)
    (h : HasTypes sig.signature Γ (bindings.map (·.value)) (Ty.monos σ types)) :
    Achieves (inferBindings env types bindings) o s σ fun _ _ _ => True := by
  match bindings, types with
  | [], _ => exact .pure hσ trivial
  | _ :: _, [] => cases h
  | ⟨name, value, range⟩ :: bindings, type :: types =>
      obtain ⟨hvalue, hbindings⟩ := Bool.and_eq_true_iff.1 hbindings
      obtain ⟨htype, htypes⟩ := List.forall_mem_cons.1 htypes
      cases h with
      | cons htvalue htvalues =>
          refine (achieves_infer hflat hwarn hs henv hσ hΓ value hvalue htvalue).bind
            (infers_infer hflat hs henv value hvalue)
            fun r s₁ σ₁ h₁ ⟨hr, _⟩ hσ₁ hsame₁ hrmono => ?_
          refine (achieves_unify h₁.live (htype.mono h₁.next) hr hσ₁
            ((htype.mono_eq hsame₁).trans hrmono.symm) range).bind
            (infers_unify h₁.live (htype.mono h₁.next) hr range)
            fun _ s₂ σ₂ h₂ _ hσ₂ _ heq₂ => ?_
          subst heq₂
          have hnext := (h₁.trans h₂).next
          have htypes₂ : ∀ t ∈ types, t.Live V s₂.next := fun t ht => (htypes t ht).mono hnext
          have hmonos : Ty.monos σ₂ types = types.map (Ty.mono σ) :=
            Ty.Live.monos_eq htypes hsame₁
          rw [← hmonos] at htvalues
          have hlength : types.length = bindings.length := by
            simpa [Ty.monos] using htvalues.length_eq.symm
          exact (achieves_inferBindings hflat hwarn h₂.live (henv.mono hnext) hσ₂
            (henv.atLeast_congr hΓ hsame₁) htypes₂ bindings hbindings htvalues).bind
            (infers_inferBindings hflat h₂.live (henv.mono hnext) htypes₂ bindings hlength
              hbindings) fun _ _ _ _ _ hσ₃ _ _ => .pure hσ₃ trivial

theorem achieves_inferArms {V : TypeVar → Prop} {s : CheckState} {env : TypeEnv}
    {σ : Instantiation} {Γ : Context} {scrutinee result : Ty} {τ τ' : MonoTy} (hflat : sig.Flat)
    (hwarn : o.exhaustiveness = .warn) (hs : s.Live sig V) (henv : TypeEnv.Live V s.next env)
    (hσ : s.solver.subst.AgreesWith σ) (hΓ : env.AtLeast σ Γ)
    (hscrutinee : scrutinee.Live V s.next) (hresult : result.Live V s.next)
    (hτ : scrutinee.mono σ = τ) (hτ' : result.mono σ = τ') (arms : List (MatchArm Expr))
    (harms : Expr.arePlainArms arms = true) (h : HasArms sig.signature Γ arms τ τ') :
    Achieves (inferArms env scrutinee result arms) o s σ fun _ _ _ => True := by
  match arms with
  | [] => exact .pure hσ trivial
  | ⟨pat, body, range⟩ :: arms =>
      obtain ⟨hbody, harms⟩ := Bool.and_eq_true_iff.1 harms
      cases h with
      | @cons _ _ _ _ _ bs hpattern hnodup htbody htarms =>
          have hnil : ∀ p ∈ ([] : PatternBindings), p.2.Live V s.next := by simp
          refine (achieves_pattern hflat hs hscrutinee hnil hσ hτ pat hpattern hnodup).bind
            (infers_pattern hflat hs hscrutinee [] pat)
            fun r s₁ σ₁ h₁ hadded hσ₁ hsame₁ hr => ?_
          have hlive := hadded.live (by simp)
          have henv₁ := henv.mono h₁.next
          have henvIn := henv₁.extend fun p hp => .of_live (hlive p hp)
          have hΓ₁ := henv.atLeast_congr hΓ hsame₁
          have hinner := TypeEnv.AtLeast.extendMono hΓ₁ fun p hp => (hlive p hp).simple
          have hr : (r.2.map fun p => (p.1, p.2.mono σ₁)) = bs := hr
          rw [hr] at hinner
          refine (achieves_infer hflat hwarn h₁.live henvIn hσ₁ hinner body hbody htbody).bind
            (infers_infer hflat h₁.live henvIn body hbody)
            fun b s₂ σ₂ h₂ ⟨hb, _⟩ hσ₂ hsame₂ hbmono => ?_
          have hsame : ∀ v < s.next, σ₂ v = σ v := fun v hv =>
            (hsame₂ v (hv.trans_le h₁.next)).trans (hsame₁ v hv)
          have hnext₂ := (h₁.trans h₂).next
          have hresult₂ : result.mono σ₂ = τ' := (hresult.mono_eq hsame).trans hτ'
          refine (achieves_unify h₂.live (hresult.mono hnext₂) hb hσ₂ (hresult₂.trans hbmono.symm)
            body.range).bind (infers_unify h₂.live (hresult.mono hnext₂) hb body.range)
            fun _ s₃ σ₃ h₃ _ hσ₃ _ heq₃ => ?_
          subst heq₃
          have hnext := hnext₂.trans h₃.next
          exact (achieves_inferArms hflat hwarn h₃.live (henv.mono hnext) hσ₃
            (henv.atLeast_congr hΓ hsame) (hscrutinee.mono hnext) (hresult.mono hnext)
            ((hscrutinee.mono_eq hsame).trans hτ) hresult₂ arms harms htarms).bind
            (infers_inferArms hflat h₃.live (henv.mono hnext) (hscrutinee.mono hnext)
              (hresult.mono hnext) arms harms) fun _ _ _ _ _ hσ₄ _ _ => .pure hσ₄ trivial

end

end Check

end FieldML
