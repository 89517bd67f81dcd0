import FieldML.Proofs.Typing.Steps

/-!
# Soundness of inference

Whatever types are given to variables in agreement with what inference found out, an expression has
the inferred type by the rules.
-/

namespace FieldML

open Check

variable {sig : VariantEnv} {V : TypeVar → Prop} {t : Ty} {types : List Ty} {o : CheckOptions}
  {s s' : CheckState} {σ : Instantiation} {env : TypeEnv} {Γ : Context} {range : Range}

/-- The judgement holds for what the variables stand for, in every context that allows no fewer
instances. -/
def CheckState.Derives (s : CheckState) (env : TypeEnv)
    (P : Instantiation → Context → Prop) : Prop :=
  ∀ σ, s.solver.subst.AgreesWith σ → ∀ Γ, env.AtMost σ Γ → P σ Γ

namespace CheckState.Derives

variable {P : Instantiation → Context → Prop}

theorem intro (h : ∀ σ, s.solver.subst.AgreesWith σ → ∀ Γ, env.AtMost σ Γ → P σ Γ) :
    s.Derives env P := h

theorem elim (h : s.Derives env P) (hσ : s.solver.subst.AgreesWith σ) (hΓ : env.AtMost σ Γ) :
    P σ Γ := h σ hσ Γ hΓ

end CheckState.Derives

theorem CheckState.Live.schemes_within {names : List (String × Ty)} (hs : s.Live sig V)
    (henv : TypeEnv.Live V s.next env) (hnames : ∀ p ∈ names, p.2.Live V s.next) :
    TypeEnv.Live (s.within V env) s.next
      (extendEnv env (names.map fun p => (p.1, s.scheme env p.2))) := by
  refine (hs.env_within henv).extend fun p hp => ?_
  obtain ⟨q, hq, rfl⟩ := List.mem_map.1 hp
  exact hs.poly_scheme (hnames q hq)

namespace Check

/-- If the names of a recursive group have their types inside it, they have the generalized types
after it. -/
theorem atMost_schemes {names : List (String × Ty)} (hs : s.Live sig V)
    (hΓ : env.AtMost σ Γ) (hnames : ∀ p ∈ names, p.2.Live V s.next) {N : TypeVar}
    (hN : s.Beyond env σ Γ N) :
    TypeEnv.AtMost σ (extendEnv env (names.map fun p => (p.1, s.scheme env p.2)))
      (Γ.extend ((Fields.names names).zip
        ((names.map fun p => p.2.mono (s.refresh env σ N)).map Γ.generalize))) := by
  refine Fields.Related.foldl_insert hΓ ?_
  rw [List.map_map, Fields.names, List.zip_map', Fields.Related, List.forall₂_map_left_iff,
    List.forall₂_map_right_iff, List.forall₂_same]
  exact fun p hp => ⟨rfl, hs.atMost_scheme (hnames p hp) hN⟩

mutual

theorem infers_infer {V : TypeVar → Prop} {s : CheckState} {env : TypeEnv} (hflat : sig.Flat)
    (hs : s.Live sig V) (henv : TypeEnv.Live V s.next env) (e : Expr) (he : e.isPlain = true) :
    Infers sig V (infer env e) o s fun r s' =>
      r.2.Live V s'.next ∧ s'.Derives env fun σ Γ => HasType sig.signature Γ e (r.2.mono σ) := by
  match e with
  | .literal v range =>
      refine .pure hs ⟨live_literalType v range, .intro fun σ _ Γ _ => ?_⟩
      dsimp only
      rw [mono_literalType]
      exact .literal Γ v range
  | .var name =>
      rw [infer]
      split
      · next scheme hscheme =>
          refine (infers_instantiate hs (henv _ (Fields.mem_of_get? hscheme)) name.range).bind
            fun t s₁ h₁ ⟨ht, hinstance⟩ => .pure h₁.live ⟨ht, .intro fun σ _ Γ hΓ => ?_⟩
          obtain ⟨π, hπ, hatMost⟩ := Fields.Related.get? hΓ hscheme
          exact .var hπ (hatMost _ (hinstance σ))
      · exact .fail _ _
  | .lambda param body range =>
      refine (infers_fresh hs param.range).bind fun t s₁ h₁ ht => ?_
      refine (infers_infer hflat h₁.live ((henv.mono h₁.next).insert (.of_live ht) param.text) body
        he).bind fun r s₂ h₂ ⟨hr, hbody⟩ =>
          .pure h₂.live ⟨(ht.mono h₂.next).func hr range, .intro fun σ hσ Γ hΓ => ?_⟩
      exact .lambda range (hbody.elim hσ (Fields.Related.insert hΓ _ ht.simple.atMost_ofMono))
  | .apply func arg range =>
      obtain ⟨hfunc, harg⟩ := Bool.and_eq_true_iff.1 he
      refine (infers_infer hflat hs henv func hfunc).bind fun f s₁ h₁ ⟨hf, hderf⟩ => ?_
      refine (infers_infer hflat h₁.live (henv.mono h₁.next) arg harg).bind
        fun a s₂ h₂ ⟨ha, hdera⟩ => ?_
      refine (infers_applyType h₂.live (hf.mono h₂.next) ha _ _ range).bind
        fun t s₃ h₃ ⟨ht, heq⟩ => .pure h₃.live ⟨ht, .intro fun σ hσ Γ hΓ => ?_⟩
      have hσ₂ := h₃.agreesWith hσ
      refine .apply range ?_ (hdera.elim hσ₂ hΓ)
      rw [← heq σ hσ]
      exact hderf.elim (h₂.agreesWith hσ₂) hΓ
  | .letIn name value body range =>
      obtain ⟨hvalue, hbody⟩ := Bool.and_eq_true_iff.1 he
      refine (infers_infer hflat hs henv value hvalue).bind fun (core, t) s₁ h₁ ⟨ht, hder⟩ => ?_
      have henv₁ := henv.mono h₁.next
      dsimp only [letScheme] at ht hder ⊢
      by_cases hval : value.isValue = true
      · rw [if_pos hval]
        refine (infers_generalize h₁.live t env).bind fun _ s₂ h₂ ⟨hscheme, hidle⟩ => ?_
        subst hscheme
        -- The body is checked apart from the variables that are quantified now.
        have hwithin : ∀ v, s₁.within V env v → V v := fun _ hv => hv.1
        have hbodyinf := infers_infer hflat ((h₁.live.live_within env).of_idle hidle)
          (((h₁.live.env_within henv₁).insert (h₁.live.poly_scheme ht) name.text).mono hidle.next)
          body hbody
        refine (hbodyinf.widen h₂.live hwithin).bind fun r' s₃ h₃ ⟨hr', hder'⟩ =>
          .pure h₃.live ⟨hr'.widen hwithin, .intro fun σ hσ Γ hΓ => ?_⟩
        have hσ₁ : s₁.solver.subst.AgreesWith σ := h₂.agreesWith (h₃.agreesWith hσ)
        obtain ⟨N, hN⟩ := s₁.exists_beyond env σ Γ
        refine .letIn range (hder.elim (h₁.live.agreesWith_refresh env σ N)
          (h₁.live.atMost_refresh henv₁ hσ₁ hΓ N)) (hder'.elim hσ ?_)
        rw [Context.letType, if_pos hval]
        exact Fields.Related.insert hΓ name.text (h₁.live.atMost_scheme ht hN)
      · rw [if_neg hval]
        refine (Infers.pure h₁.live (Q := fun scheme s₂ => scheme = t ∧ s₂ = s₁)
          ⟨rfl, rfl⟩).bind ?_
        rintro _ _ h₂ ⟨rfl, rfl⟩
        refine (infers_infer hflat h₁.live (henv₁.insert (.of_live ht) name.text) body hbody).bind
          fun r' s₃ h₃ ⟨hr', hder'⟩ => .pure h₃.live ⟨hr', .intro fun σ hσ Γ hΓ => ?_⟩
        refine .letIn range (hder.elim (h₃.agreesWith hσ) hΓ) (hder'.elim hσ ?_)
        rw [Context.letType, if_neg hval]
        exact Fields.Related.insert hΓ name.text ht.simple.atMost_ofMono
  | .letRec bindings body range =>
      obtain ⟨hbindings, hbody⟩ := Bool.and_eq_true_iff.1 he
      refine (infers_placeholders hs bindings).bind fun names s₁ h₁ hnames => ?_
      have henv₁ := henv.mono h₁.next
      refine (infers_inferBindings hflat h₁.live (henv₁.extend fun p hp =>
        .of_live (hnames.live p hp)) hnames.types_live bindings hnames.length_types
        hbindings).bind fun values s₂ h₂ hder => ?_
      have henv₂ := henv₁.mono h₂.next
      have hlive₂ : ∀ p ∈ names, p.2.Live V s₂.next := fun p hp => (hnames.live p hp).mono h₂.next
      refine (infers_generalizeAll h₂.live names env).bind fun _ s₃ h₃ ⟨hschemes, hidle⟩ => ?_
      subst hschemes
      have hwithin : ∀ v, s₂.within V env v → V v := fun _ hv => hv.1
      have hbodyinf := infers_infer hflat ((h₂.live.live_within env).of_idle hidle)
        ((h₂.live.schemes_within henv₂ hlive₂).mono hidle.next) body hbody
      refine (hbodyinf.widen h₃.live hwithin).bind fun r s₄ h₄ ⟨hr, hder'⟩ =>
        .pure h₄.live ⟨hr.widen hwithin, .intro fun σ hσ Γ hΓ => ?_⟩
      have hσ₂ : s₂.solver.subst.AgreesWith σ := h₃.agreesWith (h₄.agreesWith hσ)
      obtain ⟨N, hN⟩ := s₂.exists_beyond env σ Γ
      have hinner := TypeEnv.AtMost.extendMono (h₂.live.atMost_refresh henv₂ hσ₂ hΓ N)
        fun p hp => (hlive₂ p hp).simple
      have hvalues := hder.elim (h₂.live.agreesWith_refresh env σ N) hinner
      have hafter := atMost_schemes h₂.live hΓ hlive₂ hN
      rw [hnames.names_eq] at hafter
      refine .letRec range hnames.group.lambda hnames.group.nodup ?_ (hder'.elim hσ hafter)
      have heq : bindings.map (·.name.text) = names.map (·.1) := hnames.names_eq.symm
      rw [heq, List.zip_map']
      rwa [Ty.monos, List.map_map] at hvalues
  | .ifElse cond yes no range =>
      obtain ⟨⟨hcond, hyes⟩, hno⟩ : (cond.isPlain = true ∧ yes.isPlain = true) ∧
        no.isPlain = true := by simpa [Expr.isPlain] using he
      refine (infers_infer hflat hs henv cond hcond).bind fun c s₁ h₁ ⟨hc, hderc⟩ => ?_
      refine (infers_unify h₁.live (.base .bool cond.range) hc cond.range).bind
        fun _ s₂ h₂ hbool => ?_
      have henv₂ := henv.mono (h₁.trans h₂).next
      refine (infers_infer hflat h₂.live henv₂ yes hyes).bind fun y s₃ h₃ ⟨hy, hdery⟩ => ?_
      refine (infers_infer hflat h₃.live (henv₂.mono h₃.next) no hno).bind
        fun n s₄ h₄ ⟨hn, hdern⟩ => ?_
      refine (infers_unify h₄.live (hy.mono h₄.next) hn no.range).bind fun _ s₅ h₅ hsame =>
        .pure h₅.live ⟨hy.mono (h₄.trans h₅).next, .intro fun σ hσ Γ hΓ => ?_⟩
      have hσ₄ := h₅.agreesWith hσ
      have hσ₂ := (h₃.trans h₄).agreesWith hσ₄
      have hc' := hderc.elim (h₂.agreesWith hσ₂) hΓ
      have hn' := hdern.elim hσ₄ hΓ
      rw [← hbool σ hσ₂] at hc'
      rw [← hsame σ hσ] at hn'
      exact .ifElse range hc' (hdery.elim (h₄.agreesWith hσ₄) hΓ) hn'
  | .list items range =>
      refine (infers_fresh hs range).bind fun elem s₁ h₁ helem => ?_
      refine (infers_inferAll hflat h₁.live (henv.mono h₁.next) helem items he).bind
        fun _ s₂ h₂ hder => .pure h₂.live
          ⟨(helem.mono h₂.next).list range, .intro fun σ hσ Γ hΓ => .list range (hder.elim hσ hΓ)⟩
  | .tuple items range =>
      refine (infers_inferEach hflat hs henv items he).bind fun r s₁ h₁ ⟨hr, hder⟩ =>
        .pure h₁.live ⟨.product hr range, .intro fun σ hσ Γ hΓ => ?_⟩
      rw [Ty.mono_product]
      exact .tuple range (hder.elim hσ hΓ)
  | .record fields range =>
      refine (infers_inferFields hflat hs henv [] fields he).bind
        fun (cores, types) s₁ h₁ ⟨ts, hlength, hts, htypes, hnodup, _, hder⟩ => ?_
      obtain rfl : types = Fields.ofList ((fields.map (·.1.text)).zip ts) := htypes
      refine .pure h₁.live ⟨.record (Fields.sorted_ofList _) (fun p hp =>
        hts _ (List.of_mem_zip (Fields.mem_of_mem_ofList hp)).2) range,
        .intro fun σ hσ Γ hΓ => ?_⟩
      have hzip : ((fields.map (·.1.text)).zip ts).map (fun p => (p.1, p.2.mono σ)) =
          (fields.map (·.1.text)).zip (Ty.monos σ ts) := List.zip_map_right.symm
      dsimp only
      rw [Ty.mono_record, Fields.map_ofList, hzip]
      exact .record range hnodup (hder.elim hσ hΓ)
  | .construct ctor arg range =>
      refine (infers_instantiateConstructor hs hflat ctor).bind
        fun (variant, types) s₁ h₁ ⟨c, args, hused⟩ => ?_
      have harg : arg.elim true Expr.isPlain = true := by cases arg <;> exact he
      dsimp only at hused
      refine (infers_inferArgs hflat h₁.live (henv.mono h₁.next) hused.live arg _ range
        harg).bind fun cores s₂ h₂ ⟨items, hspread, hder⟩ => ?_
      refine .pure h₂.live ⟨(hused.variant_live.mono h₂.next).withRange range,
        .intro fun σ hσ Γ hΓ => ?_⟩
      have hitems := hder.elim hσ hΓ
      rw [hused.means] at hitems
      rw [Ty.mono_withRange, hused.variant_eq, Ty.mono_variant]
      exact .construct range hused.found (by simp [hused.params]) (hused.length ▸ hspread) hitems
  | .caseOf scrutinee arms range =>
      obtain ⟨hscrutinee, harms⟩ := Bool.and_eq_true_iff.1 he
      refine (infers_infer hflat hs henv scrutinee hscrutinee).bind fun r s₁ h₁ ⟨hr, hder⟩ => ?_
      refine (infers_fresh h₁.live range).bind fun result s₂ h₂ hresult => ?_
      refine (infers_inferArms hflat h₂.live (henv.mono (h₁.trans h₂).next) (hr.mono h₂.next)
        hresult arms harms).bind fun coreArms s₃ h₃ hder' => ?_
      refine ((idles_checkCoverage coreArms _ range).infers h₃.live).bind fun _ s₄ h₄ _ =>
        .pure h₄.live ⟨hresult.mono (h₃.trans h₄).next, .intro fun σ hσ Γ hΓ => ?_⟩
      have hσ₃ := h₄.agreesWith hσ
      exact .caseOf range (hder.elim ((h₂.trans h₃).agreesWith hσ₃) hΓ) (hder'.elim hσ₃ hΓ)
  | .ref value range =>
      exact (infers_infer hflat hs henv value he).bind fun r s₁ h₁ ⟨hr, hder⟩ =>
        .pure h₁.live ⟨hr.ref range, .intro fun σ hσ Γ hΓ => .ref range (hder.elim hσ hΓ)⟩
  | .deref target range =>
      refine (infers_infer hflat hs henv target he).bind fun r s₁ h₁ ⟨hr, hder⟩ => ?_
      refine (infers_fresh h₁.live range).bind fun content s₂ h₂ hcontent => ?_
      refine (infers_unify h₂.live (hcontent.ref target.range) (hr.mono h₂.next) target.range).bind
        fun _ s₃ h₃ heq => .pure h₃.live ⟨hcontent.mono h₃.next, .intro fun σ hσ Γ hΓ => ?_⟩
      have htarget := hder.elim ((h₂.trans h₃).agreesWith hσ) hΓ
      rw [← heq σ hσ] at htarget
      exact .deref range htarget
  | .assign target value range =>
      obtain ⟨htarget, hvalue⟩ := Bool.and_eq_true_iff.1 he
      refine (infers_infer hflat hs henv target htarget).bind fun r s₁ h₁ ⟨hr, hder⟩ => ?_
      refine (infers_infer hflat h₁.live (henv.mono h₁.next) value hvalue).bind
        fun v s₂ h₂ ⟨hv, hder'⟩ => ?_
      refine (infers_fresh h₂.live range).bind fun content s₃ h₃ hcontent => ?_
      refine (infers_unify h₃.live (hcontent.ref target.range) (hr.mono (h₂.trans h₃).next)
        target.range).bind fun _ s₄ h₄ heq => ?_
      refine (infers_unify h₄.live (hcontent.mono h₄.next) (hv.mono (h₃.trans h₄).next)
        value.range).bind fun _ s₅ h₅ heq' =>
          .pure h₅.live ⟨.base .unit range, .intro fun σ hσ Γ hΓ => ?_⟩
      have hσ₄ := h₅.agreesWith hσ
      have hσ₂ := (h₃.trans h₄).agreesWith hσ₄
      have htarget' := hder.elim (h₂.agreesWith hσ₂) hΓ
      have hvalue' := hder'.elim hσ₂ hΓ
      rw [← heq σ hσ₄] at htarget'
      rw [← heq' σ hσ] at hvalue'
      exact .assign range htarget' hvalue'
  | .sequence first second range =>
      obtain ⟨hfirst, hsecond⟩ := Bool.and_eq_true_iff.1 he
      refine (infers_infer hflat hs henv first hfirst).bind fun r s₁ h₁ ⟨hr, hder⟩ => ?_
      refine (infers_unify h₁.live (.base .unit first.range) hr first.range).bind
        fun _ s₂ h₂ heq => ?_
      refine (infers_infer hflat h₂.live (henv.mono (h₁.trans h₂).next) second hsecond).bind
        fun r' s₃ h₃ ⟨hr', hder'⟩ => .pure h₃.live ⟨hr', .intro fun σ hσ Γ hΓ => ?_⟩
      have hσ₂ := h₃.agreesWith hσ
      have hfirst' := hder.elim (h₂.agreesWith hσ₂) hΓ
      rw [← heq σ hσ₂] at hfirst'
      exact .sequence range hfirst' (hder'.elim hσ hΓ)

theorem infers_inferAll {V : TypeVar → Prop} {s : CheckState} {env : TypeEnv} {elem : Ty}
    (hflat : sig.Flat) (hs : s.Live sig V) (henv : TypeEnv.Live V s.next env)
    (helem : elem.Live V s.next) (es : List Expr) (hes : Expr.arePlain es = true) :
    Infers sig V (inferAll env elem es) o s fun _ s' =>
      s'.Derives env fun σ Γ => ∀ e ∈ es, HasType sig.signature Γ e (elem.mono σ) := by
  match es with
  | [] => exact .pure hs (.intro fun _ _ _ _ => by simp)
  | e :: es =>
      obtain ⟨he, hes⟩ := Bool.and_eq_true_iff.1 hes
      refine (infers_infer hflat hs henv e he).bind fun r s₁ h₁ ⟨hr, hder⟩ => ?_
      refine (infers_unify h₁.live (helem.mono h₁.next) hr e.range).bind fun _ s₂ h₂ heq => ?_
      have hnext := (h₁.trans h₂).next
      refine (infers_inferAll hflat h₂.live (henv.mono hnext) (helem.mono hnext) es hes).bind
        fun _ s₃ h₃ hder' => .pure h₃.live (.intro fun σ hσ Γ hΓ => ?_)
      have hσ₂ := h₃.agreesWith hσ
      have he' := hder.elim (h₂.agreesWith hσ₂) hΓ
      rw [← heq σ hσ₂] at he'
      exact List.forall_mem_cons.2 ⟨he', hder'.elim hσ hΓ⟩

theorem infers_inferEach {V : TypeVar → Prop} {s : CheckState} {env : TypeEnv}
    (hflat : sig.Flat) (hs : s.Live sig V) (henv : TypeEnv.Live V s.next env) (es : List Expr)
    (hes : Expr.arePlain es = true) :
    Infers sig V (inferEach env es) o s fun r s' =>
      (∀ t ∈ r.2, t.Live V s'.next) ∧
        s'.Derives env fun σ Γ => HasTypes sig.signature Γ es (Ty.monos σ r.2) := by
  match es with
  | [] => exact .pure hs ⟨by simp, .intro fun _ _ Γ _ => .nil Γ⟩
  | e :: es =>
      obtain ⟨he, hes⟩ := Bool.and_eq_true_iff.1 hes
      refine (infers_infer hflat hs henv e he).bind fun r s₁ h₁ ⟨hr, hder⟩ => ?_
      refine (infers_inferEach hflat h₁.live (henv.mono h₁.next) es hes).bind
        fun rs s₂ h₂ ⟨hrs, hder'⟩ => .pure h₂.live ⟨?_, .intro fun σ hσ Γ hΓ => ?_⟩
      · exact List.forall_mem_cons.2 ⟨hr.mono h₂.next, hrs⟩
      · exact .cons (hder.elim (h₂.agreesWith hσ) hΓ) (hder'.elim hσ hΓ)

theorem infers_inferAgainst {V : TypeVar → Prop} {s : CheckState} {env : TypeEnv}
    {types : List Ty} (hflat : sig.Flat) (hs : s.Live sig V) (henv : TypeEnv.Live V s.next env)
    (htypes : ∀ t ∈ types, t.Live V s.next) (es : List Expr) (hlength : es.length = types.length)
    (hes : Expr.arePlain es = true) :
    Infers sig V (inferAgainst env types es) o s fun _ s' =>
      s'.Derives env fun σ Γ => HasTypes sig.signature Γ es (Ty.monos σ types) := by
  match es, types with
  | [], [] => exact .pure hs (.intro fun _ _ Γ _ => .nil Γ)
  | e :: es, type :: types =>
      obtain ⟨he, hes⟩ := Bool.and_eq_true_iff.1 hes
      obtain ⟨htype, htypes⟩ := List.forall_mem_cons.1 htypes
      refine (infers_infer hflat hs henv e he).bind fun r s₁ h₁ ⟨hr, hder⟩ => ?_
      refine (infers_unify h₁.live (htype.mono h₁.next) hr e.range).bind fun _ s₂ h₂ heq => ?_
      have hnext := (h₁.trans h₂).next
      refine (infers_inferAgainst hflat h₂.live (henv.mono hnext) (fun t ht =>
        (htypes t ht).mono hnext) es (by simpa using hlength) hes).bind fun _ s₃ h₃ hder' =>
          .pure h₃.live (.intro fun σ hσ Γ hΓ => ?_)
      have hσ₂ := h₃.agreesWith hσ
      have he' := hder.elim (h₂.agreesWith hσ₂) hΓ
      rw [← heq σ hσ₂] at he'
      exact .cons he' (hder'.elim hσ hΓ)

theorem infers_inferArgs {V : TypeVar → Prop} {s : CheckState} {env : TypeEnv} {types : List Ty}
    (hflat : sig.Flat) (hs : s.Live sig V) (henv : TypeEnv.Live V s.next env)
    (htypes : ∀ t ∈ types, t.Live V s.next) (arg : Option Expr) (cause : TypeError.Cause)
    (range : Range) (harg : arg.elim true Expr.isPlain = true) :
    Infers sig V (inferArgs env types (fail cause range) arg) o s fun _ s' =>
      ∃ items, Expr.spread? types.length arg = some items ∧
        s'.Derives env fun σ Γ => HasTypes sig.signature Γ items (Ty.monos σ types) := by
  match arg, types with
  | none, [] => exact .pure hs ⟨[], rfl, .intro fun _ _ Γ _ => .nil Γ⟩
  | none, _ :: _ => exact .fail _ _
  | some arg, [] => exact .fail _ _
  | some arg, [type] =>
      have htype := htypes type List.mem_cons_self
      refine (infers_infer hflat hs henv arg harg).bind fun r s₁ h₁ ⟨hr, hder⟩ => ?_
      refine (infers_unify h₁.live (htype.mono h₁.next) hr arg.range).bind fun _ s₂ h₂ heq =>
        .pure h₂.live ⟨[arg], rfl, .intro fun σ hσ Γ hΓ => ?_⟩
      have harg' := hder.elim (h₂.agreesWith hσ) hΓ
      rw [← heq σ hσ] at harg'
      exact .cons harg' (.nil Γ)
  | some (.tuple items range'), type :: type' :: types =>
      simp only [inferArgs]
      split
      · next hlength =>
          refine (infers_inferAgainst hflat hs henv htypes items hlength harg).mono
            fun _ s₁ _ hder => ⟨items, ?_, hder⟩
          simp only [List.length_cons] at hlength ⊢
          simp [Expr.spread?, hlength]
      · exact .fail _ _
  | some (.literal _ _), _ :: _ :: _ | some (.var _), _ :: _ :: _
  | some (.lambda _ _ _), _ :: _ :: _
  | some (.apply _ _ _), _ :: _ :: _ | some (.letIn _ _ _ _), _ :: _ :: _
  | some (.letRec _ _ _), _ :: _ :: _ | some (.ifElse _ _ _ _), _ :: _ :: _
  | some (.list _ _), _ :: _ :: _ | some (.record _ _), _ :: _ :: _
  | some (.field _ _ _), _ :: _ :: _ | some (.update _ _ _), _ :: _ :: _
  | some (.construct _ _ _), _ :: _ :: _ | some (.caseOf _ _ _), _ :: _ :: _
  | some (.ref _ _), _ :: _ :: _ | some (.deref _ _), _ :: _ :: _
  | some (.assign _ _ _), _ :: _ :: _ | some (.sequence _ _ _), _ :: _ :: _
  | some (.annot _ _ _), _ :: _ :: _ => exact .fail _ _

theorem infers_inferFields {V : TypeVar → Prop} {s : CheckState} {env : TypeEnv}
    (hflat : sig.Flat) (hs : s.Live sig V) (henv : TypeEnv.Live V s.next env)
    (before : List (String × Ty)) (fields : List (Ident × Expr))
    (hfields : Expr.arePlainFields fields = true) :
    Infers sig V (inferFields env before fields) o s fun r s' =>
      ∃ ts, ts.length = fields.length ∧ (∀ t ∈ ts, t.Live V s'.next) ∧
        r.2 = ((fields.map (·.1.text)).zip ts).foldl
          (fun fs entry => Fields.insert entry.1 entry.2 fs) before ∧
        (fields.map (·.1.text)).Nodup ∧ (∀ x ∈ fields.map (·.1.text), x ∉ Fields.names before) ∧
        s'.Derives env fun σ Γ => HasTypes sig.signature Γ (fields.map (·.2)) (Ty.monos σ ts) := by
  match fields with
  | [] =>
      exact .pure hs ⟨[], rfl, by simp, rfl, List.nodup_nil, by simp, .intro fun _ _ Γ _ => .nil Γ⟩
  | (name, value) :: fields =>
      obtain ⟨hvalue, hfields⟩ := Bool.and_eq_true_iff.1 hfields
      refine (infers_infer hflat hs henv value hvalue).bind fun (core, t) s₁ h₁ ⟨ht, hder⟩ => ?_
      dsimp only
      split
      · exact .fail _ _
      · next hnone =>
          have hname : name.text ∉ Fields.names before := by
            simpa [Fields.get?_eq_none] using hnone
          refine (infers_inferFields hflat h₁.live (henv.mono h₁.next)
            (Fields.insert name.text t before) fields hfields).bind
            fun r s₂ h₂ ⟨ts, hlength, hts, hr, hnodup, hapart, hder'⟩ => .pure h₂.live
              ⟨t :: ts, by simp [hlength], List.forall_mem_cons.2 ⟨ht.mono h₂.next, hts⟩, hr,
                List.nodup_cons.2 ⟨fun hmem => ?_, hnodup⟩, List.forall_mem_cons.2
                  ⟨hname, fun x hx hmem => ?_⟩, .intro fun σ hσ Γ hΓ => ?_⟩
          · exact hapart _ hmem (Fields.mem_names_insert.2 (Or.inl rfl))
          · exact hapart x hx (Fields.mem_names_insert.2 (Or.inr hmem))
          · exact .cons (hder.elim (h₂.agreesWith hσ) hΓ) (hder'.elim hσ hΓ)

theorem infers_inferBindings {V : TypeVar → Prop} {s : CheckState} {env : TypeEnv}
    {types : List Ty} (hflat : sig.Flat) (hs : s.Live sig V) (henv : TypeEnv.Live V s.next env)
    (htypes : ∀ t ∈ types, t.Live V s.next) (bindings : List (RecBinding Expr))
    (hlength : types.length = bindings.length)
    (hbindings : Expr.arePlainBindings bindings = true) :
    Infers sig V (inferBindings env types bindings) o s fun _ s' =>
      s'.Derives env fun σ Γ =>
        HasTypes sig.signature Γ (bindings.map (·.value)) (Ty.monos σ types) := by
  match bindings, types with
  | [], [] => exact .pure hs (.intro fun _ _ Γ _ => .nil Γ)
  | ⟨name, value, range⟩ :: bindings, type :: types =>
      obtain ⟨hvalue, hbindings⟩ := Bool.and_eq_true_iff.1 hbindings
      obtain ⟨htype, htypes⟩ := List.forall_mem_cons.1 htypes
      refine (infers_infer hflat hs henv value hvalue).bind fun r s₁ h₁ ⟨hr, hder⟩ => ?_
      refine (infers_unify h₁.live (htype.mono h₁.next) hr range).bind fun _ s₂ h₂ heq => ?_
      have hnext := (h₁.trans h₂).next
      refine (infers_inferBindings hflat h₂.live (henv.mono hnext) (fun t ht =>
        (htypes t ht).mono hnext) bindings (by simpa using hlength) hbindings).bind
        fun _ s₃ h₃ hder' => .pure h₃.live (.intro fun σ hσ Γ hΓ => ?_)
      have hσ₂ := h₃.agreesWith hσ
      have hvalue' := hder.elim (h₂.agreesWith hσ₂) hΓ
      rw [← heq σ hσ₂] at hvalue'
      exact .cons hvalue' (hder'.elim hσ hΓ)

theorem infers_inferArms {V : TypeVar → Prop} {s : CheckState} {env : TypeEnv}
    {scrutinee result : Ty} (hflat : sig.Flat) (hs : s.Live sig V)
    (henv : TypeEnv.Live V s.next env) (hscrutinee : scrutinee.Live V s.next)
    (hresult : result.Live V s.next) (arms : List (MatchArm Expr))
    (harms : Expr.arePlainArms arms = true) :
    Infers sig V (inferArms env scrutinee result arms) o s fun _ s' =>
      s'.Derives env fun σ Γ =>
        HasArms sig.signature Γ arms (scrutinee.mono σ) (result.mono σ) := by
  match arms with
  | [] => exact .pure hs (.intro fun _ _ Γ _ => .nil Γ _ _)
  | ⟨pat, body, range⟩ :: arms =>
      obtain ⟨hbody, harms⟩ := Bool.and_eq_true_iff.1 harms
      refine (infers_pattern hflat hs hscrutinee [] pat).bind fun r s₁ h₁ hadded => ?_
      have hlive := hadded.live (by simp)
      refine (infers_infer hflat h₁.live ((henv.mono h₁.next).extend fun p hp =>
        .of_live (hlive p hp)) body hbody).bind fun b s₂ h₂ ⟨hb, hder⟩ => ?_
      have hnext₂ := (h₁.trans h₂).next
      refine (infers_unify h₂.live (hresult.mono hnext₂) hb body.range).bind fun _ s₃ h₃ heq => ?_
      have hnext := hnext₂.trans h₃.next
      refine (infers_inferArms hflat h₃.live (henv.mono hnext) (hscrutinee.mono hnext)
        (hresult.mono hnext) arms harms).bind fun _ s₄ h₄ hder' =>
          .pure h₄.live (.intro fun σ hσ Γ hΓ => ?_)
      have hσ₃ := h₄.agreesWith hσ
      have hσ₂ := h₃.agreesWith hσ₃
      obtain ⟨new, hnew, -, hnodup, hpattern⟩ := hadded
      obtain rfl : r.2 = new := by simpa using hnew
      have hbody' := hder.elim hσ₂ (TypeEnv.AtMost.extendMono hΓ fun p hp => (hlive p hp).simple)
      rw [← heq σ hσ₃] at hbody'
      refine .cons (hpattern σ (h₂.agreesWith hσ₂)) ?_ hbody' (hder'.elim hσ hΓ)
      rw [List.map_map]
      exact hnodup List.nodup_nil

end

end Check

end FieldML
