import FieldML.Check.Infer
import FieldML.Proofs.Check.Generalize
import FieldML.Proofs.Check.Pattern

/-!
# Inference keeps the state

Finding the type of an expression keeps what holds in every state of a check, and gives up on a
comparison only where no ranks are possible.
-/

namespace FieldML.Check

variable {o : CheckOptions} {s : CheckState} {env : TypeEnv} {t : Ty}

theorem idles_generalize (hs : s.Wf) (ht : t.Known s.next) (env : TypeEnv) :
    Idles (generalize t env) o s fun scheme s' => scheme.Scheme s'.next := by
  obtain ⟨events, hgen⟩ := CheckState.generalize_apply t env o s
  unfold Idles
  rw [hgen]
  refine ⟨⟨Nat.le_refl _, rfl, rfl, rfl, rfl⟩, ?_⟩
  have hlt : ∀ v ∈ TypeVar.orderBy (kindVars s) (s.quantified env t), v < s.next := fun v hv =>
    CheckState.quantified_lt hs ht (TypeVar.mem_orderBy.1 hv)
  have ht' := hs.apply ht
  change (CheckState.scheme s env t).Scheme s.next
  rw [CheckState.scheme, quantify_eq]
  generalize TypeVar.orderBy (kindVars s) (s.quantified env t) = vars at hlt
  induction vars with
  | nil => exact .plain ht'
  | cons v vars ih =>
      have hv := hlt v List.mem_cons_self
      exact .all _ hv (hs.applyKind hv) (ih fun w hw => hlt w (List.mem_cons_of_mem _ hw))

theorem known_extendEnv {n : TypeVar} {names : List (String × Ty)} (henv : TypeEnv.Known n env)
    (hnames : ∀ p ∈ names, p.2.Scheme n) : TypeEnv.Known n (extendEnv env names) := by
  unfold extendEnv
  induction names generalizing env with
  | nil => exact henv
  | cons p names ih =>
      exact ih (henv.insert (hnames p List.mem_cons_self) p.1)
        fun q hq => hnames q (List.mem_cons_of_mem _ hq)

theorem idles_placeholders (bindings : List (RecBinding Expr)) :
    Idles (placeholders bindings) o s fun names s' => ∀ p ∈ names, p.2.Known s'.next := by
  refine (idles_foldlM (P := fun found s' => ∀ p ∈ found, p.2.Known s'.next) (by simp)
    fun found binding _ s₁ _ hfound => ?_).bind
    fun found s₁ _ hfound => .pure fun p hp => hfound p (List.mem_reverse.1 hp)
  split
  · exact idles_fail (by simp) _
  · split
    · exact idles_fail (by simp) _
    · refine (idles_fresh _).bind fun t s₂ hidle ht => .pure fun p hp => ?_
      rcases List.mem_cons.1 hp with rfl | hp
      · exact ht
      · exact (hfound p hp).mono hidle.next

theorem keeps_applyUnknown {func arg : Ty} (hs : s.Wf) (hf : func.Known s.next)
    (ha : arg.Known s.next) (funcRange range : Range) :
    Keeps (applyUnknown func arg funcRange range) o s fun t s' => t.Known s'.next := by
  refine ((idles_fresh range).keeps hs).bind fun result s₁ hlead hs₁ hresult => ?_
  refine (keeps_unify hs₁ ((ha.mono hlead.next).func hresult funcRange) (hf.mono hlead.next)
    funcRange).bind fun _ s₂ hlead₂ hs₂ _ => .pure hs₂ (hresult.mono hlead₂.next)

theorem known_of_expand_eq {n : TypeVar} {param result : Ty} {r : Range} (ht : t.Known n)
    (h : t.expand = .func param result r) : param.Known n ∧ result.Known n := by
  have hsimple := ht.simple.expand
  have hbelow : ∀ v ∈ t.expand.freeVars, v < n := fun v hv =>
    ht.below v (ht.simple.mem_freeVars_of_expand hv)
  rw [h] at hsimple hbelow
  cases hsimple with
  | func _ hp hq =>
      exact ⟨⟨hp, fun v hv => hbelow v (by simp [hv])⟩, ⟨hq, fun v hv => hbelow v (by simp [hv])⟩⟩

theorem keeps_applyType {func arg : Ty} (hs : s.Wf) (hf : func.Known s.next)
    (ha : arg.Known s.next) (funcRange argRange range : Range) :
    Keeps (applyType func arg funcRange argRange range) o s fun t s' => t.Known s'.next := by
  refine ((idles_resolve hs hf).keeps hs).bind fun func' s₁ _ hs₁ hf' => ?_
  obtain ⟨rfl, hf'⟩ := hf'
  split
  · next param result r heq =>
      obtain ⟨hp, hr⟩ := known_of_expand_eq hf' heq
      exact (keeps_unify hs₁ hp ha argRange).bind
        fun _ s₂ hlead hs₂ _ => .pure hs₂ ((hr.mono hlead.next).withRange range)
  · exact keeps_applyUnknown hs₁ hf ha funcRange range

theorem idles_checkCoverage (arms : List (CoreArm Core)) (ranges : List Range) (range : Range) :
    Idles (checkCoverage arms ranges range) o s fun _ _ => True := by
  refine idles_get.bind fun _ s₁ _ _ => ?_
  refine (idles_forM fun _ _ _ _ => idles_warn _).bind fun _ s₂ _ _ => ?_
  split
  · exact .pure trivial
  · refine Idles.bind (Q := fun _ _ => True) ⟨.refl s₂, trivial⟩ fun options s₃ _ _ => ?_
    split
    · exact idles_fail (by simp) _
    · exact idles_warn _

theorem keeps_letScheme (hs : s.Wf) (value : Expr) (ht : t.Known s.next) (env : TypeEnv) :
    Keeps (letScheme value t env) o s fun scheme s' => scheme.Scheme s'.next := by
  unfold letScheme
  split
  · exact (idles_generalize hs ht env).keeps hs
  · exact .pure hs (.plain ht)

mutual

theorem keeps_infer {s : CheckState} {env : TypeEnv} (hs : s.Wf) (henv : TypeEnv.Known s.next env)
    (e : Expr) : Keeps (infer env e) o s fun r s' => r.2.Known s'.next := by
  match e with
  | .literal v range => exact .pure hs (known_literalType _ v range)
  | .var name =>
      rw [infer]
      split
      · next scheme hscheme =>
          refine (keeps_instantiate hs (henv _ (Fields.mem_of_get? hscheme)) name.range).bind
            fun t s₁ _ hs₁ ht => .pure hs₁ ht
      · exact (idles_fail (by simp) _).keeps hs
  | .lambda param body range =>
      refine ((idles_fresh param.range).keeps hs).bind fun t s₁ hlead hs₁ ht => ?_
      refine (keeps_infer hs₁ ((henv.mono hlead.next).insert (.plain ht) param.text) body).bind
        fun r s₂ hlead₂ hs₂ hr => .pure hs₂ ((ht.mono hlead₂.next).func hr range)
  | .apply func arg range =>
      refine (keeps_infer hs henv func).bind fun f s₁ hlead hs₁ hf => ?_
      refine (keeps_infer hs₁ (henv.mono hlead.next) arg).bind fun a s₂ hlead₂ hs₂ ha => ?_
      exact (keeps_applyType hs₂ (hf.mono hlead₂.next) ha _ _ range).bind
        fun t s₃ _ hs₃ ht => .pure hs₃ ht
  | .letIn name value body _ =>
      refine (keeps_infer hs henv value).bind fun r s₁ hlead hs₁ hr => ?_
      refine (keeps_letScheme hs₁ value hr env).bind fun scheme s₂ hlead₂ hs₂ hscheme => ?_
      exact (keeps_infer hs₂ ((henv.mono (hlead.trans hlead₂).next).insert hscheme name.text)
        body).bind fun r s₃ _ hs₃ hr => .pure hs₃ hr
  | .letRec bindings body _ =>
      refine ((idles_placeholders bindings).keeps hs).bind fun names s₁ hlead hs₁ hnames => ?_
      have htypes : ∀ t ∈ names.map (·.2), t.Known s₁.next := by
        intro t ht
        obtain ⟨p, hp, rfl⟩ := List.mem_map.1 ht
        exact hnames p hp
      refine (keeps_inferBindings hs₁ (known_extendEnv (henv.mono hlead.next)
        fun p hp => .plain (hnames p hp)) htypes bindings).bind fun values s₂ hlead₂ hs₂ _ => ?_
      have hschemes : Idles (names.mapM fun (name, t) => return (name, ← generalize t env)) o s₂
          fun schemes s' => schemes.length = names.length ∧ ∀ p ∈ schemes, p.2.Scheme s'.next := by
        refine idles_mapM (P := fun (p : String × Ty) s' => p.2.Scheme s'.next)
          (fun p s s' hp hidle => hp.mono hidle.next) fun p hp s₃ hidle => ?_
        exact (idles_generalize (hs₂.of_idle hidle)
          ((hnames p hp).mono (hlead₂.next.trans hidle.next)) env).bind
          fun scheme s₄ _ hscheme => .pure hscheme
      refine (hschemes.keeps hs₂).bind fun schemes s₃ hlead₃ hs₃ hschemes => ?_
      exact (keeps_infer hs₃ (known_extendEnv
        (henv.mono ((hlead.trans hlead₂).trans hlead₃).next) hschemes.2) body).bind
        fun r s₄ _ hs₄ hr => .pure hs₄ hr
  | .ifElse cond yes no _ =>
      refine (keeps_infer hs henv cond).bind fun c s₁ hlead₁ hs₁ hc => ?_
      refine (keeps_unify hs₁ (.base .bool cond.range) hc cond.range).bind
        fun _ s₂ hlead₂ hs₂ _ => ?_
      have henv₂ := henv.mono (hlead₁.trans hlead₂).next
      refine (keeps_infer hs₂ henv₂ yes).bind fun y s₃ hlead₃ hs₃ hy => ?_
      refine (keeps_infer hs₃ (henv₂.mono hlead₃.next) no).bind fun n s₄ hlead₄ hs₄ hn => ?_
      exact (keeps_unify hs₄ (hy.mono hlead₄.next) hn no.range).bind
        fun _ s₅ hlead₅ hs₅ _ => .pure hs₅ (hy.mono (hlead₄.trans hlead₅).next)
  | .list items range =>
      refine ((idles_fresh range).keeps hs).bind fun elem s₁ hlead hs₁ helem => ?_
      exact (keeps_inferAll hs₁ (henv.mono hlead.next) helem items).bind
        fun _ s₂ hlead₂ hs₂ _ => .pure hs₂ ((helem.mono hlead₂.next).list range)
  | .tuple items range =>
      exact (keeps_inferEach hs henv items).bind
        fun r s₁ _ hs₁ hr => .pure hs₁ (.product hr range)
  | .record fields range =>
      exact (keeps_inferFields hs henv Fields.sorted_nil (by simp) fields).bind
        fun r s₁ _ hs₁ hr => .pure hs₁ (.record hr.1 hr.2 range)
  | .field base name range =>
      refine (keeps_infer hs henv base).bind fun b s₁ hlead₁ hs₁ hb => ?_
      refine ((idles_fresh name.range).keeps hs₁).bind fun t s₂ hlead₂ hs₂ ht => ?_
      have hkind : (Kind.record [(name.text, t)]).Known s₂.next :=
        ⟨⟨by simp [Kind.fields, Fields.Sorted, Fields.names], by simpa [Kind.fields] using ht.simple⟩,
          by simpa [Kind.fields] using ht.below⟩
      refine (keeps_freshKinded hs₂ hkind range).bind fun record s₃ hlead₃ hs₃ hrecord => ?_
      obtain ⟨rfl, rfl⟩ := hrecord
      refine (keeps_unify hs₃ (.var (by rw [CheckState.next_give]; exact Nat.lt_succ_self _) range)
        (hb.mono (hlead₂.trans hlead₃).next) base.range).bind fun _ s₄ hlead₄ hs₄ _ => ?_
      exact .pure hs₄ (ht.mono (hlead₃.trans hlead₄).next)
  | .update base fields range =>
      refine (keeps_infer hs henv base).bind fun b s₁ hlead₁ hs₁ hb => ?_
      refine (keeps_inferFields hs₁ (henv.mono hlead₁.next) Fields.sorted_nil
        (by simp) fields).bind fun r s₂ hlead₂ hs₂ hr => ?_
      have hkind : (Kind.record r.2).Known s₂.next :=
        ⟨⟨hr.1, fun p hp => (hr.2 p hp).simple⟩, fun p hp => (hr.2 p hp).below⟩
      refine (keeps_freshKinded hs₂ hkind range).bind fun record s₃ hlead₃ hs₃ hrecord => ?_
      obtain ⟨rfl, rfl⟩ := hrecord
      refine (keeps_unify hs₃ (.var (by rw [CheckState.next_give]; exact Nat.lt_succ_self _) range)
        (hb.mono (hlead₂.trans hlead₃).next) base.range).bind fun _ s₄ hlead₄ hs₄ _ => ?_
      exact .pure hs₄ (hb.mono ((hlead₂.trans hlead₃).trans hlead₄).next)
  | .construct ctor arg range =>
      refine ((idles_instantiateConstructor hs.variants.toWf ctor).keeps hs).bind
        fun (variant, types) s₁ hlead hs₁ ⟨hvariant, htypes⟩ => ?_
      refine (keeps_inferArgs hs₁ (henv.mono hlead.next) htypes
        ((idles_fail (by simp) range).keeps hs₁) arg).bind
        fun args s₂ hlead₂ hs₂ _ => .pure hs₂ ((hvariant.mono hlead₂.next).withRange range)
  | .caseOf scrutinee arms range =>
      refine (keeps_infer hs henv scrutinee).bind fun r s₁ hlead₁ hs₁ hr => ?_
      refine ((idles_fresh range).keeps hs₁).bind fun result s₂ hlead₂ hs₂ hresult => ?_
      refine (keeps_inferArms hs₂ (henv.mono (hlead₁.trans hlead₂).next) (hr.mono hlead₂.next)
        hresult arms).bind fun coreArms s₃ hlead₃ hs₃ _ => ?_
      exact ((idles_checkCoverage coreArms _ range).keeps hs₃).bind
        fun _ s₄ hlead₄ hs₄ _ => .pure hs₄ (hresult.mono (hlead₃.trans hlead₄).next)
  | .ref value range =>
      exact (keeps_infer hs henv value).bind fun r s₁ _ hs₁ hr => .pure hs₁ (hr.ref range)
  | .deref target range =>
      refine (keeps_infer hs henv target).bind fun r s₁ hlead₁ hs₁ hr => ?_
      refine ((idles_fresh range).keeps hs₁).bind fun content s₂ hlead₂ hs₂ hcontent => ?_
      exact (keeps_unify hs₂ (hcontent.ref target.range) (hr.mono hlead₂.next) target.range).bind
        fun _ s₃ hlead₃ hs₃ _ => .pure hs₃ (hcontent.mono hlead₃.next)
  | .assign target value range =>
      refine (keeps_infer hs henv target).bind fun r s₁ hlead₁ hs₁ hr => ?_
      refine (keeps_infer hs₁ (henv.mono hlead₁.next) value).bind fun v s₂ hlead₂ hs₂ hv => ?_
      refine ((idles_fresh range).keeps hs₂).bind fun content s₃ hlead₃ hs₃ hcontent => ?_
      refine (keeps_unify hs₃ (hcontent.ref target.range) (hr.mono (hlead₂.trans hlead₃).next)
        target.range).bind fun _ s₄ hlead₄ hs₄ _ => ?_
      exact (keeps_unify hs₄ (hcontent.mono hlead₄.next) (hv.mono (hlead₃.trans hlead₄).next)
        value.range).bind fun _ s₅ _ hs₅ _ => .pure hs₅ (.base .unit range)
  | .sequence first second _ =>
      refine (keeps_infer hs henv first).bind fun r s₁ hlead₁ hs₁ hr => ?_
      refine (keeps_unify hs₁ (.base .unit first.range) hr first.range).bind
        fun _ s₂ hlead₂ hs₂ _ => ?_
      exact (keeps_infer hs₂ (henv.mono (hlead₁.trans hlead₂).next) second).bind
        fun r s₃ _ hs₃ hr => .pure hs₃ hr
  | .annot body type _ =>
      refine (keeps_infer hs henv body).bind fun r s₁ hlead₁ hs₁ hr => ?_
      refine ((idles_annotated hs₁.variants.toWf type).keeps hs₁).bind fun t s₂ hlead₂ hs₂ ht => ?_
      exact (keeps_unify hs₂ ht (hr.mono hlead₂.next) body.range).bind
        fun _ s₃ hlead₃ hs₃ _ => .pure hs₃ (ht.mono hlead₃.next)

theorem keeps_inferAll {s : CheckState} {env : TypeEnv} {elem : Ty} (hs : s.Wf)
    (henv : TypeEnv.Known s.next env) (helem : elem.Known s.next) (es : List Expr) :
    Keeps (inferAll env elem es) o s fun _ _ => True := by
  match es with
  | [] => exact .pure hs trivial
  | e :: es =>
      refine (keeps_infer hs henv e).bind fun r s₁ hlead₁ hs₁ hr => ?_
      refine (keeps_unify hs₁ (helem.mono hlead₁.next) hr e.range).bind
        fun _ s₂ hlead₂ hs₂ _ => ?_
      have hlead := (hlead₁.trans hlead₂).next
      exact (keeps_inferAll hs₂ (henv.mono hlead) (helem.mono hlead) es).bind
        fun _ s₃ _ hs₃ _ => .pure hs₃ trivial

theorem keeps_inferEach {s : CheckState} {env : TypeEnv} (hs : s.Wf)
    (henv : TypeEnv.Known s.next env) (es : List Expr) :
    Keeps (inferEach env es) o s fun r s' => ∀ t ∈ r.2, t.Known s'.next := by
  match es with
  | [] => exact .pure hs (by simp)
  | e :: es =>
      refine (keeps_infer hs henv e).bind fun r s₁ hlead₁ hs₁ hr => ?_
      refine (keeps_inferEach hs₁ (henv.mono hlead₁.next) es).bind
        fun rs s₂ hlead₂ hs₂ hrs => .pure hs₂ fun t ht => ?_
      rcases List.mem_cons.1 ht with rfl | ht
      · exact hr.mono hlead₂.next
      · exact hrs t ht

theorem keeps_inferAgainst {s : CheckState} {env : TypeEnv} {types : List Ty} (hs : s.Wf)
    (henv : TypeEnv.Known s.next env) (htypes : ∀ t ∈ types, t.Known s.next) (es : List Expr) :
    Keeps (inferAgainst env types es) o s fun _ _ => True := by
  match es with
  | [] => exact .pure hs trivial
  | e :: es =>
      match types with
      | [] => exact .pure hs trivial
      | type :: types =>
          refine (keeps_infer hs henv e).bind fun r s₁ hlead₁ hs₁ hr => ?_
          refine (keeps_unify hs₁ ((htypes type List.mem_cons_self).mono hlead₁.next) hr
            e.range).bind fun _ s₂ hlead₂ hs₂ _ => ?_
          have hlead := (hlead₁.trans hlead₂).next
          exact (keeps_inferAgainst hs₂ (henv.mono hlead)
            (fun t ht => (htypes t (List.mem_cons_of_mem _ ht)).mono hlead) es).bind
            fun _ s₃ _ hs₃ _ => .pure hs₃ trivial

theorem keeps_inferArgs {s : CheckState} {env : TypeEnv} {types : List Ty}
    {wrongArity : Check (List Core)} (hs : s.Wf) (henv : TypeEnv.Known s.next env)
    (htypes : ∀ t ∈ types, t.Known s.next) (harity : Keeps wrongArity o s fun _ _ => True)
    (arg : Option Expr) : Keeps (inferArgs env types wrongArity arg) o s fun _ _ => True := by
  match arg with
  | none =>
      rw [inferArgs]
      split
      · exact .pure hs trivial
      · exact harity
  | some arg =>
      match types with
      | [] => exact harity
      | [type] =>
          refine (keeps_infer hs henv arg).bind fun r s₁ hlead₁ hs₁ hr => ?_
          exact (keeps_unify hs₁ ((htypes type List.mem_cons_self).mono hlead₁.next) hr
            arg.range).bind fun _ s₂ _ hs₂ _ => .pure hs₂ trivial
      | type :: type' :: types =>
          match arg with
          | .tuple items _ =>
              rw [inferArgs]
              rotate_left
              · simp
              · simp
              split
              · exact keeps_inferAgainst hs henv htypes items
              · exact harity
          | .literal _ _ | .var _ | .lambda _ _ _ | .apply _ _ _ | .letIn _ _ _ _
          | .letRec _ _ _ | .ifElse _ _ _ _ | .list _ _ | .record _ _ | .field _ _ _
          | .update _ _ _ | .construct _ _ _ | .caseOf _ _ _ | .ref _ _ | .deref _ _
          | .assign _ _ _ | .sequence _ _ _ | .annot _ _ _ => exact harity

theorem keeps_inferFields {s : CheckState} {env : TypeEnv} {before : List (String × Ty)}
    (hs : s.Wf) (henv : TypeEnv.Known s.next env) (hsorted : Fields.Sorted before)
    (hbefore : ∀ p ∈ before, p.2.Known s.next) (fields : List (Ident × Expr)) :
    Keeps (inferFields env before fields) o s fun r s' =>
      Fields.Sorted r.2 ∧ ∀ p ∈ r.2, p.2.Known s'.next := by
  match fields with
  | [] => exact .pure hs ⟨hsorted, hbefore⟩
  | (name, value) :: fields =>
      refine (keeps_infer hs henv value).bind fun r s₁ hlead₁ hs₁ hr => ?_
      obtain ⟨core, t⟩ := r
      dsimp only
      split
      · exact (idles_fail (by simp) _).keeps hs₁
      · have hinsert : ∀ p ∈ Fields.insert name.text t before, p.2.Known s₁.next := by
          rintro ⟨other, u⟩ hp
          rcases Fields.mem_insert hp with heq | hp
          · obtain ⟨-, rfl⟩ := Prod.mk.inj heq
            exact hr
          · exact (hbefore _ hp).mono hlead₁.next
        exact (keeps_inferFields hs₁ (henv.mono hlead₁.next)
          (Fields.sorted_insert hsorted name.text t) hinsert fields).bind
          fun r s₂ _ hs₂ hr => .pure hs₂ hr

theorem keeps_inferBindings {s : CheckState} {env : TypeEnv} {types : List Ty} (hs : s.Wf)
    (henv : TypeEnv.Known s.next env) (htypes : ∀ t ∈ types, t.Known s.next)
    (bindings : List (RecBinding Expr)) :
    Keeps (inferBindings env types bindings) o s fun _ _ => True := by
  match bindings with
  | [] => exact .pure hs trivial
  | ⟨_, value, range⟩ :: bindings =>
      match types with
      | [] => exact .pure hs trivial
      | type :: types =>
          refine (keeps_infer hs henv value).bind fun r s₁ hlead₁ hs₁ hr => ?_
          refine (keeps_unify hs₁ ((htypes type List.mem_cons_self).mono hlead₁.next) hr
            range).bind fun _ s₂ hlead₂ hs₂ _ => ?_
          have hlead := (hlead₁.trans hlead₂).next
          exact (keeps_inferBindings hs₂ (henv.mono hlead)
            (fun t ht => (htypes t (List.mem_cons_of_mem _ ht)).mono hlead) bindings).bind
            fun _ s₃ _ hs₃ _ => .pure hs₃ trivial

theorem keeps_inferArms {s : CheckState} {env : TypeEnv} {scrutinee result : Ty} (hs : s.Wf)
    (henv : TypeEnv.Known s.next env) (hscrutinee : scrutinee.Known s.next)
    (hresult : result.Known s.next) (arms : List (MatchArm Expr)) :
    Keeps (inferArms env scrutinee result arms) o s fun _ _ => True := by
  match arms with
  | [] => exact .pure hs trivial
  | ⟨pat, body, _⟩ :: arms =>
      refine (keeps_pattern hs hscrutinee (List.forall_mem_nil _) pat).bind
        fun r s₁ hlead₁ hs₁ hr => ?_
      refine (keeps_infer hs₁ (known_extendEnv (henv.mono hlead₁.next)
        fun p hp => .plain (hr p hp)) body).bind fun b s₂ hlead₂ hs₂ hb => ?_
      refine (keeps_unify hs₂ (hresult.mono (hlead₁.trans hlead₂).next) hb body.range).bind
        fun _ s₃ hlead₃ hs₃ _ => ?_
      have hlead := ((hlead₁.trans hlead₂).trans hlead₃).next
      exact (keeps_inferArms hs₃ (henv.mono hlead) (hscrutinee.mono hlead) (hresult.mono hlead)
        arms).bind fun _ s₄ _ hs₄ _ => .pure hs₄ trivial

end

end FieldML.Check
