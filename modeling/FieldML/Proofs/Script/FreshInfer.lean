import FieldML.Proofs.Check.Exhaustiveness
import FieldML.Proofs.Check.Infer
import FieldML.Proofs.Check.Basic
import FieldML.Proofs.Script.Counter
import FieldML.Proofs.Script.FreshDeclare

/-!
# New variables in patterns and expressions

What patterns and expressions ask for is sound in every state that is as it should be: a kind is
given to a variable that has none, and the parameters of a constructor give way to new variables.
-/

namespace FieldML.Check

open Script CheckState

variable {α β : Type} {o : CheckOptions} {s : CheckState} {ts : List Ty} {env : TypeEnv} {t : Ty}

theorem tracks_openQuantifiers (range : Range) (i : Nat) (hs : s.Ready ts)
    (hi : quantifiers t = i) (ht : t.Scheme s.next) :
    Tracks (Script.openQuantifiers range i t) o s ts fun t' s' => t'.Known s'.next := by
  suffices h : Tracks (Script.openQuantifiers range i t) o s ts fun _ _ => True from
    h.keeps (keeps_openQuantifiers range i hi hs.wf ht)
  induction i generalizing t s ts with
  | zero => exact .pure hs trivial
  | succ i ih =>
      refine .holding hs (List.forall_mem_singleton.2 ht) (fun _ _ _ => List.forall_mem_nil _)
        fun hs => ?_
      cases ht with
      | plain ht => simp [quantifiers_eq_zero ht.simple] at hi
      | @all v k t r hv hk ht =>
          refine (tracks_freshKinded hs hk range).bind ?_
          rintro _ _ ts₁ hlead hs₁ ⟨rfl, rfl⟩
          have ht₁ := ht.mono hlead.next
          have hvar : (Ty.var s.next range).Known (s.give k).next :=
            .var (by rw [CheckState.next_give]; exact Nat.lt_succ_self _) range
          exact ih hs₁ ((quantifiers_mapVars ht₁ hvar).trans (by simpa [quantifiers] using hi))
            (ht₁.mapVars_single hvar)

theorem tracks_instantiate (hs : s.Ready ts) (ht : t.Scheme s.next) (range : Range) :
    Tracks (Script.instantiate t range) o s ts fun t' s' => t'.Known s'.next :=
  .holding hs (List.forall_mem_singleton.2 ht) (fun _ _ => known_singleton) fun hs =>
    (tracks_openQuantifiers range _ hs rfl ht).bind fun _ _ _ _ hs₁ ht₁ =>
      .pure hs₁ (ht₁.withRange range)

theorem tracks_freshEach (hs : s.Ready ts) {f : α → Range} (l : List α) :
    Tracks (Script.mapM (fun a => Script.fresh (f a)) l) o s ts fun types s' =>
      types = newVars s.next (l.map f) ∧ ∀ t ∈ types, t.Known s'.next := by
  have hnew : Idles (l.mapM fun a => fresh (f a)) o s fun types _ =>
      types = newVars s.next (l.map f) := by
    unfold Idles
    rw [mapM_fresh_apply]
    exact ⟨idle_skip s _, rfl⟩
  have hcalls := tracks_mapM (o := o) (x := fun a => Script.fresh (f a)) (l := l)
    (I := fun types s' => ∀ t ∈ types, t.Known s'.next) hs (List.forall_mem_nil _)
    fun a _ types s₁ ts₁ _ hs₁ htypes => (tracks_fresh hs₁ (f a)).mono fun t s₂ hlead ht =>
      List.forall_mem_cons.2 ⟨ht, fun u hu => (htypes u hu).mono hlead.next⟩
  exact (hcalls.and (hnew.keeps hs.wf)).mono fun types s' _ ⟨hall, heq⟩ =>
    ⟨heq, fun t ht => hall t (List.mem_reverse.2 ht)⟩

/-! ### Patterns -/

theorem tracks_bindName (hs : s.Ready ts) {bindings : PatternBindings} (name : Ident)
    (ht : t.Known s.next) (hb : ∀ q ∈ bindings, q.2.Known s.next) :
    Tracks (Script.bindName bindings name t) o s ts fun bs s' => ∀ q ∈ bs, q.2.Known s'.next :=
  Tracks.keeps (.ite (fun _ => tracks_fail hs (by simp) (by simp)) fun _ => .pure hs trivial)
    ((idles_bindName ht hb name).keeps hs.wf)

/-- The parameters of a constructor were handed out before the variables that take their place. -/
theorem tracks_instantiateConstructor (hs : s.Ready ts) (ctor : Ident) :
    Tracks (Script.instantiateConstructor ctor) o s ts fun r s' =>
      r.1.Known s'.next ∧ ∀ t ∈ r.2, t.Known s'.next := by
  refine .holding hs (List.forall_mem_nil _) (fun r s' h => ?_) fun hs => Tracks.keeps ?_
    ((idles_instantiateConstructor hs.wf.variants.toWf ctor).keeps hs.wf)
  · exact List.forall_mem_cons.2 ⟨.plain h.1, fun t ht => .plain (h.2 t ht)⟩
  · refine (tracks_get hs).bind ?_
    rintro a s ts₁ - hs₁ ⟨rfl, rfl⟩
    have hlookup : Idles (liftVariant (s.variants.lookupConstructor ctor.text ctor.range)) o s
        fun c s' => s' = s ∧ s.variants.constructor? ctor.text = some c := by
      refine idles_liftVariant fun c hc => ⟨rfl, ?_⟩
      unfold VariantEnv.lookupConstructor at hc
      split at hc
      · next hfind => exact Except.ok.inj hc ▸ hfind
      · cases hc
    refine (tracks_call (c := .lookupConstructor s.variants ctor) hs₁ trivial trivial
      (hlookup.keeps hs.wf)).bind ?_
    rintro c s ts₂ - hs₂ ⟨rfl, hc⟩
    refine (tracks_freshEach hs₂ c.params).bind ?_
    rintro typeArgs s₃ ts₃ - hs₃ ⟨rfl, htypes⟩
    have hapart : ApartFrom c.params (newVars s.next (c.params.map fun _ => ctor.range)) := by
      intro u hu v hv hmem
      obtain ⟨w, r, rfl, hle, -⟩ := mem_newVars hu
      have hlt := (hs.wf.variants.params ctor.text c hc).2 v hv
      obtain rfl : v = w := by simpa [Ty.allVars] using hmem
      exact absurd hlt (Nat.not_lt.2 hle)
    refine tracks_call hs₃ trivial ⟨hapart, List.map_congr_left fun t ht => ?_⟩
      ((Idles.pure trivial).keeps hs₃.wf)
    exact ((hs.wf.variants.args ctor.text c hc t ht).1).instantiateParams_eq
      (fun u hu => (htypes u hu).simple) hapart

mutual

theorem tracks_pattern {s : CheckState} {ts : List Ty} {t : Ty} {bindings : PatternBindings}
    (hs : s.Ready ts) (ht : t.Known s.next) (hb : ∀ q ∈ bindings, q.2.Known s.next) (p : Pattern) :
    Tracks (Script.pattern t bindings p) o s ts fun r s' => ∀ q ∈ r.2, q.2.Known s'.next := by
  unfold Script.pattern
  refine .holding hs (known_singleton ht) (fun r s' hr u hu => ?_) fun hs =>
    Tracks.keeps ?_ (keeps_pattern hs.wf ht hb p)
  · obtain ⟨q, hq, rfl⟩ := List.mem_map.1 hu
    exact .plain (hr q hq)
  match p with
  | .wildcard _ => exact .pure hs trivial
  | .var name =>
      exact (tracks_bindName hs name ht hb).bind fun _ _ _ _ hs₁ _ => .pure hs₁ trivial
  | .literal v range =>
      exact (tracks_unify hs ht (known_literalType _ v range) range).bind
        fun _ _ _ _ hs₁ _ => .pure hs₁ trivial
  | .tuple items range =>
      refine (tracks_freshEach hs items).bind fun types s₁ ts₁ hlead hs₁ ⟨_, htypes⟩ => ?_
      refine (tracks_unify hs₁ (ht.mono hlead.next) (.product htypes range) range).bind
        fun _ s₂ ts₂ hlead₂ hs₂ _ => ?_
      exact (tracks_patterns hs₂ (fun t ht => (htypes t ht).mono hlead₂.next)
        (fun q hq => (hb q hq).mono (hlead.trans hlead₂).next) items).bind
        fun _ _ _ _ hs₃ _ => .pure hs₃ trivial
  | .nil range =>
      refine (tracks_fresh hs range).bind fun elem s₁ ts₁ hlead hs₁ helem => ?_
      exact (tracks_unify hs₁ (ht.mono hlead.next) (helem.list range) range).bind
        fun _ _ _ _ hs₂ _ => .pure hs₂ trivial
  | .cons head tail range =>
      refine (tracks_fresh hs head.range).bind fun elem s₁ ts₁ hlead hs₁ helem => ?_
      have hlist := helem.list range
      refine (tracks_unify hs₁ (ht.mono hlead.next) hlist range).bind
        fun _ s₂ ts₂ hlead₂ hs₂ _ => ?_
      refine (tracks_pattern hs₂ (helem.mono hlead₂.next)
        (fun q hq => (hb q hq).mono (hlead.trans hlead₂).next) head).bind
        fun r s₃ ts₃ hlead₃ hs₃ hr => ?_
      exact (tracks_pattern hs₃ (hlist.mono (hlead₂.trans hlead₃).next) hr tail).bind
        fun _ _ _ _ hs₄ _ => .pure hs₄ trivial
  | .construct ctor arg range =>
      refine Tracks.ofEq ((tracks_instantiateConstructor hs ctor).bind ?_)
      rintro ⟨variant, types⟩ s₁ ts₁ hlead hs₁ ⟨hvariant, htypes⟩
      refine (tracks_unify hs₁ (ht.mono hlead.next) hvariant range).bind
        fun _ s₂ ts₂ hlead₂ hs₂ _ => ?_
      exact tracks_patternArgs hs₂ ctor (fun t ht => (htypes t ht).mono hlead₂.next)
        (fun q hq => (hb q hq).mono (hlead.trans hlead₂).next) range arg
  | .alias inner name _ =>
      refine (tracks_pattern hs ht hb inner).bind fun r s₁ ts₁ hlead hs₁ hr => ?_
      exact (tracks_bindName hs₁ name (ht.mono hlead.next) hr).bind
        fun _ _ _ _ hs₂ _ => .pure hs₂ trivial

theorem tracks_patternArgs {s : CheckState} {ts types : List Ty} {bindings : PatternBindings}
    (hs : s.Ready ts) (ctor : Ident) (htypes : ∀ t ∈ types, t.Known s.next)
    (hb : ∀ q ∈ bindings, q.2.Known s.next) (range : Range) (arg : Option Pattern) :
    Tracks (Script.patternArgs ctor types bindings range arg) o s ts fun _ _ => True := by
  unfold Script.patternArgs
  match arg with
  | none => exact .ite (fun _ => .pure hs trivial) fun _ => tracks_fail hs (by simp) (by simp)
  | some arg =>
      match types with
      | [] => exact tracks_fail hs (by simp) (by simp)
      | [type] =>
          exact (tracks_pattern hs (htypes type List.mem_cons_self) hb arg).bind
            fun _ _ _ _ hs₁ _ => .pure hs₁ trivial
      | type :: type' :: types =>
          match arg with
          | .wildcard _ => exact .pure hs trivial
          | .tuple items _ =>
              refine .ite (fun _ => ?_) fun _ => tracks_fail hs (by simp) (by simp)
              exact (tracks_patterns hs htypes hb items).bind fun _ _ _ _ hs₁ _ => .pure hs₁ trivial
          | .var _ | .literal _ _ | .nil _ | .cons _ _ _ | .construct _ _ _ | .alias _ _ _ =>
              exact tracks_fail hs (by simp) (by simp)

theorem tracks_patterns {s : CheckState} {ts us : List Ty} {bindings : PatternBindings}
    (hs : s.Ready ts) (hus : ∀ t ∈ us, t.Known s.next) (hb : ∀ q ∈ bindings, q.2.Known s.next)
    (ps : List Pattern) :
    Tracks (Script.patterns us bindings ps) o s ts fun _ _ => True := by
  match ps with
  | [] => exact .pure hs trivial
  | p :: ps =>
      match us with
      | [] => exact .pure hs trivial
      | u :: us =>
          refine (tracks_pattern hs (hus u List.mem_cons_self) hb p).bind
            fun r s₁ ts₁ hlead hs₁ hr => ?_
          exact (tracks_patterns hs₁
            (fun u hu => (hus u (List.mem_cons_of_mem _ hu)).mono hlead.next) hr ps).bind
            fun _ _ _ _ hs₂ _ => .pure hs₂ trivial

end

/-! ### Expressions -/

theorem tracks_generalize (hs : s.Ready ts) (ht : t.Known s.next) (env : TypeEnv) :
    Tracks (Script.generalize t env) o s ts fun u s' => u.Scheme s'.next := by
  refine .holding hs (known_singleton ht) (fun u s' hu => List.forall_mem_singleton.2 hu)
    fun hs => Tracks.keeps ?_ ((idles_generalize hs.wf ht env).keeps hs.wf)
  refine (tracks_get hs).bind fun _ s₁ ts₁ _ hs₁ _ => .ite (fun _ => .pure hs₁ trivial) fun _ => ?_
  exact (tracks_report hs₁ _).bind fun _ _ _ _ hs₂ _ => .pure hs₂ trivial

theorem tracks_letScheme (hs : s.Ready ts) (value : Expr) (ht : t.Known s.next) (env : TypeEnv) :
    Tracks (Script.letScheme value t env) o s ts fun u s' => u.Scheme s'.next :=
  .ite (fun _ => tracks_generalize hs ht env) fun _ => .pure hs (.plain ht)

theorem tracks_placeholders (hs : s.Ready ts) (bindings : List (RecBinding Expr)) :
    Tracks (Script.placeholders bindings) o s ts fun names s' =>
      ∀ p ∈ names, p.2.Known s'.next := by
  refine Tracks.keeps ?_ ((idles_placeholders bindings).keeps hs.wf)
  refine (tracks_foldlM (I := fun _ _ => True) hs trivial fun found binding s₁ ts₁ hs₁ _ => ?_).bind
    fun _ _ _ _ hs₁ _ => .pure hs₁ trivial
  refine .ite (fun _ => tracks_fail hs₁ (by simp) (by simp)) fun _ => ?_
  refine .ite (fun _ => tracks_fail hs₁ (by simp) (by simp)) fun _ => ?_
  exact (tracks_fresh hs₁ _).bind fun _ _ _ _ hs₂ _ => .pure hs₂ trivial

theorem tracks_applyUnknown {func arg : Ty} (hs : s.Ready ts) (hf : func.Known s.next)
    (ha : arg.Known s.next) (funcRange range : Range) :
    Tracks (Script.applyUnknown func arg funcRange range) o s ts fun _ _ => True := by
  refine (tracks_fresh hs range).bind fun result s₁ ts₁ hlead hs₁ hresult => ?_
  exact (tracks_unify hs₁ ((ha.mono hlead.next).func hresult funcRange) (hf.mono hlead.next)
    funcRange).bind fun _ _ _ _ hs₂ _ => .pure hs₂ trivial

theorem tracks_applyType {func arg : Ty} (hs : s.Ready ts) (hf : func.Known s.next)
    (ha : arg.Known s.next) (funcRange argRange range : Range) :
    Tracks (Script.applyType func arg funcRange argRange range) o s ts
      fun t s' => t.Known s'.next := by
  refine Tracks.keeps ?_ (keeps_applyType hs.wf hf ha funcRange argRange range)
  refine (tracks_resolve hs hf).bind fun func' s₁ ts₁ hlead hs₁ hf' => ?_
  have hf₁ := hf.mono hlead.next
  have ha₁ := ha.mono hlead.next
  generalize heq : func'.expand = u
  cases u with
  | func param result r =>
      obtain ⟨hp, -⟩ := known_of_expand_eq hf' heq
      exact (tracks_unify hs₁ hp ha₁ argRange).bind fun _ _ _ _ hs₂ _ => .pure hs₂ trivial
  | base | var | list | ref | product | variant | synonym | record | all =>
      exact tracks_applyUnknown hs₁ hf₁ ha₁ funcRange range

theorem tracks_checkCoverage (hs : s.Ready ts) (arms : List (CoreArm Core)) (ranges : List Range)
    (range : Range) :
    Tracks (Script.checkCoverage arms ranges range) o s ts fun _ _ => True :=
  tracks_call hs trivial trivial ((idles_checkCoverage arms ranges range).keeps hs.wf)

/-- A record variable is made for the fields, which are known. -/
theorem tracks_unifyRecord {fs : List (String × Ty)} {found : Ty} (hs : s.Ready ts)
    (hsorted : Fields.Sorted fs) (hfs : ∀ p ∈ fs, p.2.Known s.next) (hfound : found.Known s.next)
    {range foundRange : Range} {k : Ty → Check β} {x : ∀ t, Script (k t)}
    (hx : ∀ s' ts', s'.Ready ts' → Tracks (x (.var s.next range)) o s' ts' fun _ _ => True) :
    Tracks ((Script.freshKinded (.record fs) range).bind fun record =>
      (Script.unify record found foundRange).bind fun _ => x record) o s ts fun _ _ => True := by
  have hkind : (Kind.record fs).Known s.next :=
    ⟨⟨hsorted, fun p hp => (hfs p hp).simple⟩, fun p hp => (hfs p hp).below⟩
  refine (tracks_freshKinded hs hkind range).bind ?_
  rintro _ _ ts₁ hlead hs₁ ⟨rfl, rfl⟩
  have hrecord : (Ty.var s.next range).Known (s.give (.record fs)).next :=
    .var (by rw [CheckState.next_give]; exact Nat.lt_succ_self _) range
  exact (tracks_unify hs₁ hrecord (hfound.mono hlead.next) foundRange).bind
    fun _ s₂ ts₂ _ hs₂ _ => hx s₂ ts₂ hs₂

theorem tracks_generalizeAll {names : List (String × Ty)} (hs : s.Ready ts)
    (hnames : ∀ p ∈ names, p.2.Known s.next) (env : TypeEnv) :
    Tracks (Script.generalizeAll names env) o s ts
      fun schemes s' => ∀ p ∈ schemes, p.2.Scheme s'.next := by
  have hstep : ∀ b ∈ names, ∀ (schemes : List (String × Ty)) s₁ ts₁, s.Leads s₁ → s₁.Ready ts₁ →
      (∀ p ∈ schemes, p.2.Scheme s₁.next) →
      Tracks ((Script.generalize b.2 env).bind fun u => Script.pure (b.1, u)) o s₁ ts₁
        fun r s' => ∀ p ∈ r :: schemes, p.2.Scheme s'.next := by
    intro b hb schemes s₁ ts₁ hlead hs₁ hschemes
    refine (tracks_generalize hs₁ ((hnames b hb).mono hlead.next) env).bind
      fun u s₂ ts₂ hlead₂ hs₂ hu => .pure hs₂ (List.forall_mem_cons.2 ⟨hu, fun p hp => ?_⟩)
    exact (hschemes p hp).mono hlead₂.next
  have hall := tracks_mapM (I := fun (schemes : List (String × Ty)) s' =>
    ∀ p ∈ schemes, p.2.Scheme s'.next) hs
    (List.forall_mem_nil _) hstep
  exact hall.mono fun schemes s' _ hall p hp => hall p (List.mem_reverse.2 hp)

theorem tracks_named {found : Option Ty} (hs : s.Ready ts) (name : Ident)
    (hfound : ∀ scheme, found = some scheme → scheme.Scheme s.next) :
    Tracks (Script.named name found) o s ts fun _ _ => True := by
  cases found with
  | some scheme =>
      exact (tracks_instantiate hs (hfound scheme rfl) name.range).bind
        fun _ _ _ _ hs₁ _ => .pure hs₁ trivial
  | none => exact tracks_fail hs (by simp) (by simp)

mutual

theorem tracks_infer {s : CheckState} {ts : List Ty} {env : TypeEnv} (hs : s.Ready ts)
    (henv : TypeEnv.Known s.next env) (e : Expr) :
    Tracks (Script.infer env e) o s ts fun r s' => r.2.Known s'.next := by
  unfold Script.infer
  refine .holding hs (fun t ht => ?_) (fun r s' hr => known_singleton hr) fun hs =>
    Tracks.keeps ?_ (keeps_infer hs.wf henv e)
  · obtain ⟨p, hp, rfl⟩ := List.mem_map.1 ht
    exact henv p hp
  match e with
  | .literal v range => exact .pure hs trivial
  | .var name =>
      exact tracks_named hs name fun scheme hget => henv _ (Fields.mem_of_get? hget)
  | .lambda param body range =>
      refine (tracks_fresh hs param.range).bind fun t s₁ ts₁ hlead hs₁ ht => ?_
      exact (tracks_infer hs₁ ((henv.mono hlead.next).insert (.plain ht) param.text) body).bind
        fun _ _ _ _ hs₂ _ => .pure hs₂ trivial
  | .apply func arg range =>
      refine (tracks_infer hs henv func).bind fun f s₁ ts₁ hlead hs₁ hf => ?_
      refine (tracks_infer hs₁ (henv.mono hlead.next) arg).bind fun a s₂ ts₂ hlead₂ hs₂ ha => ?_
      exact (tracks_applyType hs₂ (hf.mono hlead₂.next) ha _ _ range).bind
        fun _ _ _ _ hs₃ _ => .pure hs₃ trivial
  | .letIn name value body _ =>
      refine (tracks_infer hs henv value).bind fun r s₁ ts₁ hlead hs₁ hr => ?_
      refine (tracks_letScheme hs₁ value hr env).bind fun scheme s₂ ts₂ hlead₂ hs₂ hscheme => ?_
      exact (tracks_infer hs₂ ((henv.mono (hlead.trans hlead₂).next).insert hscheme name.text)
        body).bind fun _ _ _ _ hs₃ _ => .pure hs₃ trivial
  | .letRec bindings body _ =>
      refine (tracks_placeholders hs bindings).bind fun names s₁ ts₁ hlead hs₁ hnames => ?_
      have htypes : ∀ t ∈ names.map (·.2), t.Known s₁.next := by
        intro t ht
        obtain ⟨p, hp, rfl⟩ := List.mem_map.1 ht
        exact hnames p hp
      refine (tracks_inferBindings hs₁ (known_extendEnv (henv.mono hlead.next)
        fun p hp => .plain (hnames p hp)) htypes bindings).bind
        fun values s₂ ts₂ hlead₂ hs₂ _ => ?_
      refine (tracks_generalizeAll hs₂ (fun p hp => (hnames p hp).mono hlead₂.next) env).bind
        fun schemes s₃ ts₃ hlead₃ hs₃ hschemes => ?_
      exact (tracks_infer hs₃ (known_extendEnv (henv.mono ((hlead.trans hlead₂).trans hlead₃).next)
        hschemes) body).bind fun _ _ _ _ hs₄ _ => .pure hs₄ trivial
  | .ifElse cond yes no _ =>
      refine (tracks_infer hs henv cond).bind fun c s₁ ts₁ hlead₁ hs₁ hc => ?_
      refine (tracks_unify hs₁ (.base .bool cond.range) hc cond.range).bind
        fun _ s₂ ts₂ hlead₂ hs₂ _ => ?_
      have henv₂ := henv.mono (hlead₁.trans hlead₂).next
      refine (tracks_infer hs₂ henv₂ yes).bind fun y s₃ ts₃ hlead₃ hs₃ hy => ?_
      refine (tracks_infer hs₃ (henv₂.mono hlead₃.next) no).bind fun n s₄ ts₄ hlead₄ hs₄ hn => ?_
      exact (tracks_unify hs₄ (hy.mono hlead₄.next) hn no.range).bind
        fun _ _ _ _ hs₅ _ => .pure hs₅ trivial
  | .list items range =>
      refine (tracks_fresh hs range).bind fun elem s₁ ts₁ hlead hs₁ helem => ?_
      exact (tracks_inferAll hs₁ (henv.mono hlead.next) helem items).bind
        fun _ _ _ _ hs₂ _ => .pure hs₂ trivial
  | .tuple items range =>
      exact (tracks_inferEach hs henv items).bind fun _ _ _ _ hs₁ _ => .pure hs₁ trivial
  | .record fields range =>
      exact (tracks_inferFields hs henv Fields.sorted_nil (List.forall_mem_nil _) fields).bind
        fun _ _ _ _ hs₁ _ => .pure hs₁ trivial
  | .field base name range =>
      refine (tracks_infer hs henv base).bind fun b s₁ ts₁ hlead₁ hs₁ hb => ?_
      refine (tracks_fresh hs₁ name.range).bind fun t s₂ ts₂ hlead₂ hs₂ ht => ?_
      refine tracks_unifyRecord hs₂ ?_ (List.forall_mem_singleton.2 ht) (hb.mono hlead₂.next)
        fun _ _ hs₃ => .pure hs₃ trivial
      simp [Fields.Sorted, Fields.names]
  | .update base fields range =>
      refine (tracks_infer hs henv base).bind fun b s₁ ts₁ hlead₁ hs₁ hb => ?_
      refine (tracks_inferFields hs₁ (henv.mono hlead₁.next) Fields.sorted_nil
        (List.forall_mem_nil _) fields).bind fun r s₂ ts₂ hlead₂ hs₂ ⟨hsorted, hfields⟩ => ?_
      exact tracks_unifyRecord hs₂ hsorted hfields (hb.mono hlead₂.next)
        fun _ _ hs₃ => .pure hs₃ trivial
  | .construct ctor arg range =>
      refine (tracks_instantiateConstructor hs ctor).bind
        fun r s₁ ts₁ hlead hs₁ ⟨_, htypes⟩ => ?_
      exact (tracks_inferArgs hs₁ (henv.mono hlead.next) htypes
        (fun _ _ hs₂ => tracks_fail hs₂ (by simp) (by simp)) arg).bind
        fun _ _ _ _ hs₂ _ => .pure hs₂ trivial
  | .caseOf scrutinee arms range =>
      refine (tracks_infer hs henv scrutinee).bind fun r s₁ ts₁ hlead₁ hs₁ hr => ?_
      refine (tracks_fresh hs₁ range).bind fun result s₂ ts₂ hlead₂ hs₂ hresult => ?_
      refine (tracks_inferArms hs₂ (henv.mono (hlead₁.trans hlead₂).next) (hr.mono hlead₂.next)
        hresult arms).bind fun coreArms s₃ ts₃ hlead₃ hs₃ _ => ?_
      exact (tracks_checkCoverage hs₃ coreArms _ range).bind
        fun _ _ _ _ hs₄ _ => .pure hs₄ trivial
  | .ref value range =>
      exact (tracks_infer hs henv value).bind fun _ _ _ _ hs₁ _ => .pure hs₁ trivial
  | .deref target range =>
      refine (tracks_infer hs henv target).bind fun r s₁ ts₁ hlead₁ hs₁ hr => ?_
      refine (tracks_fresh hs₁ range).bind fun content s₂ ts₂ hlead₂ hs₂ hcontent => ?_
      exact (tracks_unify hs₂ (hcontent.ref target.range) (hr.mono hlead₂.next) target.range).bind
        fun _ _ _ _ hs₃ _ => .pure hs₃ trivial
  | .assign target value range =>
      refine (tracks_infer hs henv target).bind fun r s₁ ts₁ hlead₁ hs₁ hr => ?_
      refine (tracks_infer hs₁ (henv.mono hlead₁.next) value).bind
        fun v s₂ ts₂ hlead₂ hs₂ hv => ?_
      refine (tracks_fresh hs₂ range).bind fun content s₃ ts₃ hlead₃ hs₃ hcontent => ?_
      refine (tracks_unify hs₃ (hcontent.ref target.range) (hr.mono (hlead₂.trans hlead₃).next)
        target.range).bind fun _ s₄ ts₄ hlead₄ hs₄ _ => ?_
      exact (tracks_unify hs₄ (hcontent.mono hlead₄.next) (hv.mono (hlead₃.trans hlead₄).next)
        value.range).bind fun _ _ _ _ hs₅ _ => .pure hs₅ trivial
  | .sequence first second _ =>
      refine (tracks_infer hs henv first).bind fun r s₁ ts₁ hlead₁ hs₁ hr => ?_
      refine (tracks_unify hs₁ (.base .unit first.range) hr first.range).bind
        fun _ s₂ ts₂ hlead₂ hs₂ _ => ?_
      exact (tracks_infer hs₂ (henv.mono (hlead₁.trans hlead₂).next) second).bind
        fun _ _ _ _ hs₃ _ => .pure hs₃ trivial
  | .annot body type _ =>
      refine (tracks_infer hs henv body).bind fun r s₁ ts₁ hlead₁ hs₁ hr => ?_
      refine (tracks_annotated hs₁ type).bind fun t s₂ ts₂ hlead₂ hs₂ ht => ?_
      exact (tracks_unify hs₂ ht (hr.mono hlead₂.next) body.range).bind
        fun _ _ _ _ hs₃ _ => .pure hs₃ trivial

theorem tracks_inferAll {s : CheckState} {ts : List Ty} {env : TypeEnv} {elem : Ty}
    (hs : s.Ready ts) (henv : TypeEnv.Known s.next env) (helem : elem.Known s.next)
    (es : List Expr) : Tracks (Script.inferAll env elem es) o s ts fun _ _ => True := by
  unfold Script.inferAll
  match es with
  | [] => exact .pure hs trivial
  | e :: es =>
      refine (tracks_infer hs henv e).bind fun r s₁ ts₁ hlead₁ hs₁ hr => ?_
      refine (tracks_unify hs₁ (helem.mono hlead₁.next) hr e.range).bind
        fun _ s₂ ts₂ hlead₂ hs₂ _ => ?_
      have hlead := (hlead₁.trans hlead₂).next
      exact (tracks_inferAll hs₂ (henv.mono hlead) (helem.mono hlead) es).bind
        fun _ _ _ _ hs₃ _ => .pure hs₃ trivial

theorem tracks_inferEach {s : CheckState} {ts : List Ty} {env : TypeEnv} (hs : s.Ready ts)
    (henv : TypeEnv.Known s.next env) (es : List Expr) :
    Tracks (Script.inferEach env es) o s ts fun _ _ => True := by
  unfold Script.inferEach
  match es with
  | [] => exact .pure hs trivial
  | e :: es =>
      refine (tracks_infer hs henv e).bind fun r s₁ ts₁ hlead₁ hs₁ _ => ?_
      exact (tracks_inferEach hs₁ (henv.mono hlead₁.next) es).bind
        fun _ _ _ _ hs₂ _ => .pure hs₂ trivial

theorem tracks_inferAgainst {s : CheckState} {ts : List Ty} {env : TypeEnv} {types : List Ty}
    (hs : s.Ready ts) (henv : TypeEnv.Known s.next env) (htypes : ∀ t ∈ types, t.Known s.next)
    (es : List Expr) : Tracks (Script.inferAgainst env types es) o s ts fun _ _ => True := by
  unfold Script.inferAgainst
  match es with
  | [] => exact .pure hs trivial
  | e :: es =>
      match types with
      | [] => exact .pure hs trivial
      | type :: types =>
          refine (tracks_infer hs henv e).bind fun r s₁ ts₁ hlead₁ hs₁ hr => ?_
          refine (tracks_unify hs₁ ((htypes type List.mem_cons_self).mono hlead₁.next) hr
            e.range).bind fun _ s₂ ts₂ hlead₂ hs₂ _ => ?_
          have hlead := (hlead₁.trans hlead₂).next
          exact (tracks_inferAgainst hs₂ (henv.mono hlead)
            (fun t ht => (htypes t (List.mem_cons_of_mem _ ht)).mono hlead) es).bind
            fun _ _ _ _ hs₃ _ => .pure hs₃ trivial

theorem tracks_inferArgs {s : CheckState} {ts : List Ty} {env : TypeEnv} {types : List Ty}
    {wrongArity : Check (List Core)} {wrong : Script wrongArity} (hs : s.Ready ts)
    (henv : TypeEnv.Known s.next env) (htypes : ∀ t ∈ types, t.Known s.next)
    (hwrong : ∀ s ts, s.Ready ts → Tracks wrong o s ts fun _ _ => True) (arg : Option Expr) :
    Tracks (Script.inferArgs env types wrong arg) o s ts fun _ _ => True := by
  unfold Script.inferArgs
  match arg with
  | none => exact .ite (fun _ => .pure hs trivial) fun _ => hwrong s ts hs
  | some arg =>
      match types with
      | [] => exact hwrong s ts hs
      | [type] =>
          refine (tracks_infer hs henv arg).bind fun r s₁ ts₁ hlead₁ hs₁ hr => ?_
          exact (tracks_unify hs₁ ((htypes type List.mem_cons_self).mono hlead₁.next) hr
            arg.range).bind fun _ _ _ _ hs₂ _ => .pure hs₂ trivial
      | type :: type' :: types =>
          match arg with
          | .tuple items _ =>
              exact .ite (fun _ => tracks_inferAgainst hs henv htypes items)
                fun _ => hwrong s ts hs
          | .literal _ _ | .var _ | .lambda _ _ _ | .apply _ _ _ | .letIn _ _ _ _
          | .letRec _ _ _ | .ifElse _ _ _ _ | .list _ _ | .record _ _ | .field _ _ _
          | .update _ _ _ | .construct _ _ _ | .caseOf _ _ _ | .ref _ _ | .deref _ _
          | .assign _ _ _ | .sequence _ _ _ | .annot _ _ _ => exact hwrong s ts hs

theorem tracks_inferFields {s : CheckState} {ts : List Ty} {env : TypeEnv}
    {before : List (String × Ty)} (hs : s.Ready ts) (henv : TypeEnv.Known s.next env)
    (hsorted : Fields.Sorted before) (hbefore : ∀ p ∈ before, p.2.Known s.next)
    (fields : List (Ident × Expr)) :
    Tracks (Script.inferFields env before fields) o s ts fun r s' =>
      Fields.Sorted r.2 ∧ ∀ p ∈ r.2, p.2.Known s'.next := by
  refine Tracks.keeps ?_ (keeps_inferFields hs.wf henv hsorted hbefore fields)
  unfold Script.inferFields
  match fields with
  | [] => exact .pure hs trivial
  | (name, value) :: fields =>
      refine (tracks_infer hs henv value).bind fun r s₁ ts₁ hlead₁ hs₁ hr => ?_
      refine .ite (fun _ => tracks_fail hs₁ (by simp) (by simp)) fun _ => ?_
      have hinsert : ∀ p ∈ Fields.insert name.text r.2 before, p.2.Known s₁.next := by
        rintro ⟨other, u⟩ hp
        rcases Fields.mem_insert hp with heq | hp
        · obtain ⟨-, rfl⟩ := Prod.mk.inj heq
          exact hr
        · exact (hbefore _ hp).mono hlead₁.next
      exact (tracks_inferFields hs₁ (henv.mono hlead₁.next)
        (Fields.sorted_insert hsorted name.text r.2) hinsert fields).bind
        fun _ _ _ _ hs₂ _ => .pure hs₂ trivial

theorem tracks_inferBindings {s : CheckState} {ts : List Ty} {env : TypeEnv} {types : List Ty}
    (hs : s.Ready ts) (henv : TypeEnv.Known s.next env) (htypes : ∀ t ∈ types, t.Known s.next)
    (bindings : List (RecBinding Expr)) :
    Tracks (Script.inferBindings env types bindings) o s ts fun _ _ => True := by
  unfold Script.inferBindings
  match bindings with
  | [] => exact .pure hs trivial
  | ⟨_, value, range⟩ :: bindings =>
      match types with
      | [] => exact .pure hs trivial
      | type :: types =>
          refine (tracks_infer hs henv value).bind fun r s₁ ts₁ hlead₁ hs₁ hr => ?_
          refine (tracks_unify hs₁ ((htypes type List.mem_cons_self).mono hlead₁.next) hr
            range).bind fun _ s₂ ts₂ hlead₂ hs₂ _ => ?_
          have hlead := (hlead₁.trans hlead₂).next
          exact (tracks_inferBindings hs₂ (henv.mono hlead)
            (fun t ht => (htypes t (List.mem_cons_of_mem _ ht)).mono hlead) bindings).bind
            fun _ _ _ _ hs₃ _ => .pure hs₃ trivial

theorem tracks_inferArms {s : CheckState} {ts : List Ty} {env : TypeEnv} {scrutinee result : Ty}
    (hs : s.Ready ts) (henv : TypeEnv.Known s.next env) (hscrutinee : scrutinee.Known s.next)
    (hresult : result.Known s.next) (arms : List (MatchArm Expr)) :
    Tracks (Script.inferArms env scrutinee result arms) o s ts fun _ _ => True := by
  unfold Script.inferArms
  match arms with
  | [] => exact .pure hs trivial
  | ⟨pat, body, _⟩ :: arms =>
      refine (tracks_pattern hs hscrutinee (List.forall_mem_nil _) pat).bind
        fun r s₁ ts₁ hlead₁ hs₁ hr => ?_
      refine (tracks_infer hs₁ (known_extendEnv (henv.mono hlead₁.next)
        fun p hp => .plain (hr p hp)) body).bind fun b s₂ ts₂ hlead₂ hs₂ hb => ?_
      refine (tracks_unify hs₂ (hresult.mono (hlead₁.trans hlead₂).next) hb body.range).bind
        fun _ s₃ ts₃ hlead₃ hs₃ _ => ?_
      have hlead := ((hlead₁.trans hlead₂).trans hlead₃).next
      exact (tracks_inferArms hs₃ (henv.mono hlead) (hscrutinee.mono hlead) (hresult.mono hlead)
        arms).bind fun _ _ _ _ hs₄ _ => .pure hs₄ trivial

end

end FieldML.Check

/-! ## New variables in a whole check

A check that begins in the environments that every program starts from hands out new variables only,
whatever the program is. So it never gives a second kind to a variable, and wherever parameters give
way to arguments the order in which they do so makes no difference. -/

namespace FieldML

open Check CheckState

theorem CheckState.Ready.start : (Check.start initialEnvironments.variants initialEnvironments.kinds
    initialEnvironments.types).Ready (initialEnvironments.types.map (·.2)) where
  wf := .start wf_initialEnvironments
  declared := by decide +kernel
  held t ht := by
    obtain ⟨p, hp, rfl⟩ := List.mem_map.1 ht
    exact wf_initialEnvironments.types p hp

namespace Check

variable {α : Type} {o : CheckOptions} {s s' : CheckState} {ts : List Ty}

theorem tracks_session (hs : s.Ready ts) {env : Environments}
    (henv : TypeEnv.Known s.next env.types) (p : Program) :
    TracksDeclares (Script.session env p) o s ts fun _ _ => True := by
  have hgroups : TracksDeclares (Script.forM Script.declareGroup p.groups) o s ts fun _ _ => True :=
    tracksDeclares_forM (I := fun _ _ => True) hs trivial
      fun group _ _ _ _ _ hs₁ _ => tracks_declareGroup hs₁ group
  exact hgroups.bind fun _ _ _ hgrown hs₁ _ =>
    (tracks_infer hs₁ (henv.mono hgrown.next) p.body).declares.mono fun _ _ _ _ => trivial

theorem cause_of_checkCoverage {arms : List (CoreArm Core)} {armRanges : List Range}
    {range : Range} {e : TypeError} (h : checkCoverage arms armRanges range o s = (.error e, s')) :
    ∃ missing, e.cause = .nonExhaustive missing := by
  simp only [checkCoverage, bind_apply, get_apply, forM_warn] at h
  cases hmissing : (Coverage.analyze s.variants (arms.map (·.pattern))).missing with
  | none =>
      rw [hmissing] at h
      cases h
  | some missing =>
      rw [hmissing] at h
      simp only [bind_apply, read_apply] at h
      cases hanswer : o.exhaustiveness with
      | error =>
          rw [hanswer] at h
          obtain rfl := Except.error.inj (Prod.mk.inj h).1
          exact ⟨missing, rfl⟩
      | warn =>
          rw [hanswer] at h
          cases h

/-- Only a demand of the program itself could say that a variable has a kind already, and a sound one
does not. -/
theorem Call.Sound.not_alreadyKinded {c : Call α} (hc : c.Sound s ts) {e : TypeError}
    (hrun : c.run o s = (.error e, s')) : ∀ k, e.cause ≠ .alreadyKinded k := by
  have hvariant : ∀ {β : Type} (r : Except VariantError β) {s s' : CheckState},
      liftVariant r o s = (.error e, s') → ∀ k, e.cause ≠ .alreadyKinded k := by
    rintro β (f | b) s s' h
    · obtain rfl := Except.error.inj (Prod.mk.inj h).1
      exact nofun
    · cases h
  cases c with
  | get | freshId | giveKind | report | instantiateArgs => cases hrun
  | fail cause range h =>
      obtain rfl := Except.error.inj (Prod.mk.inj hrun).1
      exact hc
  | unify expected found range =>
      rw [Call.run, unify_apply] at hrun
      rcases hresult : (s.solver.unify expected found).1 with c | ⟨⟩
      · rw [hresult] at hrun
        obtain rfl := Except.error.inj (Prod.mk.inj hrun).1
        intro k hk
        cases hk
      · rw [hresult] at hrun
        cases hrun
  | lookupConstructor | resolve => exact hvariant _ hrun
  | setVariants variants =>
      cases variants with
      | error f => exact hvariant (.error f : Except VariantError Unit) hrun
      | ok env => cases hrun
  | checkCoverage arms armRanges range =>
      obtain ⟨missing, hcause⟩ := cause_of_checkCoverage hrun
      rw [hcause]
      intro k hk
      cases hk

/-- The same demands where the variable is handed out by the counter of 32 bits. -/
def Call.Sound32 : ∀ {α : Type}, Call α → CheckState → List Ty → Prop
  | _, .freshId, s, ts => ∀ o new s', Call.freshId.run32 o s = some (.ok new, s') →
      ∀ v ∈ s.vars ++ ts.flatMap Ty.allVars, v < new
  | _, c, s, ts => c.Sound s ts

theorem Call.Sound.counted {c : Call α} (hs : s.next < UInt32.size) (hc : c.Sound s ts) :
    c.Sound32 s ts := by
  cases c with
  | freshId =>
      intro o new s' hrun
      rw [run32_freshId hs] at hrun
      exact hc o new s' (Option.some.inj (Option.ite_none_right_eq_some.1 hrun).2)
  | get | fail | giveKind | report | instantiateArgs | unify | lookupConstructor | resolve
  | setVariants | checkCoverage => exact hc

/-- All variables that a check hands out are new, in every run from the environments that every
program starts from: greater than all variables in the declarations, the kinds, the substitution and
the types that the check has at hand, free or bound. No variable is given a second kind. The
arguments that take the place of the parameters of a constructor or a synonym mention none of these
parameters, so that replacing one after the other is replacing them all at once. This is so whether
the variables are counted without a bound or with 32 bits, where the run comes to nothing once the
counter overflows and has the same outcome otherwise. -/
theorem variables_are_new (o : CheckOptions) (p : Program) :
    (Script.session initialEnvironments p).Follows Call.Sound o (fun _ _ _ => True)
      (start initialEnvironments.variants initialEnvironments.kinds initialEnvironments.types)
      (initialEnvironments.types.map (·.2)) ∧
    (∀ e, (program initialEnvironments o p).1 = .error e → ∀ k, e.cause ≠ .alreadyKinded k) ∧
    (Script.session initialEnvironments p).Follows32 Call.Sound32 o (fun _ _ _ => True)
      (start initialEnvironments.variants initialEnvironments.kinds initialEnvironments.types)
      (initialEnvironments.types.map (·.2)) ∧
    (Script.session initialEnvironments p).run32 o
        (start initialEnvironments.variants initialEnvironments.kinds initialEnvironments.types) =
      within32 (outcome initialEnvironments o p) := by
  have hsound := (tracks_session (o := o) .start wf_initialEnvironments.types p).made.mono
    fun _ _ _ hc => hc.sound
  refine ⟨hsound, fun e he => ?_,
    hsound.counted (fun _ _ _ => Call.Sound.counted) next_start_lt fun _ _ _ _ _ => trivial,
    run32_session o p⟩
  unfold program at he
  rw [outcome_eq_session] at he
  rcases hrun : session initialEnvironments p o (start initialEnvironments.variants
    initialEnvironments.kinds initialEnvironments.types) with ⟨e' | ⟨core, t⟩, s'⟩
  · rw [hrun] at he
    obtain rfl : e' = e := Except.error.inj he
    exact hsound.error (P := fun e => ∀ k, e.cause ≠ .alreadyKinded k)
      (fun _ _ _ _ _ hc hrun => hc.not_alreadyKinded hrun) hrun
  · rw [hrun] at he
    cases he

end Check

end FieldML
