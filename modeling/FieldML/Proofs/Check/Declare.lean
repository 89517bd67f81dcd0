import FieldML.Proofs.Check.Change
import FieldML.Proofs.Check.TypeExpr

/-!
# Declarations

Declaring types compares nothing. A declared type mentions only its parameters, which are new
variables, and a constructor has the parameters of its variant.
-/

namespace FieldML

open Check

namespace VariantEnv

variable {n : TypeVar} {env env' : VariantEnv}

/-- Every variant of the first environment is one of the second with the same parameters and at
least its constructors. -/
def Grows (env env' : VariantEnv) : Prop :=
  ∀ name params ctors, env.definition? name = some (.variant params ctors) →
    ∃ more, env'.definition? name = some (.variant params (ctors ++ more))

theorem Grows.refl (env : VariantEnv) : env.Grows env := fun _ _ _ h => ⟨[], by simpa using h⟩

theorem Grows.trans {env₁ : VariantEnv} (h₁ : env.Grows env₁) (h₂ : env₁.Grows env') :
    env.Grows env' := by
  intro name params ctors h
  obtain ⟨more, hmore⟩ := h₁ name params ctors h
  obtain ⟨more', hmore'⟩ := h₂ name params _ hmore
  exact ⟨more ++ more', by rw [hmore', List.append_assoc]⟩

theorem define_eq_ok {name : String} {d : TypeDefinition} {range : Range}
    (h : env.define name d range = .ok env') :
    env.definition? name = none ∧
      env' = { env with definitions := Fields.insert name d env.definitions } := by
  unfold define at h
  split at h
  · simp at h
  · next hnew =>
      refine ⟨?_, (Except.ok.inj h).symm⟩
      simp only [Bool.or_eq_true, not_or, Bool.not_eq_true, Option.isSome_eq_false_iff,
        Option.isNone_iff_eq_none] at hnew
      exact hnew.1

theorem definition?_define {name other : String} {d : TypeDefinition} {range : Range}
    (h : env.define name d range = .ok env') :
    env'.definition? other = if name = other then some d else env.definition? other := by
  obtain ⟨-, rfl⟩ := define_eq_ok h
  exact Fields.get?_insert _ _ _ _

theorem constructor?_define {name other : String} {d : TypeDefinition} {range : Range}
    (h : env.define name d range = .ok env') : env'.constructor? other = env.constructor? other := by
  obtain ⟨-, rfl⟩ := define_eq_ok h
  rfl

theorem grows_define {name : String} {d : TypeDefinition} {range : Range}
    (h : env.define name d range = .ok env') : env.Grows env' := by
  intro other params ctors hother
  refine ⟨[], ?_⟩
  rw [definition?_define h, if_neg, hother, List.append_nil]
  rintro rfl
  rw [(define_eq_ok h).1] at hother
  simp at hother

/-- Every constructor is listed with the variant that it belongs to, whose parameters it has. -/
def Listed (env : VariantEnv) : Prop :=
  ∀ name c, env.constructor? name = some c →
    ∃ ctors, env.definition? c.variant = some (.variant c.params ctors) ∧ name ∈ ctors

theorem Listed.of_grows {name : String} {c : Constructor} (henv : env.Listed)
    (hc : env.constructor? name = some c) (hgrows : env.Grows env') :
    ∃ ctors, env'.definition? c.variant = some (.variant c.params ctors) ∧ name ∈ ctors := by
  obtain ⟨ctors, hctors, hmem⟩ := henv name c hc
  obtain ⟨more, hmore⟩ := hgrows _ _ _ hctors
  exact ⟨ctors ++ more, hmore, List.mem_append_left _ hmem⟩

theorem Listed.define (henv : env.Listed) {name : String} {d : TypeDefinition} {range : Range}
    (h : env.define name d range = .ok env') : env'.Listed := by
  intro other c hc
  rw [constructor?_define h] at hc
  exact henv.of_grows hc (grows_define h)

theorem Known.define (henv : env.Known n) {name : String} {d : TypeDefinition} {range : Range}
    (hd : ∀ params body, d = .synonym params body →
      body.Simple True ∧ ∀ v ∈ body.freeVars, v ∈ params)
    (h : env.define name d range = .ok env') : env'.Known n := by
  refine ⟨⟨fun other params body hother => ?_, fun other c hc => ?_, Listed.define henv.listed h⟩,
    fun other c hc => ?_⟩
  · rw [definition?_define h] at hother
    split at hother
    · exact hd params body (Option.some.inj hother)
    · exact henv.synonyms other params body hother
  · rw [constructor?_define h] at hc
    exact henv.args other c hc
  · rw [constructor?_define h] at hc
    exact henv.params other c hc

/-- Adding a constructor lists it with its variant and changes nothing else. -/
theorem addConstructor_eq_ok {variant name : String} {args : List Ty} {range : Range}
    (h : env.addConstructor variant name args range = .ok env') :
    env.constructor? name = none ∧
      ∃ params ctors, env.definition? variant = some (.variant params ctors) ∧
        (∀ other, env'.definition? other = if variant = other then
          some (.variant params (ctors ++ [name])) else env.definition? other) ∧
        ∀ other, env'.constructor? other = if name = other then
          some ⟨variant, params, args⟩ else env.constructor? other := by
  unfold addConstructor at h
  split at h
  · simp at h
  · next hnew =>
      refine ⟨by simpa using hnew, ?_⟩
      split at h
      · next params ctors hdef =>
          obtain rfl := Except.ok.inj h
          exact ⟨params, ctors, hdef, fun other => Fields.get?_insert _ _ _ _,
            fun other => Fields.get?_insert _ _ _ _⟩
      · simp at h

theorem grows_addConstructor {variant name : String} {args : List Ty} {range : Range}
    (h : env.addConstructor variant name args range = .ok env') : env.Grows env' := by
  obtain ⟨-, params, ctors, hdef, hdefs, -⟩ := addConstructor_eq_ok h
  intro other params' ctors' hother
  rw [hdefs]
  split
  · next heq =>
      subst heq
      rw [hdef] at hother
      obtain ⟨rfl, rfl⟩ := TypeDefinition.variant.inj (Option.some.inj hother)
      exact ⟨[name], rfl⟩
  · exact ⟨[], by rw [hother, List.append_nil]⟩

theorem Listed.addConstructor (henv : env.Listed) {variant name : String} {args : List Ty}
    {range : Range} (h : env.addConstructor variant name args range = .ok env') : env'.Listed := by
  obtain ⟨-, params, ctors, -, hdefs, hctors⟩ := addConstructor_eq_ok h
  intro other c hc
  rw [hctors] at hc
  split at hc
  · next heq =>
      subst heq
      obtain rfl := Option.some.inj hc
      exact ⟨ctors ++ [name], by rw [hdefs, if_pos rfl], by simp⟩
  · exact henv.of_grows hc (grows_addConstructor h)

theorem Known.addConstructor (henv : env.Known n) {variant name : String} {args : List Ty}
    {range : Range} {params : List TypeVar} {ctors : List String}
    (hdef : env.definition? variant = some (.variant params ctors)) (hnodup : params.Nodup)
    (hlt : ∀ v ∈ params, v < n)
    (hargs : ∀ t ∈ args, t.Simple True ∧ ∀ v ∈ t.freeVars, v ∈ params)
    (h : env.addConstructor variant name args range = .ok env') : env'.Known n := by
  obtain ⟨hnew, params', ctors', hdef', hdefs, hctors⟩ := addConstructor_eq_ok h
  rw [hdef] at hdef'
  obtain ⟨rfl, rfl⟩ := TypeDefinition.variant.inj (Option.some.inj hdef')
  refine ⟨⟨fun other params' body hother => ?_, fun other c hc => ?_,
    Listed.addConstructor henv.listed h⟩, fun other c hc => ?_⟩
  · rw [hdefs] at hother
    split at hother
    · simp at hother
    · exact henv.synonyms other params' body hother
  · rw [hctors] at hc
    split at hc
    · obtain rfl := Option.some.inj hc
      exact hargs
    · exact henv.args other c hc
  · rw [hctors] at hc
    split at hc
    · obtain rfl := Option.some.inj hc
      exact ⟨hnodup, hlt⟩
    · exact henv.params other c hc

end VariantEnv

/-- Between the two states types were declared. -/
structure CheckState.Declares (s s' : CheckState) : Prop where
  next : s.next ≤ s'.next
  variants : s.variants.Grows s'.variants

namespace CheckState

variable {s s' s₁ : CheckState}

theorem Declares.refl (s : CheckState) : s.Declares s := ⟨Nat.le_refl _, .refl _⟩

theorem Declares.trans (h₁ : s.Declares s₁) (h₂ : s₁.Declares s') : s.Declares s' :=
  ⟨h₁.next.trans h₂.next, h₁.variants.trans h₂.variants⟩

theorem Idle.declares (h : s.Idle s') : s.Declares s' := ⟨h.next, h.variants ▸ .refl _⟩

end CheckState

namespace Check

variable {α β : Type} {m : Check α} {f : α → Check β} {o : CheckOptions} {s s' : CheckState}
  {Q R : α → CheckState → Prop} {Q' : β → CheckState → Prop}

/-- A part of a check compares nothing but may declare types, with an outcome for which `Q` holds if
it succeeds. -/
def Declares (m : Check α) (o : CheckOptions) (s : CheckState) (Q : α → CheckState → Prop) :
    Prop :=
  s.Declares (m o s).2 ∧ (m o s).2.Wf ∧
    match m o s with
    | (.ok a, s') => Q a s'
    | (.error e, _) => ¬e.OutOfFuel

theorem Idles.declares (hm : Idles m o s Q) (hs : s.Wf) : Declares m o s Q := by
  unfold Idles at hm
  exact ⟨hm.1.declares, hs.of_idle hm.1, hm.2⟩

theorem Declares.bind (hm : Declares m o s Q)
    (hf : ∀ a s₁, s.Declares s₁ → s₁.Wf → Q a s₁ → Declares (f a) o s₁ Q') :
    Declares (m >>= f) o s Q' := by
  unfold Declares at hm ⊢
  rw [bind_apply]
  rcases hrun : m o s with ⟨e | a, s₁⟩
  · rw [hrun] at hm
    exact hm
  · rw [hrun] at hm
    obtain ⟨hdecl, hwf, hq⟩ := hm
    obtain ⟨hdecl', hwf', hq'⟩ := hf a s₁ hdecl hwf hq
    exact ⟨hdecl.trans hdecl', hwf', hq'⟩

theorem Declares.mono (hm : Declares m o s Q) (h : ∀ a s', s'.Wf → Q a s' → R a s') :
    Declares m o s R := by
  unfold Declares at hm ⊢
  rcases hrun : m o s with ⟨e | a, s₁⟩
  · rw [hrun] at hm
    exact hm
  · rw [hrun] at hm
    exact ⟨hm.1, hm.2.1, h a s₁ hm.2.1 hm.2.2⟩

theorem declares_forM {l : List α} {f : α → Check PUnit} {P : α → CheckState → Prop} (hs : s.Wf)
    (hstable : ∀ a s₁ s₂, P a s₁ → s₁.Declares s₂ → P a s₂)
    (hf : ∀ a ∈ l, ∀ s₁, s.Declares s₁ → s₁.Wf → Declares (f a) o s₁ fun _ s₂ => P a s₂) :
    Declares (l.forM f) o s fun _ s' => ∀ a ∈ l, P a s' := by
  induction l generalizing s with
  | nil => exact (Idles.pure (by simp)).declares hs
  | cons a l ih =>
      refine (hf a List.mem_cons_self s (.refl s) hs).bind fun _ s₁ h₁ hs₁ ha => ?_
      have hrest := ih hs₁ fun b hb s₂ h₂ hs₂ =>
        hf b (List.mem_cons_of_mem _ hb) s₂ (h₁.trans h₂) hs₂
      unfold Declares at hrest ⊢
      rcases hrun : l.forM f o s₁ with ⟨e | u, s₂⟩
      · rw [hrun] at hrest
        exact hrest
      · rw [hrun] at hrest
        refine ⟨hrest.1, hrest.2.1, fun b hb => ?_⟩
        rcases List.mem_cons.1 hb with rfl | hb
        · exact hstable b s₁ s₂ ha hrest.1
        · exact hrest.2.2 b hb

/-- New declarations in place of the old ones, if they are in order. -/
theorem declares_setVariants {variants : Except VariantError VariantEnv} (hs : s.Wf)
    (h : ∀ env, variants = .ok env → env.Known s.next ∧ s.variants.Grows env) :
    Declares (setVariants variants) o s fun _ s' => variants = .ok s'.variants := by
  cases variants with
  | error e => exact (idles_fail (by simp) e.range).declares hs
  | ok env =>
      obtain ⟨hknown, hgrows⟩ := h env rfl
      exact ⟨⟨Nat.le_refl _, hgrows⟩, ⟨hs.simple, hs.closed, hs.fresh, hknown,
        fun h hlevel => hs.steady h ⟨hlevel.compared, hlevel.kinded⟩⟩, rfl⟩

/-- The parameters are different variables below `n`, and the names of the declaration stand for
them. -/
structure OpenDecl.Wf (n : TypeVar) (d : OpenDecl) : Prop where
  nodup : d.params.Nodup
  lt : ∀ v ∈ d.params, v < n
  names : ∀ p ∈ d.names, p.2.Simple True ∧ p.2.Inside (· ∈ d.params)

/-- If the declaration is one of a variant, then that is declared. -/
def OpenDecl.Declared (d : OpenDecl) (s : CheckState) : Prop :=
  match d.decl with
  | .variant _ name _ _ => ∃ ctors, s.variants.definition? name.text = some (.variant d.params ctors)
  | .synonym _ _ _ _ => True

theorem OpenDecl.Wf.mono {n n' : TypeVar} {d : OpenDecl} (h : d.Wf n) (hle : n ≤ n') : d.Wf n' :=
  ⟨h.nodup, fun v hv => (h.lt v hv).trans_le hle, h.names⟩

theorem OpenDecl.Declared.mono {d : OpenDecl} (h : d.Declared s) (hdecl : s.Declares s') :
    d.Declared s' := by
  unfold OpenDecl.Declared at h ⊢
  split at h
  · obtain ⟨ctors, hctors⟩ := h
    obtain ⟨more, hmore⟩ := hdecl.variants _ _ _ hctors
    exact ⟨_, hmore⟩
  · trivial

theorem idles_declareParams (decl : TypeDecl) :
    Idles (declareParams decl) o s fun d s' => d.Wf s'.next := by
  refine Idles.bind (Q := fun r s' => r.1.Nodup ∧ (∀ v ∈ r.1, v < s'.next) ∧
    ∀ p ∈ r.2, p.2.Simple True ∧ p.2.Inside (· ∈ r.1)) (idles_foldlM (by simp) ?step) ?done
  case step =>
    rintro ⟨vars, names⟩ param - s₁ - ⟨hnodup, hlt, hnames⟩
    refine idles_freshId.bind fun v s₂ hidle ⟨hv, hnext⟩ => ?_
    split
    · exact idles_fail (by simp) _
    · refine .pure ⟨?_, fun w hw => ?_, ?_⟩
      · refine List.nodup_cons.2 ⟨fun hmem => ?_, hnodup⟩
        exact absurd (hlt v hmem) (hv ▸ Nat.lt_irrefl _)
      · rcases List.mem_cons.1 hw with rfl | hw
        · rw [hv, hnext]
          exact Nat.lt_succ_self _
        · exact (hlt w hw).trans_le hidle.next
      · rintro ⟨other, t⟩ hp
        rcases Fields.mem_insert hp with heq | hp
        · obtain ⟨-, rfl⟩ := Prod.mk.inj heq
          exact ⟨.var v _, fun w hw => List.mem_cons.2 (Or.inl (Ty.mem_freeVars_var.1 hw))⟩
        · exact ⟨(hnames _ hp).1, (hnames _ hp).2.mono fun w hw => List.mem_cons_of_mem _ hw⟩
  case done =>
    rintro ⟨vars, names⟩ s₁ - ⟨hnodup, hlt, hnames⟩
    refine .pure ⟨?_, ?_, ?_⟩
    · exact List.nodup_reverse.2 hnodup
    · exact fun v hv => hlt v (List.mem_reverse.1 hv)
    · exact fun p hp => ⟨(hnames p hp).1, (hnames p hp).2.mono fun v hv => List.mem_reverse.2 hv⟩

theorem Declares.get_bind {f : CheckState → Check β} (h : Declares (f s) o s Q') :
    Declares (get >>= f) o s Q' := h

theorem declares_declareVariant (hs : s.Wf) (d : OpenDecl) :
    Declares (declareVariant d) o s fun _ s' => d.Declared s' := by
  match d with
  | ⟨.synonym _ _ _ _, _, _⟩ => exact (Idles.pure trivial).declares hs
  | ⟨.variant _ name _ _, params, _⟩ =>
      rw [declareVariant_variant]
      refine Declares.get_bind ?_
      have hset : ∀ env, s.variants.define name.text (.variant params []) name.range = .ok env →
          env.Known s.next ∧ s.variants.Grows env := fun env henv =>
        ⟨hs.variants.define (by simp) henv, VariantEnv.grows_define henv⟩
      refine (declares_setVariants hs hset).mono fun _ s' _ hs' => ⟨[], ?_⟩
      rw [VariantEnv.definition?_define hs', if_pos rfl]

theorem declares_declareSynonym (hs : s.Wf) {d : OpenDecl} (hd : d.Wf s.next) :
    Declares (declareSynonym d) o s fun _ _ => True := by
  match d with
  | ⟨.variant _ _ _ _, _, _⟩ => exact (Idles.pure trivial).declares hs
  | ⟨.synonym _ name body _, params, names⟩ =>
      rw [declareSynonym_synonym]
      refine ((idles_declaredType hs.variants.toWf hd.names body).declares hs).bind
        fun t s₁ _ hs₁ ⟨hsimple, hin⟩ => Declares.get_bind ?_
      refine (declares_setVariants hs₁ fun env henv => ⟨hs₁.variants.define ?_ henv,
        VariantEnv.grows_define henv⟩).mono fun _ _ _ _ => trivial
      rintro params' body' heq
      obtain ⟨rfl, rfl⟩ := TypeDefinition.synonym.inj heq
      exact ⟨hsimple, hin⟩

theorem declares_declareConstructors (hs : s.Wf) {d : OpenDecl} (hd : d.Wf s.next)
    (hdecl : d.Declared s) : Declares (declareConstructors d) o s fun _ _ => True := by
  match d with
  | ⟨.synonym _ _ _ _, _, _⟩ => exact (Idles.pure trivial).declares hs
  | ⟨.variant _ name ctors _, params, names⟩ =>
      rw [declareConstructors_variant]
      refine (declares_forM (P := fun _ _ => True) hs (fun _ _ _ _ _ => trivial)
        fun ctor _ s₁ h₁ hs₁ => ?_).mono fun _ _ _ _ => trivial
      have hargs : Idles (ctor.args.mapM (declaredType names)) o s₁ fun args _ =>
          args.length = ctor.args.length ∧
            ∀ t ∈ args, t.Simple True ∧ t.Inside (· ∈ params) :=
        idles_mapM (P := fun (t : Ty) _ => t.Simple True ∧ t.Inside (· ∈ params)) (fun _ _ _ h _ => h)
          fun e _ s₂ hidle => idles_declaredType (hidle.variants ▸ hs₁.variants.toWf) hd.names e
      refine (hargs.declares hs₁).bind fun args s₂ h₂ hs₂ ⟨_, hargs⟩ => Declares.get_bind ?_
      obtain ⟨others, hothers⟩ := hdecl.mono (h₁.trans h₂)
      have hd₂ := hd.mono (h₁.trans h₂).next
      refine (declares_setVariants hs₂ fun env henv => ⟨hs₂.variants.addConstructor hothers
        hd₂.nodup hd₂.lt hargs henv, VariantEnv.grows_addConstructor henv⟩).mono
          fun _ _ _ _ => trivial

/-- Declaring a group of types keeps what holds in every state. -/
theorem declares_declareGroup (hs : s.Wf) (group : List TypeDecl) :
    Declares (declareGroup group) o s fun _ _ => True := by
  have hparams : Idles (group.mapM declareParams) o s fun decls s' =>
      decls.length = group.length ∧ ∀ d ∈ decls, d.Wf s'.next :=
    idles_mapM (P := fun (d : OpenDecl) s' => d.Wf s'.next) (fun _ _ _ h hidle => h.mono hidle.next)
      fun decl _ _ _ => idles_declareParams decl
  refine (hparams.declares hs).bind fun decls s₁ _ hs₁ ⟨_, hdecls⟩ => ?_
  refine (declares_forM (P := fun d s' => d.Declared s') hs₁ (fun _ _ _ h hdecl => h.mono hdecl)
    fun d _ s₂ _ hs₂ => declares_declareVariant hs₂ d).bind fun _ s₂ h₂ hs₂ hdeclared => ?_
  refine (declares_forM (P := fun _ _ => True) hs₂ (fun _ _ _ _ _ => trivial)
    fun d hd s₃ h₃ hs₃ => declares_declareSynonym hs₃
      ((hdecls d hd).mono (h₂.trans h₃).next)).bind fun _ s₃ h₃ hs₃ _ => ?_
  refine (declares_forM (P := fun _ _ => True) hs₃ (fun _ _ _ _ _ => trivial)
    fun d hd s₄ h₄ hs₄ => declares_declareConstructors hs₄
      ((hdecls d hd).mono ((h₂.trans h₃).trans h₄).next)
      ((hdeclared d hd).mono (h₃.trans h₄))).bind fun _ s₄ _ hs₄ _ => ?_
  exact (idles_report _).declares hs₄

end Check

end FieldML
