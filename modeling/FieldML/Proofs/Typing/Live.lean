import FieldML.Proofs.Check.PatternType
import FieldML.Proofs.Typing.Meaning
import FieldML.Proofs.Unify.Plain
import FieldML.Proofs.Unify.Solution

/-!
# Variables that are still in use

Once a variable is quantified, inference never meets it again. The live variables form a region that
the types in use never leave, so quantified variables stay apart from everything found out later.
-/

namespace FieldML

open Check Unify

variable {syn : Prop} {sig : VariantEnv} {V W : TypeVar → Prop} {n m : TypeVar} {t u : Ty}
  {s s' s₁ : CheckState} {σ σ' : Instantiation} {v : TypeVar} {r : Range}

theorem Ty.Simple.weaken (ht : t.Simple False) : t.Simple syn := by
  induction ht with
  | base b r => exact .base b r
  | var v r => exact .var v r
  | func r hp hq ihp ihq => exact .func r ihp ihq
  | list r ht ih => exact .list r ih
  | ref r ht ih => exact .ref r ih
  | product r hts ih => exact .product r ih
  | variant n r hts ih => exact .variant n r ih
  | synonym n r hsyn => exact hsyn.elim
  | record r hsorted hfs ih => exact .record r hsorted ih

/-- A type without quantifiers and synonyms whose variables are live and below `n`. -/
structure Ty.Live (V : TypeVar → Prop) (n : TypeVar) (t : Ty) : Prop where
  simple : t.Simple False
  inside : ∀ v ∈ t.freeVars, V v ∧ v < n

namespace Ty.Live

theorem known (ht : t.Live V n) : t.Known n := ⟨ht.simple.weaken, fun v hv => (ht.inside v hv).2⟩

theorem live (ht : t.Live V n) : t.Inside V := fun v hv => (ht.inside v hv).1

theorem mono (ht : t.Live V n) (hnm : n ≤ m) : t.Live V m :=
  ⟨ht.simple, fun v hv => ⟨(ht.inside v hv).1, (ht.inside v hv).2.trans_le hnm⟩⟩

theorem widen (ht : t.Live V n) (hVW : ∀ v, V v → W v) : t.Live W n :=
  ⟨ht.simple, fun v hv => ⟨hVW v (ht.inside v hv).1, (ht.inside v hv).2⟩⟩

theorem var (hv : V v) (hlt : v < n) (r : Range) : (Ty.var v r).Live V n :=
  ⟨.var v r, fun _ hw => mem_freeVars_var.1 hw ▸ ⟨hv, hlt⟩⟩

theorem base (b : BaseTy) (r : Range) : (Ty.base b r).Live V n :=
  ⟨.base b r, fun _ hw => (mem_freeVars_base.1 hw).elim⟩

theorem func (ht : t.Live V n) (hu : u.Live V n) (r : Range) : (Ty.func t u r).Live V n :=
  ⟨.func r ht.simple hu.simple, fun v hv =>
    (mem_freeVars_func.1 hv).elim (ht.inside v) (hu.inside v)⟩

theorem list (ht : t.Live V n) (r : Range) : (Ty.list t r).Live V n :=
  ⟨.list r ht.simple, ht.inside⟩

theorem ref (ht : t.Live V n) (r : Range) : (Ty.ref t r).Live V n := ⟨.ref r ht.simple, ht.inside⟩

theorem product {ts : List Ty} (hts : ∀ t ∈ ts, t.Live V n) (r : Range) :
    (Ty.product ts r).Live V n :=
  ⟨.product r fun t ht => (hts t ht).simple, fun v hv =>
    have ⟨t, ht, hv⟩ := mem_freeVars_product.1 hv
    (hts t ht).inside v hv⟩

theorem variant {ts : List Ty} (hts : ∀ t ∈ ts, t.Live V n) (name : String) (r : Range) :
    (Ty.variant name ts r).Live V n :=
  ⟨.variant name r fun t ht => (hts t ht).simple, fun v hv =>
    have ⟨t, ht, hv⟩ := mem_freeVars_variant.1 hv
    (hts t ht).inside v hv⟩

theorem record {fs : List (String × Ty)} (hsorted : Fields.Sorted fs)
    (hfs : ∀ p ∈ fs, p.2.Live V n) (r : Range) : (Ty.record fs r).Live V n :=
  ⟨.record r hsorted fun p hp => (hfs p hp).simple, fun v hv =>
    have ⟨p, hp, hv⟩ := mem_freeVars_record.1 hv
    (hfs p hp).inside v hv⟩

protected theorem withRange (ht : t.Live V n) (r : Range) : (t.withRange r).Live V n :=
  ⟨ht.simple.withRange r, fun v hv => ht.inside v (by rwa [freeVars_withRange] at hv)⟩

/-- Types for variables that are handed out later do not change what a type means. -/
theorem mono_eq (ht : t.Live V n) (h : ∀ v < n, σ' v = σ v) : t.mono σ' = t.mono σ :=
  ht.simple.mono_congr fun v hv => h v (ht.inside v hv).2

theorem monos_eq {ts : List Ty} (hts : ∀ t ∈ ts, t.Live V n) (h : ∀ v < n, σ' v = σ v) :
    monos σ' ts = monos σ ts :=
  List.map_congr_left fun t ht => (hts t ht).mono_eq h

end Ty.Live

namespace Substitution

variable {s : Substitution} {θ : Assignment}

theorem AgreesWith.solvedBy (h : s.AgreesWith σ) (hs : s.Simple syn) :
    s.SolvedBy fun v => (σ v).ground θ := fun v t hv => by
  dsimp only
  rw [h v t hv, (hs v t hv).ground_mono]

theorem agreesWith_of_solvedBy (hs : s.Simple syn)
    (h : ∀ θ, s.SolvedBy fun v => (σ v).ground θ) : s.AgreesWith σ := fun v t hv =>
  MonoTy.eq_of_ground fun θ => (h θ v t hv).trans (hs v t hv).ground_mono.symm

end Substitution

namespace CheckState

/-- What holds in every state of a check without record kinds and synonyms: the live variables are
closed under what is known, and all variables that are not handed out yet are among them. -/
structure Live (sig : VariantEnv) (V : TypeVar → Prop) (s : CheckState) : Prop where
  wf : s.Wf
  triangular : s.solver.subst.Triangular False
  plain : s.solver.Plain
  closed : s.solver.Closed V
  later : ∀ v, s.next ≤ v → V v
  variants : s.variants = sig

namespace Live

theorem proper (hs : s.Live sig V) : s.solver.Proper False := hs.plain.proper hs.triangular

theorem of_idle (hs : s.Live sig V) (h : s.Idle s') : s'.Live sig V where
  wf := hs.wf.of_idle h
  triangular := h.solver ▸ hs.triangular
  plain := h.solver ▸ hs.plain
  closed := h.solver ▸ hs.closed
  later v hv := hs.later v (h.next.trans hv)
  variants := h.variants.trans hs.variants

theorem apply (hs : s.Live sig V) (ht : t.Live V s.next) :
    (s.solver.subst.apply t).Live V s.next where
  simple := hs.triangular.simple.apply ht.simple
  inside v hv := ⟨hs.closed.apply hs.triangular.simple ht.simple ht.live v hv,
    (hs.wf.apply ht.known).below v hv⟩

/-- Nothing is known about a variable that was not handed out yet. -/
theorem find?_of_le (hs : s.Live sig V) (hv : s.next ≤ v) : s.solver.subst.find? v = none :=
  (hs.wf.fresh v hv).1

/-- Types for the variables that are handed out later may be chosen freely. -/
theorem agreesWith_of_eq (hs : s.Live sig V) (hσ : s.solver.subst.AgreesWith σ)
    (h : ∀ v < s.next, σ' v = σ v) : s.solver.subst.AgreesWith σ' := by
  intro v t hv
  have hlt : v < s.next := by
    by_contra hge
    rw [hs.find?_of_le (Nat.le_of_not_lt hge)] at hv
    simp at hv
  rw [h v hlt, hσ v t hv]
  exact ((hs.triangular.simple v t hv).mono_congr fun w hw =>
    h w (hs.wf.closed.binding v t hlt hv w hw)).symm

end Live

/-- From the first state to the second a check went on: variables were handed out, and what was
found out is about live variables. -/
structure Grows (sig : VariantEnv) (V : TypeVar → Prop) (s s' : CheckState) : Prop where
  next : s.next ≤ s'.next
  live : s'.Live sig V
  extended : s.solver.subst.ExtendedBy s'.solver.subst
  outside : ∀ v, ¬V v → s'.solver.subst.find? v = s.solver.subst.find? v

namespace Grows

theorem refl (hs : s.Live sig V) : s.Grows sig V s := ⟨Nat.le_refl _, hs, .refl _, fun _ _ => rfl⟩

theorem trans (h₁ : s.Grows sig V s₁) (h₂ : s₁.Grows sig V s') : s.Grows sig V s' :=
  ⟨h₁.next.trans h₂.next, h₂.live, h₁.extended.trans h₂.extended, fun v hv =>
    (h₂.outside v hv).trans (h₁.outside v hv)⟩

theorem of_idle (hs : s.Live sig V) (h : s.Idle s') : s.Grows sig V s' :=
  ⟨h.next, hs.of_idle h, h.solver ▸ .refl _, fun _ _ => by rw [h.solver]⟩

/-- What is found out inside a smaller region is found out inside the larger one. -/
theorem widen (h : s.Grows sig W s') (hs : s.Live sig V) (hWV : ∀ v, W v → V v) :
    s.Grows sig V s' where
  next := h.next
  live :=
    { wf := h.live.wf
      triangular := h.live.triangular
      plain := h.live.plain
      closed := by
        refine ⟨fun v t hv ht => ?_, fun v _ p hp => ?_⟩
        · by_cases hW : W v
          · exact (h.live.closed.binding v t hW ht).mono hWV
          · exact hs.closed.binding v t hv ((h.outside v hW).symm.trans ht)
        · rw [h.live.plain v] at hp
          simp [Kind.fields] at hp
      later := fun v hv => hs.later v (h.next.trans hv)
      variants := h.live.variants }
  extended := h.extended
  outside v hv := h.outside v (mt (hWV v) hv)

theorem agreesWith (h : s.Grows sig V s') (hσ : s'.solver.subst.AgreesWith σ) :
    s.solver.subst.AgreesWith σ := hσ.of_extended h.extended

end Grows

end CheckState

namespace Check

variable {α β : Type} {c : Check α} {f : α → Check β} {o : CheckOptions}
  {P Q : α → CheckState → Prop} {P' Q' : β → CheckState → Prop}

/-- If a part of a check succeeds, the check went on, with an outcome for which `Q` holds. -/
def Infers (sig : VariantEnv) (V : TypeVar → Prop) (c : Check α) (o : CheckOptions)
    (s : CheckState) (Q : α → CheckState → Prop) : Prop :=
  ∀ a s', c o s = (.ok a, s') → s.Grows sig V s' ∧ Q a s'

/-- A part of a check succeeds, and the types for the variables so far can be continued so that they
agree with what is found out, with an outcome for which `R` holds. -/
def Achieves (c : Check α) (o : CheckOptions) (s : CheckState) (σ : Instantiation)
    (R : α → CheckState → Instantiation → Prop) : Prop :=
  ∃ a s' σ', c o s = (.ok a, s') ∧ s'.solver.subst.AgreesWith σ' ∧ (∀ v < s.next, σ' v = σ v) ∧
    R a s' σ'

namespace Infers

theorem bind (hc : Infers sig V c o s Q)
    (hf : ∀ a s₁, s.Grows sig V s₁ → Q a s₁ → Infers sig V (f a) o s₁ Q') :
    Infers sig V (c >>= f) o s Q' := by
  intro b s' hrun
  rw [bind_apply] at hrun
  rcases hc₁ : c o s with ⟨e | a, s₁⟩
  · rw [hc₁] at hrun
    cases hrun
  · rw [hc₁] at hrun
    obtain ⟨hgrows, hq⟩ := hc a s₁ hc₁
    obtain ⟨hgrows', hq'⟩ := hf a s₁ hgrows hq b s' hrun
    exact ⟨hgrows.trans hgrows', hq'⟩

theorem pure {a : α} (hs : s.Live sig V) (ha : Q a s) :
    Infers sig V (Pure.pure a : Check α) o s Q := by
  rintro _ _ ⟨rfl, rfl⟩
  exact ⟨.refl hs, ha⟩

theorem fail (cause : TypeError.Cause) (range : Range) :
    Infers sig V (Check.fail cause range : Check α) o s Q := by
  rintro _ _ ⟨⟩

theorem mono (hc : Infers sig V c o s P) (h : ∀ a s', s.Grows sig V s' → P a s' → Q a s') :
    Infers sig V c o s Q := fun a s' hrun =>
  have ⟨hgrows, hp⟩ := hc a s' hrun
  ⟨hgrows, h a s' hgrows hp⟩

/-- A step with a known outcome that only hands out variables. -/
theorem of_idle {a : α} (hs : s.Live sig V) (hrun : c o s = (.ok a, s')) (h : s.Idle s')
    (ha : Q a s') : Infers sig V c o s Q := by
  intro b s₁ hrun₁
  obtain ⟨ha', rfl⟩ := Prod.mk.inj (hrun.symm.trans hrun₁)
  obtain rfl := Except.ok.inj ha'
  exact ⟨.of_idle hs h, ha⟩

end Infers

namespace Achieves

variable {R : α → CheckState → Instantiation → Prop} {R' : β → CheckState → Instantiation → Prop}

/-- After each part, what it infers in general is known of what it achieved. -/
theorem bind (hc : Achieves c o s σ R) (hinfers : Infers sig V c o s Q)
    (hf : ∀ a s₁ σ₁, s.Grows sig V s₁ → Q a s₁ → s₁.solver.subst.AgreesWith σ₁ →
      (∀ v < s.next, σ₁ v = σ v) → R a s₁ σ₁ → Achieves (f a) o s₁ σ₁ R') :
    Achieves (c >>= f) o s σ R' := by
  obtain ⟨a, s₁, σ₁, hrun, hσ₁, hsame, hr⟩ := hc
  obtain ⟨hgrows, hq⟩ := hinfers a s₁ hrun
  obtain ⟨b, s', σ', hrun', hσ', hsame', hr'⟩ := hf a s₁ σ₁ hgrows hq hσ₁ hsame hr
  refine ⟨b, s', σ', ?_, hσ', fun v hv => ?_, hr'⟩
  · rw [bind_apply, hrun]
    exact hrun'
  · rw [hsame' v (hv.trans_le hgrows.next), hsame v hv]

theorem pure {a : α} (hσ : s.solver.subst.AgreesWith σ) (ha : R a s σ) :
    Achieves (Pure.pure a : Check α) o s σ R := ⟨a, s, σ, rfl, hσ, fun _ _ => rfl, ha⟩

/-- A step with a known outcome that only hands out variables. -/
theorem of_idle {a : α} (hσ : s.solver.subst.AgreesWith σ) (hrun : c o s = (.ok a, s'))
    (h : s.Idle s') : Achieves c o s σ fun _ _ σ' => σ' = σ :=
  ⟨a, s', σ, hrun, h.solver ▸ hσ, fun _ _ => rfl, rfl⟩

end Achieves

section Steps

variable {range : Range} {a b : Ty}

theorem live_newVars {rs : List Range} (hs : s.Live sig V) (ht : t ∈ newVars s.next rs) :
    t.Live V (s.skip rs.length).next := by
  obtain ⟨v, r, rfl, hle, hlt⟩ := mem_newVars ht
  exact .var (hs.later v hle) hlt r

theorem infers_fresh (hs : s.Live sig V) (range : Range) :
    Infers sig V (fresh range) o s fun t s' => t.Live V s'.next :=
  .of_idle hs (fresh_apply range o s) (s.idle_skip 1)
    (.var (hs.later _ (Nat.le_refl _)) (Nat.lt_succ_self _) range)

theorem achieves_fresh (hs : s.Live sig V) (hσ : s.solver.subst.AgreesWith σ) (range : Range)
    (τ : MonoTy) : Achieves (fresh range) o s σ fun t _ σ' => t.mono σ' = τ := by
  have hsame : ∀ v < s.next, Function.update σ s.next τ v = σ v := fun v hv =>
    Function.update_of_ne (Nat.ne_of_lt hv) _ _
  exact ⟨_, _, Function.update σ s.next τ, fresh_apply range o s, hs.agreesWith_of_eq hσ hsame,
    hsame, Function.update_self _ _ _⟩

/-- Types for several variables that are handed out in a row. -/
theorem exists_monos_newVars (σ : Instantiation) (n : TypeVar) (rs : List Range)
    (τs : List MonoTy) (hlength : τs.length = rs.length) :
    ∃ σ', (∀ v < n, σ' v = σ v) ∧ Ty.monos σ' (newVars n rs) = τs := by
  induction rs generalizing σ n τs with
  | nil => exact ⟨σ, fun _ _ => rfl, (List.length_eq_zero_iff.1 hlength).symm⟩
  | cons r rs ih =>
      cases τs with
      | nil => simp at hlength
      | cons τ τs =>
          obtain ⟨σ', hsame, hτs⟩ := ih (Function.update σ n τ) (n + 1) τs (by simpa using hlength)
          have hn : σ' n = τ := by rw [hsame n (Nat.lt_succ_self n), Function.update_self]
          refine ⟨σ', fun v hv => ?_, ?_⟩
          · rw [hsame v (Nat.lt_succ_of_lt hv), Function.update_of_ne (Nat.ne_of_lt hv)]
          · exact congrArg₂ List.cons hn hτs

/-- If two types are made equal, they mean the same from then on. -/
theorem infers_unify (hs : s.Live sig V) (ha : a.Live V s.next) (hb : b.Live V s.next)
    (range : Range) :
    Infers sig V (unify a b range) o s fun _ s' =>
      ∀ σ, s'.solver.subst.AgreesWith σ → a.mono σ = b.mono σ := by
  have hps : AllSimple False [(a, b)] := by simp [AllSimple, ha.simple, hb.simple]
  have hs₀ : s.solver.forget.Proper False := hs.proper.forget
  obtain ⟨r, solver, hrun, hunify⟩ := Solver.unify_runs hs.proper.simple ha.simple hb.simple
  intro _ s' hout
  rw [unify_apply, hunify] at hout
  cases r with
  | some e => cases hout
  | none =>
      obtain rfl : s.learn o solver = s' := (Prod.mk.inj hout).2
      have hbinds := hrun.binds hs₀ hps hs.plain
      obtain ⟨hclosed, hsame⟩ := hrun.region hs₀.simple hps
        (V := V) ⟨hs.closed.binding, hs.closed.kind⟩ (by simp [AllInside, ha.live, hb.live])
      have hsimple := hbinds.proper.triangular.simple
      refine ⟨⟨Nat.le_refl _, ⟨hs.wf.learn ha.known hb.known hrun, hbinds.proper.triangular,
        hbinds.plain, hclosed, hs.later, hs.variants⟩, hbinds.extended,
        fun v hv => (hsame v hv).1⟩, fun σ hσ => MonoTy.eq_of_ground fun θ => ?_⟩
      rw [ha.simple.ground_mono, hb.simple.ground_mono]
      exact (hσ.solvedBy hsimple).ground_eq hsimple ha.simple hb.simple
        (hrun.alike_of_plain hs₀ hps hs.plain rfl).head

/-- Types that mean the same are made equal. -/
theorem achieves_unify (hs : s.Live sig V) (ha : a.Live V s.next) (hb : b.Live V s.next)
    (hσ : s.solver.subst.AgreesWith σ) (heq : a.mono σ = b.mono σ) (range : Range) :
    Achieves (unify a b range) o s σ fun _ _ σ' => σ' = σ := by
  have hps : AllSimple False [(a, b)] := by simp [AllSimple, ha.simple, hb.simple]
  have hs₀ : s.solver.forget.Proper False := hs.proper.forget
  obtain ⟨r, solver, hrun, hunify⟩ := Solver.unify_runs hs.proper.simple ha.simple hb.simple
  have hfuel := Runs.ne_outOfFuel_of_plain (s := s.solver.forget) hrun hs₀ ha.simple hb.simple
    hs.plain
  have hbinds := hrun.binds hs₀ hps hs.plain
  have hsolved : ∀ θ, r = none ∧ solver.SolvedBy fun v => (σ v).ground θ := by
    intro θ
    have hθ : s.solver.forget.SolvedBy fun v => (σ v).ground θ := by
      refine ⟨hσ.solvedBy hs.triangular.simple, fun v => ?_⟩
      rw [show s.solver.forget.kindOf v = _ from hs.plain v]
      trivial
    have hequal : AllEqual (fun v => (σ v).ground θ) [(a, b)] := by
      simp [AllEqual, ← ha.simple.ground_mono, ← hb.simple.ground_mono, heq]
    exact (hrun.solved hs₀.simple hps hθ hequal).1.resolve_right hfuel
  obtain rfl := (hsolved fun _ => .base .unit).1
  refine ⟨(), s.learn o solver, σ, ?_, ?_, fun _ _ => rfl, rfl⟩
  · rw [unify_apply, hunify]
    rfl
  · exact Substitution.agreesWith_of_solvedBy hbinds.proper.triangular.simple
      fun θ => (hsolved θ).2.binding

end Steps

end Check

end FieldML
