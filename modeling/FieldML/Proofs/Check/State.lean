import FieldML.Check.Basic
import FieldML.Proofs.Unify.Fuel

/-!
# States of a check

Whatever a check does, it hands out variables in ascending order, gives kinds and types only to
variables that it handed out, and keeps a record of all comparisons and of all kinds it has given.
Ranks that fit this record fit everything that is known in the state.
-/

namespace FieldML

/-- A type without quantifiers whose variables all lie below `n`. -/
structure Ty.Known (n : TypeVar) (t : Ty) : Prop where
  simple : t.Simple True
  below : t.Inside (· < n)

/-- A kind whose fields are in order and have types with variables below `n`. -/
structure Kind.Known (n : TypeVar) (k : Kind) : Prop where
  simple : k.Simple True
  below : ∀ p ∈ k.fields, p.2.Inside (· < n)

/-- A type that may be quantified at its head, with all variables and binders below `n`. -/
inductive Ty.Scheme (n : TypeVar) : Ty → Prop
  | plain {t : Ty} (ht : t.Known n) : Scheme n t
  | all {v : TypeVar} {k : Kind} {t : Ty} (r : Range) (hv : v < n) (hk : k.Known n)
      (ht : Scheme n t) : Scheme n (.all v k t r)

/-- All names have schemes with variables below `n`. -/
def TypeEnv.Known (n : TypeVar) (env : TypeEnv) : Prop := ∀ p ∈ env, p.2.Scheme n

section Known

variable {n m : TypeVar} {t u : Ty} {k : Kind}

theorem Ty.Inside.mono {V W : TypeVar → Prop} (h : t.Inside V) (hVW : ∀ v, V v → W v) :
    t.Inside W := fun v hv => hVW v (h v hv)

theorem Ty.Known.mono (h : t.Known n) (hnm : n ≤ m) : t.Known m :=
  ⟨h.simple, h.below.mono fun _ hv => hv.trans_le hnm⟩

theorem Kind.Known.mono (h : k.Known n) (hnm : n ≤ m) : k.Known m :=
  ⟨h.simple, fun p hp => (h.below p hp).mono fun _ hv => hv.trans_le hnm⟩

theorem Kind.known_universal : Kind.universal.Known n := ⟨simple_universal, List.forall_mem_nil _⟩

theorem Ty.Scheme.mono (h : t.Scheme n) (hnm : n ≤ m) : t.Scheme m := by
  induction h with
  | plain ht => exact .plain (ht.mono hnm)
  | all r hv hk ht ih => exact .all r (hv.trans_le hnm) (hk.mono hnm) ih

theorem TypeEnv.Known.mono {env : TypeEnv} (h : TypeEnv.Known n env) (hnm : n ≤ m) :
    TypeEnv.Known m env := fun p hp => (h p hp).mono hnm

theorem TypeEnv.Known.insert {env : TypeEnv} (h : TypeEnv.Known n env) (ht : t.Scheme n)
    (name : String) : TypeEnv.Known n (Fields.insert name t env) := by
  rintro ⟨other, u⟩ hp
  rcases Fields.mem_insert hp with heq | hp
  · obtain ⟨-, rfl⟩ := Prod.mk.inj heq
    exact ht
  · exact h _ hp

namespace Ty.Known

theorem var {v : TypeVar} (hv : v < n) (r : Range) : (Ty.var v r).Known n :=
  ⟨.var v r, fun _ hw => mem_freeVars_var.1 hw ▸ hv⟩

theorem base (b : BaseTy) (r : Range) : (Ty.base b r).Known n :=
  ⟨.base b r, fun _ hw => (mem_freeVars_base.1 hw).elim⟩

theorem func (ht : t.Known n) (hu : u.Known n) (r : Range) : (Ty.func t u r).Known n :=
  ⟨.func r ht.simple hu.simple, fun v hv => (mem_freeVars_func.1 hv).elim (ht.below v) (hu.below v)⟩

theorem list (ht : t.Known n) (r : Range) : (Ty.list t r).Known n := ⟨.list r ht.simple, ht.below⟩

theorem ref (ht : t.Known n) (r : Range) : (Ty.ref t r).Known n := ⟨.ref r ht.simple, ht.below⟩

theorem product {ts : List Ty} (hts : ∀ t ∈ ts, t.Known n) (r : Range) :
    (Ty.product ts r).Known n :=
  ⟨.product r fun t ht => (hts t ht).simple, fun v hv =>
    have ⟨t, ht, hv⟩ := mem_freeVars_product.1 hv
    (hts t ht).below v hv⟩

theorem variant {ts : List Ty} (hts : ∀ t ∈ ts, t.Known n) (name : String) (r : Range) :
    (Ty.variant name ts r).Known n :=
  ⟨.variant name r fun t ht => (hts t ht).simple, fun v hv =>
    have ⟨t, ht, hv⟩ := mem_freeVars_variant.1 hv
    (hts t ht).below v hv⟩

theorem record {fs : List (String × Ty)} (hsorted : Fields.Sorted fs)
    (hfs : ∀ p ∈ fs, p.2.Known n) (r : Range) : (Ty.record fs r).Known n :=
  ⟨.record r hsorted fun p hp => (hfs p hp).simple, fun v hv =>
    have ⟨p, hp, hv⟩ := mem_freeVars_record.1 hv
    (hfs p hp).below v hv⟩

protected theorem withRange (ht : t.Known n) (r : Range) : (t.withRange r).Known n :=
  ⟨ht.simple.withRange r, fun v hv => ht.below v (by rwa [freeVars_withRange] at hv)⟩

end Ty.Known

end Known

/-- Declarations mention their own parameters only, and every constructor is listed with its
variant. -/
structure VariantEnv.Wf (env : VariantEnv) : Prop where
  synonyms : ∀ name params body, env.definition? name = some (.synonym params body) →
    body.Simple True ∧ ∀ v ∈ body.freeVars, v ∈ params
  args : ∀ name c, env.constructor? name = some c →
    ∀ t ∈ c.args, t.Simple True ∧ ∀ v ∈ t.freeVars, v ∈ c.params
  listed : ∀ name c, env.constructor? name = some c →
    ∃ ctors, env.definition? c.variant = some (.variant c.params ctors) ∧ name ∈ ctors

/-- Moreover the parameters of a constructor are different variables below `n`. -/
structure VariantEnv.Known (n : TypeVar) (env : VariantEnv) : Prop extends env.Wf where
  params : ∀ name c, env.constructor? name = some c → c.params.Nodup ∧ ∀ v ∈ c.params, v < n

theorem VariantEnv.Known.mono {n m : TypeVar} {env : VariantEnv} (h : env.Known n)
    (hnm : n ≤ m) : env.Known m :=
  ⟨h.toWf, fun name c hc => ⟨(h.params name c hc).1, fun v hv =>
    ((h.params name c hc).2 v hv).trans_le hnm⟩⟩

namespace CheckState

variable {s s' s₁ : CheckState} {h : TypeVar → Nat}

/-- Everything that the check has compared and given a kind so far allows the ranks. -/
structure Levelled (h : TypeVar → Nat) (s : CheckState) : Prop where
  compared : Unify.AllEven h s.compared
  kinded : ∀ p ∈ s.kinded, ∀ q ∈ p.2.fields, q.2.height h < h p.1

/-- What holds in every state of a check. -/
structure Wf (s : CheckState) : Prop where
  simple : s.solver.Simple True
  closed : s.solver.Closed (· < s.next)
  fresh : ∀ v, s.next ≤ v →
    s.solver.subst.find? v = none ∧ s.solver.kinds.kinds[v]? = none
  variants : s.variants.Known s.next
  steady : ∀ h, s.Levelled h → s.solver.subst.Triangular True ∧ s.solver.Ranked h

/-- Between the two states nothing was declared, and nothing was forgotten. -/
structure Leads (s s' : CheckState) : Prop where
  next : s.next ≤ s'.next
  compared : s.compared ⊆ s'.compared
  kinded : s.kinded ⊆ s'.kinded
  variants : s'.variants = s.variants

theorem Leads.refl (s : CheckState) : s.Leads s :=
  ⟨Nat.le_refl _, fun _ h => h, fun _ h => h, rfl⟩

theorem Leads.trans (h₁ : s.Leads s₁) (h₂ : s₁.Leads s') : s.Leads s' :=
  ⟨h₁.next.trans h₂.next, fun _ h => h₂.compared (h₁.compared h),
    fun _ h => h₂.kinded (h₁.kinded h), h₂.variants.trans h₁.variants⟩

theorem Leads.levelled (hlead : s.Leads s') (h' : s'.Levelled h) : s.Levelled h :=
  ⟨h'.compared.subset hlead.compared, fun p hp => h'.kinded p (hlead.kinded hp)⟩

end CheckState

/-- The check gave up on a comparison, which only happens to want of fuel. -/
def TypeError.OutOfFuel (e : TypeError) : Prop :=
  ∃ c, e.cause = .contradiction c ∧ c.reason = .outOfFuel

namespace Check

variable {α β : Type} {m : Check α} {f : α → Check β} {o : CheckOptions} {s s' : CheckState}
  {Q R : α → CheckState → Prop} {Q' : β → CheckState → Prop}

/-- A part of a check ends in a state as it should be, with an outcome for which `Q` holds if it
succeeds; and it gives up on a comparison only where no ranks are possible. -/
def Keeps (m : Check α) (o : CheckOptions) (s : CheckState) (Q : α → CheckState → Prop) : Prop :=
  s.Leads (m o s).2 ∧ (m o s).2.Wf ∧
    match m o s with
    | (.ok a, s') => Q a s'
    | (.error e, s') => e.OutOfFuel → ∀ h, ¬s'.Levelled h

theorem bind_apply (m : Check α) (f : α → Check β) (o : CheckOptions) (s : CheckState) :
    (m >>= f) o s = match m o s with
      | (.ok a, s') => f a o s'
      | (.error e, s') => (.error e, s') := by
  simp only [bind, ReaderT.bind, ExceptT.bind, ExceptT.mk, ExceptT.bindCont, StateT.bind]
  rcases m o s with ⟨_ | _, _⟩ <;> rfl

theorem Keeps.bind (hm : Keeps m o s Q)
    (hf : ∀ a s₁, s.Leads s₁ → s₁.Wf → Q a s₁ → Keeps (f a) o s₁ Q') :
    Keeps (m >>= f) o s Q' := by
  unfold Keeps at hm ⊢
  rw [bind_apply]
  rcases hrun : m o s with ⟨e | a, s₁⟩
  · rw [hrun] at hm
    exact hm
  · rw [hrun] at hm
    obtain ⟨hlead, hwf, hq⟩ := hm
    obtain ⟨hlead', hwf', hq'⟩ := hf a s₁ hlead hwf hq
    exact ⟨hlead.trans hlead', hwf', hq'⟩

theorem Keeps.mono (hm : Keeps m o s Q)
    (h : ∀ a s', s.Leads s' → s'.Wf → Q a s' → R a s') : Keeps m o s R := by
  unfold Keeps at hm ⊢
  rcases hrun : m o s with ⟨e | a, s₁⟩
  · rw [hrun] at hm
    exact hm
  · rw [hrun] at hm
    exact ⟨hm.1, hm.2.1, h a s₁ hm.1 hm.2.1 hm.2.2⟩

theorem Keeps.pure (hs : s.Wf) {a : α} (ha : Q a s) : Keeps (Pure.pure a : Check α) o s Q :=
  ⟨.refl s, hs, ha⟩

end Check

end FieldML
