import FieldML.Proofs.Place.Ty
import FieldML.Proofs.Unify.Rules

/-!
# Unification does not make ranges

A solver learns types from the two that it makes equal, so that all ranges that it knows come from
types it was given. The types of a contradiction are two of these.
-/

namespace FieldML

namespace Unify

variable {R : Range → Prop} {α β : Type} {p : Unify α} {Q : α → Prop} {Q' : β → Prop}

/-- The step keeps the property of all ranges that the solver knows, and `Q` holds of its outcome. -/
def Carries (R : Range → Prop) (p : Unify α) (Q : α → Prop) : Prop :=
  ∀ s : Solver, s.All R → (p.run s).2.All R ∧ ∀ a, (p.run s).1 = .ok a → Q a

theorem Carries.bind {f : α → Unify β} (hp : Carries R p Q)
    (hf : ∀ a, Q a → Carries R (f a) Q') : Carries R (p >>= f) Q' := by
  intro s hs
  obtain ⟨hstate, hresult⟩ := hp s hs
  rw [run_bind]
  rcases hrun : p.run s with ⟨e | a, s₁⟩
  · rw [hrun] at hstate
    exact ⟨hstate, nofun⟩
  · rw [hrun] at hstate hresult
    exact hf a (hresult a rfl) s₁ hstate

theorem Carries.pure {a : α} (h : Q a) : Carries R (Pure.pure a) Q := by
  intro s hs
  refine ⟨hs, fun b hb => ?_⟩
  obtain rfl := Except.ok.inj hb
  exact h

theorem carries_throw (e : Reason) : Carries R (throw e : Unify α) Q := fun _ hs => ⟨hs, nofun⟩

theorem carries_get_bind {f : Solver → Unify α} (h : ∀ s : Solver, s.All R → Carries R (f s) Q) :
    Carries R (get >>= f) Q := fun s hs => h s hs s hs

theorem carries_assign {t : Ty} (ht : t.All R) (v : TypeVar) :
    Carries R (assign v t) fun _ => True := fun _ hs => ⟨hs.bind ht v, fun _ _ => trivial⟩

theorem carries_refine {k : Kind} (hk : k.All R) (v : TypeVar) :
    Carries R (refine v k) fun _ => True := fun _ hs => ⟨hs.refine hk v, fun _ _ => trivial⟩

theorem carries_kindOf (v : TypeVar) : Carries R (kindOf v) (Kind.All R) :=
  carries_get_bind fun _ hs => .pure (hs.kind v)

/-- The parts of types are made equal in that way. -/
abbrev CarriesEquate (R : Range → Prop) (eq : Equate) : Prop :=
  ∀ t u : Ty, t.All R → u.All R → Carries R (eq t u) fun _ => True

variable {eq : Equate} {t u : Ty} {k k' : Kind} {ts us : List Ty} {fs gs : List (String × Ty)}
  {v w : TypeVar}

theorem carries_equateAll (heq : CarriesEquate R eq) (hts : Ty.AllList R ts)
    (hus : Ty.AllList R us) : Carries R (equateAll eq ts us) fun _ => True := by
  induction ts generalizing us with
  | nil => exact .pure trivial
  | cons t ts ih =>
      cases us with
      | nil => exact .pure trivial
      | cons u us => exact (heq t u hts.1 hus.1).bind fun _ _ => ih hts.2 hus.2

theorem carries_components (heq : CarriesEquate R eq) (hts : Ty.AllList R ts)
    (hus : Ty.AllList R us) : Carries R (components eq ts us) fun _ => True := by
  unfold components
  split
  · exact carries_equateAll heq hts hus
  · exact carries_throw _

theorem carries_fieldwise (heq : CarriesEquate R eq) (hfs : Ty.AllFields R fs)
    (hgs : Ty.AllFields R gs) : Carries R (fieldwise eq fs gs) fun _ => True := by
  induction fs with
  | nil => exact .pure trivial
  | cons p fs ih =>
      obtain ⟨name, t⟩ := p
      refine Carries.bind (Q := fun _ => True) ?_ fun _ _ => ih hfs.2
      dsimp only
      split
      · next u hu => exact heq t u hfs.1 (hgs.get? hu)
      · exact carries_throw _

theorem carries_recordFields (heq : CarriesEquate R eq) (hfs : Ty.AllFields R fs)
    (hgs : Ty.AllFields R gs) : Carries R (recordFields eq fs gs) fun _ => True := by
  unfold recordFields
  split
  · exact carries_throw _
  · exact carries_throw _
  · exact carries_fieldwise heq hfs hgs

theorem Carries.foldlM {γ : Type} {f : α → γ → Unify α} {I : α → Prop} {xs : List γ}
    (h : ∀ a, I a → ∀ x ∈ xs, Carries R (f a x) I) {a : α} (ha : I a) :
    Carries R (xs.foldlM f a) I := by
  induction xs generalizing a with
  | nil => exact .pure ha
  | cons x xs ih =>
      exact (h a ha x (.head _)).bind fun b hb =>
        ih (fun c hc y hy => h c hc y (.tail _ hy)) hb

theorem carries_mergeKinds (heq : CarriesEquate R eq) (hk : k.All R) (hk' : k'.All R) :
    Carries R (mergeKinds eq k k') (Kind.All R) := by
  cases k with
  | universal => exact .pure hk'
  | record fs =>
      cases k' with
      | universal => exact .pure hk
      | record gs =>
          refine (Carries.foldlM (I := Ty.AllFields R) (fun merged hmerged p hp => ?_) hk).bind
            fun merged hmerged => .pure hmerged
          have hp : p.2.All R := (Ty.allFields_iff.1 hk') p hp
          dsimp only
          split
          · next t ht =>
              exact (heq t p.2 (Ty.AllFields.get? hk ht) hp).bind fun _ _ => .pure hmerged
          · exact .pure (hmerged.insert hp p.1)

theorem carries_satisfy (heq : CarriesEquate R eq) (hk : k.All R) (ht : t.All R) :
    Carries R (satisfy eq k t) fun _ => True := by
  unfold satisfy
  split
  · exact .pure trivial
  · refine carries_get_bind fun s hs => ?_
    have hexpand := (hs.apply ht).expand
    split
    · next heq' =>
        rw [heq'] at hexpand
        exact carries_fieldwise heq hk hexpand.1
    · apply (carries_kindOf _).bind
      intro k' hk'
      exact (carries_mergeKinds heq hk hk').bind fun merged hmerged => carries_refine hmerged _
    · exact carries_throw _

theorem carries_joinVars (heq : CarriesEquate R eq) {r : Range} (hr : R r) :
    Carries R (joinVars eq v w r) fun _ => True := by
  unfold joinVars
  apply (carries_kindOf v).bind
  intro k hk
  apply (carries_kindOf w).bind
  intro k' hk'
  apply (carries_mergeKinds heq hk hk').bind
  intro merged hmerged
  refine (carries_assign (t := .var w r) hr v).bind fun _ _ => carries_get_bind fun _ _ => ?_
  split
  · exact .pure trivial
  · dsimp only
    split
    · exact carries_throw _
    · exact carries_refine hmerged w

theorem carries_bindVar (heq : CarriesEquate R eq) (ht : t.All R) :
    Carries R (bindVar eq v t) fun _ => True := by
  unfold bindVar
  split
  · exact carries_joinVars heq ht
  · split
    · exact carries_throw _
    · apply (carries_assign ht v).bind
      intro _ _
      apply (carries_kindOf v).bind
      intro k hk
      exact carries_satisfy heq hk ht

theorem carries_sameKind (heq : CarriesEquate R eq) (hk : k.All R) (hk' : k'.All R) :
    Carries R (sameKind eq k k') fun _ => True := by
  unfold sameKind
  split
  · exact .pure trivial
  · split
    · exact carries_fieldwise heq hk hk'
    · exact carries_throw _
  · exact carries_throw _

theorem carries_quantified (heq : CarriesEquate R eq) (herased : R .erased)
    (outer : List TypeVar) (hk : k.All R) (ht : t.All R) (hk' : k'.All R) (hu : u.All R) :
    Carries R (quantified eq outer v k t w k' u) fun _ => True := by
  unfold quantified
  have hbinder : (Ty.var v .erased).All R := herased
  apply (carries_sameKind heq hk (hk'.substitute hbinder)).bind
  intro _ _
  refine (heq _ _ ht (hu.substitute hbinder)).bind fun _ _ => carries_get_bind fun s hs => ?_
  split
  · exact carries_throw _
  · exact .pure trivial

theorem carries_heads (heq : CarriesEquate R eq) (herased : R .erased) (ht : t.All R)
    (hu : u.All R) : Carries R (heads eq t u) fun _ => True := by
  unfold heads
  split
  · split
    · exact .pure trivial
    · exact carries_bindVar heq hu
  · exact carries_bindVar heq hu
  · exact carries_bindVar heq ht
  · split
    · exact .pure trivial
    · exact carries_throw _
  · exact (heq _ _ ht.1 hu.1).bind fun _ _ => heq _ _ ht.2.1 hu.2.1
  · exact heq _ _ ht.1 hu.1
  · exact heq _ _ ht.1 hu.1
  · exact carries_components heq ht.1 hu.1
  · split
    · exact carries_components heq ht.1 hu.1
    · exact carries_throw _
  · exact carries_recordFields heq ht.1 hu.1
  · exact carries_quantified heq herased _ ht.1 ht.2.1 hu.1 hu.2.1
  · exact carries_throw _

theorem carries_equate (herased : R .erased) (n : Nat) : CarriesEquate R (equate n) := by
  induction n with
  | zero => exact fun _ _ _ _ => carries_throw _
  | succ n ih =>
      intro t u ht hu
      refine carries_get_bind fun s hs => ?_
      have ht' := (hs.apply ht).expand
      have hu' := (hs.apply hu).expand
      have hcompared : Carries R (modify fun s' : Solver =>
          { s' with compared :=
            ((s.subst.apply t).expand, (s.subst.apply u).expand) :: s'.compared } : Unify Unit)
          fun _ => True := fun s' hs' => ⟨hs'.forget _, fun _ _ => trivial⟩
      exact hcompared.bind fun _ _ => carries_heads ih herased ht' hu'

end Unify

/-- The types in a contradiction are the two that were to be made equal, as far as they are known. -/
theorem Solver.All.unify {R : Range → Prop} {s : Solver} {t u : Ty} (hs : s.All R)
    (herased : R .erased) (ht : t.All R) (hu : u.All R) :
    (s.unify t u).2.All R ∧
      ∀ c, (s.unify t u).1 = .error c → c.expected.All R ∧ c.found.All R := by
  have hrun := Unify.carries_equate herased (s.fuel (t.size + u.size)) t u ht hu
    { s with compared := [] } (hs.forget [])
  unfold Solver.unify
  dsimp only
  rcases heq : (Unify.equate (s.fuel (t.size + u.size)) t u).run { s with compared := [] }
    with ⟨e | ⟨⟩, s'⟩
  · refine ⟨hs.forget _, fun c hc => ?_⟩
    obtain rfl := Except.error.inj hc
    exact ⟨hs.apply ht, hs.apply hu⟩
  · rw [heq] at hrun
    exact ⟨hrun.1, nofun⟩

end FieldML
