import FieldML.Proofs.Quantifier.Depth
import FieldML.Proofs.Quantifier.Sound

/-!
# Types that agree up to the names of bound variables are unified

A comparison of types that agree binds no variable, and it succeeds unless a renaming captures a
variable.
-/

namespace FieldML

namespace Unify

open Solver

section Logs

variable {α β : Type} {m : Unify α} {k : α → Unify β} {eq : Equate} {t u : Ty} {v : TypeVar}
  {ps : List (Ty × Ty)} {e : Option Reason}

/-- The computation keeps the record of comparisons. -/
def Logs (m : Unify α) : Prop := ∀ s, s.compared ⊆ (m.run s).2.compared

theorem logs_pure (a : α) : Logs (pure a : Unify α) := fun _ => List.Subset.refl _

theorem logs_throw (e : Reason) : Logs (throw e : Unify α) := fun _ => List.Subset.refl _

theorem Logs.bind (hm : Logs m) (hk : ∀ a, Logs (k a)) : Logs (m >>= k) := by
  intro s
  rw [run_bind]
  have hs := hm s
  rcases h : m.run s with ⟨e | a, s₁⟩
  · rw [h] at hs
    exact hs
  · rw [h] at hs
    exact List.Subset.trans hs (hk a s₁)

theorem logs_get {k : Solver → Unify β} (hk : ∀ s, Logs (k s)) : Logs (get >>= k) :=
  fun s => hk s s

theorem logs_assign (v : TypeVar) (t : Ty) : Logs (assign v t) := fun _ => List.Subset.refl _

theorem logs_refine (v : TypeVar) (k : Kind) : Logs (refine v k) := fun _ => List.Subset.refl _

theorem logs_equatePairs (heq : ∀ a b, Logs (eq a b)) : Logs (equatePairs eq ps e) := by
  induction ps with
  | nil =>
      cases e with
      | none => exact logs_pure ()
      | some e => exact logs_throw e
  | cons p ps ih =>
      have hstep : equatePairs eq (p :: ps) e =
          (eq p.1 p.2 >>= fun _ => equatePairs eq ps e) := by simp [equatePairs]
      rw [hstep]
      exact (heq _ _).bind fun _ => ih

theorem logs_mergeKinds (heq : ∀ a b, Logs (eq a b)) (k l : Kind) : Logs (mergeKinds eq k l) := by
  rw [mergeKinds_eq]
  exact (logs_equatePairs heq).bind fun _ => logs_pure _

theorem logs_satisfy (heq : ∀ a b, Logs (eq a b)) (k : Kind) (t : Ty) :
    Logs (satisfy eq k t) := by
  cases k with
  | universal => exact logs_pure ()
  | record required =>
      refine logs_get fun s => ?_
      split
      · rw [fieldwise_eq]
        exact logs_equatePairs heq
      · refine logs_get fun s' => ?_
        exact (logs_mergeKinds heq _ _).bind fun merged => logs_refine _ merged
      · exact logs_throw _

theorem logs_joinVars (heq : ∀ a b, Logs (eq a b)) (v w : TypeVar) (r : Range) :
    Logs (joinVars eq v w r) := by
  refine logs_get fun s => logs_get fun s' => (logs_mergeKinds heq _ _).bind fun merged => ?_
  refine (logs_assign v _).bind fun _ => logs_get fun s => ?_
  split
  · exact logs_pure ()
  · dsimp only
    split
    · exact logs_throw _
    · exact logs_refine _ _

theorem logs_bindVar (heq : ∀ a b, Logs (eq a b)) (v : TypeVar) (t : Ty) :
    Logs (bindVar eq v t) := by
  unfold bindVar
  split
  · exact logs_joinVars heq _ _ _
  · split
    · exact logs_throw _
    · exact (logs_assign v _).bind fun _ => logs_get fun s => logs_satisfy heq _ _

theorem logs_escapes (outer : List TypeVar) (v : TypeVar) : Logs (escapes outer v) := by
  refine logs_get fun s => ?_
  split
  · exact logs_throw _
  · exact logs_pure ()

theorem logs_quantified (heq : ∀ a b, Logs (eq a b)) (outer : List TypeVar) (v : TypeVar)
    (k : Kind) (t : Ty) (w : TypeVar) (l : Kind) (u : Ty) :
    Logs (quantified eq outer v k t w l u) := by
  rw [quantified_eq]
  exact (logs_equatePairs heq).bind fun _ => logs_escapes outer v

theorem logs_heads (heq : ∀ a b, Logs (eq a b)) (t u : Ty) : Logs (heads eq t u) := by
  unfold heads
  split
  case h_1 =>
    split
    · exact logs_pure ()
    · exact logs_bindVar heq _ _
  case h_2 | h_3 => exact logs_bindVar heq _ _
  case h_4 =>
    split
    · exact logs_pure ()
    · exact logs_throw _
  case h_5 => exact (heq _ _).bind fun _ => heq _ _
  case h_6 | h_7 => exact heq _ _
  case h_8 =>
    rw [components_eq]
    exact logs_equatePairs heq
  case h_9 =>
    split
    · rw [components_eq]
      exact logs_equatePairs heq
    · exact logs_throw _
  case h_10 =>
    rw [recordFields_eq]
    exact logs_equatePairs heq
  case h_11 => exact logs_quantified heq _ _ _ _ _ _ _
  case h_12 => exact logs_throw _

/-- A comparison keeps the record of those before. -/
theorem logs_equate (n : Nat) (a b : Ty) : Logs (equate n a b) := by
  induction n generalizing a b with
  | zero => exact logs_throw _
  | succ n ih =>
      intro s
      exact List.Subset.trans (List.subset_cons_self _ _)
        (logs_heads ih _ _ (s.log (s.head a) (s.head b)))

end Logs

variable {B B₁ B₂ : TypeVar → Prop} {shared : Prop} {s s' : Solver} {a b t u : Ty} {v w : TypeVar}
  {n : Nat} {ps : List (Ty × Ty)} {k l : Kind} {r r' : Range}

/-- The comparison succeeded and bound no variable, or a renaming captured one, which needs that
`shared` holds. -/
def Settles (shared : Prop) (s : Solver) (out : Except Reason Unit × Solver) : Prop :=
  (out.1 = .ok () ∧ out.2.subst = s.subst ∧ out.2.kinds = s.kinds) ∨ shared ∧ out.2.Captured

theorem equatePairs_settles {eq : Equate} (hlogs : ∀ a b, Logs (eq a b))
    (hps : ∀ p ∈ ps, ∀ s', s'.subst = s.subst → s'.kinds = s.kinds →
      Settles shared s' ((eq p.1 p.2).run s')) :
    Settles shared s ((equatePairs eq ps none).run s) := by
  induction ps generalizing s with
  | nil => exact Or.inl ⟨rfl, rfl, rfl⟩
  | cons p ps ih =>
      have hstep : equatePairs eq (p :: ps) none =
          (eq p.1 p.2 >>= fun _ => equatePairs eq ps none) := by simp [equatePairs]
      rw [hstep, run_bind]
      have hfirst := hps p List.mem_cons_self s rfl rfl
      rcases hrun : (eq p.1 p.2).run s with ⟨e | ⟨⟩, s₁⟩ <;> rw [hrun] at hfirst
      · exact Or.inr (hfirst.resolve_left fun h => by simp at h)
      · rcases hfirst with ⟨-, hsubst, hkinds⟩ | ⟨hshared, hcaptured⟩
        · have hrest := ih (s := s₁) fun q hq s' hsubst' hkinds' =>
            hps q (List.mem_cons_of_mem _ hq) s' (hsubst'.trans hsubst) (hkinds'.trans hkinds)
          exact hrest.imp_left fun h => ⟨h.1, h.2.1.trans hsubst, h.2.2.trans hkinds⟩
        · exact Or.inr ⟨hshared, hcaptured.mono (logs_equatePairs hlogs s₁)⟩

theorem apply_eq_self (ht : t.Formed B) (hin : t.Inside fun v => s.subst.find? v = none) :
    s.subst.apply t = t := by
  refine ht.mapVars_eq_self (Θ := []) (Γ := []) fun p hp r => ?_
  rw [List.append_nil]
  by_cases hmem : p.2 ∈ p.1
  · exact Substitution.follow_of_mem hmem
  · refine Substitution.follow_of_find?_none (hin p.2 ?_)
    exact ht.mem_freeVarsUnder.2 ⟨p, hp, rfl, by simpa using hmem⟩

theorem escapes_run {outer : List TypeVar} (hplain : s.Plain) (hv : s.subst.find? v = none)
    (houter : ∀ x ∈ outer, s.subst.find? x = none) (hnot : v ∉ outer) :
    (escapes outer v).run s = (.ok (), s) := by
  have hreaches : ∀ x ∈ outer, reaches s x v = false := by
    intro x hx
    have hkind : s.kinds.kindOf x = .universal := hplain x
    have hne : v ≠ x := fun h => hnot (h ▸ hx)
    rw [reaches, Substitution.apply_var_of_none (houter x hx), hkind,
      Substitution.applyKind_universal]
    simp [Ty.mentions, Kind.freeVars, Kind.freeVarsUnder, hne]
  have hcond : ((s.subst.find? v).isSome || outer.any (reaches s · v)) = false := by
    simp only [hv, Option.isSome_none, Bool.false_or, List.any_eq_false]
    exact fun x hx => by simp [hreaches x hx]
  change (if _ then _ else _ : Unify Unit).run s = _
  rw [hcond]
  rfl

/-- Below two heads that agree, a comparison binds nothing if those of their parts do not. -/
theorem heads_settles {eq : Equate} (hlogs : ∀ a b, Logs (eq a b))
    (heq : ∀ a b s', s'.subst = s.subst → s'.kinds = s.kinds → a.Formed B → b.Formed B →
      (s.subst.apply a).Formed B₁ → (s.subst.apply b).Formed B₂ →
      (s.subst.apply a).Alpha (s.subst.apply b) → (s.subst.apply a).depth < t.depth →
      Settles (∃ v, B₁ v ∧ B₂ v) s' ((eq a b).run s'))
    (hplain : s.Plain) (hs : s.subst.Acyclic B) (havoid : s.subst.Avoids B) (ht : t.Formed B)
    (hu : u.Formed B) (ht₁ : t.Formed B₁) (hu₂ : u.Formed B₂)
    (hit : t.Inside fun v => s.subst.find? v = none)
    (hiu : u.Inside fun v => s.subst.find? v = none) (halpha : t.Alpha u)
    (hmem : (t, u) ∈ s.compared) :
    Settles (∃ v, B₁ v ∧ B₂ v) s ((heads eq t u).run s) := by
  have hpairs : ∀ ps : List (Ty × Ty), AllFormed B ps →
      (∀ p ∈ ps, p.1.Formed B₁ ∧ p.2.Formed B₂) →
      AllInside (fun v => s.subst.find? v = none) ps → (∀ p ∈ ps, p.1.depth < t.depth) →
      (∀ p ∈ ps, (s.subst.apply p.1).Alpha (s.subst.apply p.2)) →
      Settles (∃ v, B₁ v ∧ B₂ v) s ((equatePairs eq ps none).run s) := by
    intro ps hps hps' hin hdepth hagree
    refine equatePairs_settles hlogs fun p hp s' hsubst hkinds => ?_
    obtain ⟨hp₁, hp₂⟩ := hps p hp
    have hself₁ := apply_eq_self hp₁ (hin p hp).1
    have hself₂ := apply_eq_self hp₂ (hin p hp).2
    exact heq _ _ s' hsubst hkinds hp₁ hp₂ (hself₁.symm ▸ (hps' p hp).1)
      (hself₂.symm ▸ (hps' p hp).2) (hagree p hp) (hself₁.symm ▸ hdepth p hp)
  have hself : (s.subst.apply t).Alpha (s.subst.apply u) := by
    rwa [apply_eq_self ht hit, apply_eq_self hu hiu]
  rcases ht.cases_head with ⟨v, r, rfl⟩ | hrt | ⟨v, k, t', r, rfl⟩ <;>
    rcases hu.cases_head with ⟨w, r', rfl⟩ | hru | ⟨w, l, u', r', rfl⟩
  · have hvw : v = w := by simpa [Ty.Alpha, NamelessVar.under] using halpha
    rw [heads_var_var, if_pos hvw]
    exact Or.inl ⟨rfl, rfl, rfl⟩
  · cases u <;> first | exact hru.elim | simp [Ty.Alpha] at halpha
  · simp [Ty.Alpha] at halpha
  · cases t <;> first | exact hrt.elim | simp [Ty.Alpha] at halpha
  · have hparts := (alpha_iff_parts hrt hru ht hu).1 hself
    rw [heads_of_isRigid eq hrt hru, hparts.1]
    exact hpairs _ (parts_formed ht hu) (parts_formed ht₁ hu₂) (parts_inside hit hiu)
      (fun p hp => Ty.depth_lt_of_mem_components (mem_parts hp).1) hparts.2
  · cases t <;> first | exact hrt.elim | simp [Ty.Alpha] at halpha
  · simp [Ty.Alpha] at halpha
  · cases u <;> first | exact hru.elim | simp [Ty.Alpha] at halpha
  · by_cases hcatch : Captures v w (l.occurrences [] ++ u'.occurrences [])
    · have hcaptured : s.Captured := ⟨_, hmem, v, k, t', r, w, l, u', r', rfl, hcatch⟩
      have hv : B₁ v := by
        cases ht₁ with
        | all r hv hsorted hk ht => exact hv
      exact Or.inr ⟨⟨v, hv, hu₂.of_captures hcatch⟩, hcaptured.mono (logs_heads hlogs _ _ s)⟩
    · have hfree : v ∉ (Ty.all w l u' r').freeVars := fun hv =>
        ht.notMem_freeVars_all (ht.mem_freeVars_nameless.1 (halpha ▸ hu.mem_freeVars_nameless.2 hv))
      obtain ⟨hnone, hagree⟩ := (havoid.alpha_all_iff hs ht hu hcatch hfree).1 hself
      have houter : ∀ x ∈ (Ty.all v k t' r).freeVars ++ (Ty.all w l u' r').freeVars,
          s.subst.find? x = none := fun x hx => (List.mem_append.1 hx).elim (hit x) (hiu x)
      have hv : s.subst.find? v = none := by
        cases ht with
        | all r hv hsorted hk ht => exact havoid.find?_eq_none hv
      have hrun := hpairs _ (bodyPairs_formed ht hu) (bodyPairs_formed ht₁ hu₂)
        (fun p hp => (bodyPairs_inside ht hu p hp).imp
          (fun h x hx => (h x hx).elim (houter x) fun h => h ▸ hv)
          fun h x hx => (h x hx).elim (houter x) fun h => h ▸ hv)
        (fun p hp => by
          rcases mem_bodyPairs hp with ⟨n, q, hn, -, -⟩ | rfl
          · exact Ty.depth_field_lt hn
          · exact Ty.depth_body_lt) hagree
      change Settles _ s ((quantified eq _ v k t' w l u').run s)
      rw [quantified_eq, hnone, run_bind]
      rcases h : (equatePairs eq (bodyPairs v k t' w l u').1 none).run s with ⟨e | ⟨⟩, s₁⟩ <;>
        rw [h] at hrun
      · exact Or.inr (hrun.resolve_left fun h => by simp at h)
      · rcases hrun with ⟨-, hsubst, hkinds⟩ | ⟨hshared, hcaptured⟩
        · have hplain₁ : s₁.Plain := by
            intro x
            change s₁.kinds.kindOf x = _
            rw [show s₁.kinds = s.kinds from hkinds]
            exact hplain x
          have hsubst₁ : s₁.subst = s.subst := hsubst
          have hnot := List.mem_append.not.2 (not_or.2 ⟨ht.notMem_freeVars_all, hfree⟩)
          change Settles _ s ((escapes _ v).run s₁)
          rw [escapes_run hplain₁ (hsubst₁ ▸ hv) (hsubst₁ ▸ houter) hnot]
          exact Or.inl ⟨rfl, hsubst, hkinds⟩
        · exact Or.inr ⟨hshared, Captured.mono hcaptured (logs_escapes _ _ s₁)⟩

/-- Types that agree are equated without binding a variable, unless a renaming captures one. -/
theorem equate_settles (n : Nat) (a b : Ty) (s : Solver) (hplain : s.Plain)
    (hs : s.subst.Acyclic B) (havoid : s.subst.Avoids B) (ha : a.Formed B) (hb : b.Formed B)
    (ha₁ : (s.subst.apply a).Formed B₁) (hb₂ : (s.subst.apply b).Formed B₂)
    (halpha : (s.subst.apply a).Alpha (s.subst.apply b)) (hdepth : (s.subst.apply a).depth < n) :
    Settles (∃ v, B₁ v ∧ B₂ v) s ((equate n a b).run s) := by
  induction n generalizing a b s with
  | zero => exact absurd hdepth (Nat.not_lt_zero _)
  | succ n ih =>
      have hheads : Settles (∃ v, B₁ v ∧ B₂ v) (s.log (s.head a) (s.head b))
          ((heads (equate n) (s.head a) (s.head b)).run (s.log (s.head a) (s.head b))) := by
        refine heads_settles (B := B) (logs_equate n)
          (fun c d s' hsubst hkinds hc hd hc₁ hd₂ hcd hlt => ?_) hplain hs havoid
          (head_formed hs ha) (head_formed hs hb) (head_eq hs ha ▸ ha₁) (head_eq hs hb ▸ hb₂)
          (fun v => find?_of_mem_freeVars_head hs ha) (fun v => find?_of_mem_freeVars_head hs hb)
          ?_ List.mem_cons_self
        · have hsubst' : s'.subst = s.subst := hsubst
          rw [head_eq hs ha] at hlt
          replace hlt := Nat.lt_of_lt_of_le hlt (Nat.le_of_lt_succ hdepth)
          rw [subst_log, ← hsubst'] at hc₁ hd₂ hcd hlt
          refine ih c d s' (fun x => ?_) (hsubst' ▸ hs) (hsubst' ▸ havoid) hc hd hc₁ hd₂ hcd hlt
          change s'.kinds.kindOf x = _
          rw [show s'.kinds = s.kinds from hkinds]
          exact hplain x
        · rwa [head_eq hs ha, head_eq hs hb]
      exact hheads

end Unify

/-- A type whose quantifiers bind variables of `B`, none of which is free in it. -/
def Ty.Apart (B : TypeVar → Prop) (t : Ty) : Prop := t.Formed B ∧ ∀ v ∈ t.freeVars, ¬B v

namespace Solver

open Unify

variable {B B₁ B₂ : TypeVar → Prop} {s s₁ : Solver} {a b : Ty} {e : Reason} {calls : List (Ty × Ty)}

/-- No variable has a record kind, and what is known about variables keeps away from `B`. -/
structure Tame (B : TypeVar → Prop) (s : Solver) : Prop where
  plain : s.Plain
  acyclic : s.subst.Acyclic B
  avoids : s.subst.Avoids B

theorem tame_empty : ({} : Solver).Tame B where
  plain := plain_empty
  acyclic := .empty
  avoids v t h := by simp [show ({} : Solver).subst.find? v = none from
    Substitution.find?_empty] at h

theorem unify_of_ok (h : (equate (s.fuel (a.size + b.size)) a b).run s.forget = (.ok (), s₁)) :
    s.unify a b = (.ok (), s₁) := by
  simp only [unify, show ({ s with compared := [] } : Solver) = s.forget from rfl, h]

theorem unify_of_error
    (h : (equate (s.fuel (a.size + b.size)) a b).run s.forget = (.error e, s₁)) :
    s.unify a b = (.error (s.contradiction e a b), { s with compared := s₁.compared }) := by
  simp only [unify, show ({ s with compared := [] } : Solver) = s.forget from rfl, h]

namespace Tame

theorem equates (h : s.Tame B) (ha : a.Formed B) (hb : b.Formed B)
    (hrun : (equate (s.fuel (a.size + b.size)) a b).run s.forget = (.ok (), s₁)) :
    Equates s.forget [(a, b)] s₁ :=
  equate_equates _ a b s.forget s₁ h.plain h.acyclic ha hb ⟨by rw [hrun]; rfl, by rw [hrun]⟩

theorem of_equates (h : s.Tame B) (ha : a.Apart B) (hb : b.Apart B)
    (hrun : Equates s.forget [(a, b)] s₁) : s₁.Tame B := by
  have hps : AllFormed B [(a, b)] := List.forall_mem_singleton.2 ⟨ha.1, hb.1⟩
  obtain ⟨hclosed, hsame⟩ := hrun.region (V := fun v => ¬B v) h.plain h.acyclic hps
    ⟨fun v t _ hv => (h.avoids v t hv).2, fun v _ => by
      rw [show s.forget.kindOf v = .universal from h.plain v]
      exact fun _ hp => absurd hp List.not_mem_nil⟩
    (List.forall_mem_singleton.2 ⟨ha.2, hb.2⟩)
  refine ⟨hrun.plain h.plain, (hrun.acyclic h.acyclic hps).1, fun v t hv => ?_⟩
  have hB : ¬B v := fun hB => by
    have hnone := (hsame v (not_not.2 hB)).1.trans (h.avoids.find?_eq_none hB)
    rw [hv] at hnone
    cases hnone
  exact ⟨hB, hclosed.binding v t hB hv⟩

theorem unify (h : s.Tame B) (ha : a.Apart B) (hb : b.Apart B) : (s.unify a b).2.Tame B := by
  rcases hrun : (equate (s.fuel (a.size + b.size)) a b).run s.forget with ⟨e | ⟨⟩, s₁⟩
  · rw [unify_of_error hrun]
    exact ⟨h.plain, h.acyclic, h.avoids⟩
  · rw [unify_of_ok hrun]
    exact h.of_equates ha hb (h.equates ha.1 hb.1 hrun)

theorem unifyAll (h : s.Tame B) (hcalls : ∀ p ∈ calls, p.1.Apart B ∧ p.2.Apart B) :
    (s.unifyAll calls).Tame B := by
  induction calls generalizing s with
  | nil => exact h
  | cons call calls ih =>
      obtain ⟨⟨ha, hb⟩, hcalls⟩ := List.forall_mem_cons.1 hcalls
      exact ih (h.unify ha hb) hcalls

end Tame

/-- What a call does to types that may agree up to the names of bound variables. -/
structure UpToNames (a b : Ty) (s : Solver) : Prop where
  /-- If the call succeeds, the types agree afterwards. -/
  sound : (s.unify a b).1 = .ok () →
    ((s.unify a b).2.subst.apply a).Alpha ((s.unify a b).2.subst.apply b) ∨
      (s.unify a b).2.Captured
  /-- If the types agree already, the call succeeds and binds nothing. -/
  complete : (s.subst.apply a).Alpha (s.subst.apply b) →
    (s.unify a b).1 = .ok () ∧ (s.unify a b).2.subst = s.subst ∨ (s.unify a b).2.Captured
  /-- No renaming captures a variable of types that agree and share no bound variable. -/
  complete_of_disjoint : ∀ {B₁ B₂ : TypeVar → Prop}, (s.subst.apply a).Formed B₁ →
    (s.subst.apply b).Formed B₂ → (∀ v, B₁ v → ¬B₂ v) →
    (s.subst.apply a).Alpha (s.subst.apply b) →
    (s.unify a b).1 = .ok () ∧ (s.unify a b).2.subst = s.subst

theorem Tame.unify_settles (h : s.Tame B) (ha : a.Formed B) (hb : b.Formed B)
    (ha₁ : (s.subst.apply a).Formed B₁) (hb₂ : (s.subst.apply b).Formed B₂)
    (halpha : (s.subst.apply a).Alpha (s.subst.apply b)) :
    ((s.unify a b).1 = .ok () ∧ (s.unify a b).2.subst = s.subst) ∨
      (∃ v, B₁ v ∧ B₂ v) ∧ (s.unify a b).2.Captured := by
  have hsettles := equate_settles (s.fuel (a.size + b.size)) a b s.forget h.plain h.acyclic
    h.avoids ha hb ha₁ hb₂ halpha (depth_lt_fuel b h.acyclic ha)
  rcases hrun : (equate (s.fuel (a.size + b.size)) a b).run s.forget with ⟨e | ⟨⟩, s₁⟩ <;>
    rw [hrun] at hsettles
  · rw [unify_of_error hrun]
    exact Or.inr (hsettles.resolve_left fun h => by simp at h)
  · rw [unify_of_ok hrun]
    exact hsettles.imp_left fun h => ⟨rfl, h.2.1⟩

theorem Tame.unify_alpha (h : s.Tame B) (ha : a.Apart B) (hb : b.Apart B)
    (hok : (s.unify a b).1 = .ok ()) :
    ((s.unify a b).2.subst.apply a).Alpha ((s.unify a b).2.subst.apply b) ∨
      (s.unify a b).2.Captured := by
  rcases hrun : (equate (s.fuel (a.size + b.size)) a b).run s.forget with ⟨e | ⟨⟩, s₁⟩
  · rw [unify_of_error hrun] at hok
    cases hok
  · rw [unify_of_ok hrun]
    have hequates := h.equates ha.1 hb.1 hrun
    refine or_iff_not_imp_right.2 fun hno => ?_
    exact hequates.alpha h.plain h.acyclic (List.forall_mem_singleton.2 ⟨ha.1, hb.1⟩)
      (h.of_equates ha hb hequates).avoids hno _ List.mem_cons_self

/-- Quantified types unify up to the names of bound variables, whichever calls were made before and
whichever of them succeeded, as long as no renaming on the way captures a variable. -/
theorem upToNames_unifyAll (hcalls : ∀ p ∈ calls, p.1.Apart B ∧ p.2.Apart B) (ha : a.Apart B)
    (hb : b.Apart B) : (({} : Solver).unifyAll calls).UpToNames a b := by
  have h : (({} : Solver).unifyAll calls).Tame B := tame_empty.unifyAll hcalls
  refine ⟨h.unify_alpha ha hb, fun halpha => ?_, fun ha₁ hb₂ hdisjoint halpha => ?_⟩
  · have hsettles := h.unify_settles ha.1 hb.1 (h.acyclic.apply ha.1) (h.acyclic.apply hb.1) halpha
    exact hsettles.imp_right And.right
  · have hsettles := h.unify_settles ha.1 hb.1 ha₁ hb₂ halpha
    exact hsettles.resolve_right fun ⟨⟨v, hv₁, hv₂⟩, _⟩ => hdisjoint v hv₁ hv₂

/-- A variable is made the type of the identity, then two types are unified that quantify over
records with a field of this type. -/
def identityCalls : List (Ty × Ty) :=
  let identity (v : TypeVar) := Ty.all v .universal (.func (.var v .erased) (.var v .erased) .erased)
    .erased
  let choice (v w : TypeVar) (field : Ty) := Ty.all v (.record [("f", field)])
    (.all w .universal (.func (.var v .erased) (.var w .erased) .erased) .erased) .erased
  [(.var 0 .erased, identity 10), (choice 11 12 (.var 0 .erased), choice 13 12 (identity 11))]

theorem apart_identityCalls :
    ∀ p ∈ identityCalls, p.1.Apart (10 ≤ ·) ∧ p.2.Apart (10 ≤ ·) := by
  have hvar (v : TypeVar) : (Ty.var v .erased).Formed (10 ≤ ·) := .var v _
  have hidentity (v : TypeVar) (hv : 10 ≤ v) : (Ty.all v .universal
      (.func (.var v .erased) (.var v .erased) .erased) .erased).Formed (10 ≤ ·) :=
    .all _ hv Fields.sorted_nil (by simp [Kind.fields]) (.func _ (hvar v) (hvar v))
  have hchoice (v w : TypeVar) (t : Ty) (hv : 10 ≤ v) (hw : 10 ≤ w) (ht : t.Formed (10 ≤ ·)) :
      (Ty.all v (.record [("f", t)]) (.all w .universal
        (.func (.var v .erased) (.var w .erased) .erased) .erased) .erased).Formed (10 ≤ ·) :=
    .all _ hv (List.pairwise_singleton _ _) (by simpa [Kind.fields] using ht)
      (.all _ hw Fields.sorted_nil (by simp [Kind.fields]) (.func _ (hvar v) (hvar w)))
  intro p hp
  simp only [identityCalls, List.mem_cons, List.not_mem_nil, or_false] at hp
  rcases hp with rfl | rfl
  · exact ⟨⟨hvar 0, by decide⟩, hidentity 10 (by decide), by decide⟩
  · exact ⟨⟨hchoice 11 12 _ (by decide) (by decide) (hvar 0), by decide⟩,
      hchoice 13 12 _ (by decide) (by decide) (hidentity 11 (by decide)), by decide⟩

theorem upToNames_unifyAll_identityCalls :
    (∀ p ∈ identityCalls, p.1.Apart (10 ≤ ·) ∧ p.2.Apart (10 ≤ ·)) ∧
      (let s := ({} : Solver).unifyAll (identityCalls.take 1)
      s.UpToNames identityCalls[1].1 identityCalls[1].2 ∧
        (s.subst.apply identityCalls[1].1).Alpha (s.subst.apply identityCalls[1].2) ∧
        (s.unify identityCalls[1].1 identityCalls[1].2).1.isOk = true) := by
  have hapart := apart_identityCalls
  have hlast : identityCalls[1].1.Apart (10 ≤ ·) ∧ identityCalls[1].2.Apart (10 ≤ ·) :=
    hapart _ (List.getElem_mem (l := identityCalls) (n := 1) (by decide))
  exact ⟨hapart, upToNames_unifyAll (fun p hp => hapart p (List.mem_of_mem_take hp)) hlast.1
    hlast.2, by rfl, by decide +kernel⟩

/-- Two types that differ in the names of bound variables alone are refused, and two that do not
agree are granted, since a quantifier inside the second one captures the variable of the first. -/
theorem unify_confuses_binders :
    let function (v w : TypeVar) := Ty.func (.var v .erased) (.var w .erased) .erased
    let nested (v w : TypeVar) (t : Ty) := Ty.all v .universal (.all w .universal t .erased) .erased
    (nested 0 1 (function 0 1)).Alpha (nested 1 0 (function 1 0)) ∧
      (({} : Solver).unify (nested 0 1 (function 0 1)) (nested 1 0 (function 1 0))).1.isOk = false ∧
      ¬(nested 2 3 (function 3 3)).Alpha (nested 4 2 (function 4 2)) ∧
      (({} : Solver).unify (nested 2 3 (function 3 3)) (nested 4 2 (function 4 2))).1.isOk = true :=
  ⟨by rfl, by rfl, by simp [Ty.Alpha, NamelessVar.under], by rfl⟩

end Solver

end FieldML
