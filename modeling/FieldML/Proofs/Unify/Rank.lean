import FieldML.Proofs.Ground
import FieldML.Proofs.Unify.Rules

/-!
# Ranks of variables

A rank shows that the types of a solver are finite: the fields of a kind lie below its variable, and
a variable does not lie below what it was compared with. While such a rank exists, a comparison
touches no variable above its types, so the variables of a join are still free when they are joined,
and substitutions stay triangular.
-/

namespace FieldML

namespace Unify

/-- The ranks allow that two types, resolved at their heads, are equal. -/
def Even (h : TypeVar → Nat) : Ty → Ty → Prop
  | .var v _, .var w _ => h v = h w
  | .var v _, u => u.height h ≤ h v
  | t, .var w _ => t.height h ≤ h w
  | _, _ => True

variable {syn : Prop} {h : TypeVar → Nat} {n N : Nat} {s s' : Solver} {ps : List (Ty × Ty)}
  {r : Option Reason}

theorem even_var_of_isRigid {v : TypeVar} {r : Range} {t : Ty} (ht : IsRigid t) :
    Even h (.var v r) t ↔ t.height h ≤ h v := by
  cases t <;> first | exact ht.elim | exact Iff.rfl

@[simp] theorem even_var_var {v w : TypeVar} {r r' : Range} :
    Even h (.var v r) (.var w r') ↔ h v = h w := Iff.rfl

theorem even_of_isRigid_var {v : TypeVar} {r : Range} {t : Ty} (ht : IsRigid t) :
    Even h t (.var v r) ↔ t.height h ≤ h v := by
  cases t <;> first | exact ht.elim | exact Iff.rfl

theorem Even.height_le {v : TypeVar} {r : Range} {t : Ty} (ht : Even h (.var v r) t) :
    t.height h ≤ h v := by
  cases t <;> first | exact ht | exact Nat.le_of_eq ht.symm

theorem Even.height_le_var {v : TypeVar} {r : Range} {t : Ty} (ht : Even h t (.var v r)) :
    t.height h ≤ h v := by
  cases t <;> first | exact ht | exact Nat.le_of_eq ht

/-- No comparison is forgotten. -/
theorem Runs.compared_subset (hrun : Runs n s ps r s') : s.compared ⊆ s'.compared := by
  induction hrun with
  | nil | tooDeep => exact fun _ hq => hq
  | cons _ _ ih₁ ih₂ => exact fun _ hq => ih₂ (ih₁ hq)
  | stop _ ih => exact ih
  | same | occurs => exact fun _ hq => List.mem_cons_of_mem _ hq
  | rigid _ _ _ ih => exact fun _ hq => ih (List.mem_cons_of_mem _ hq)
  | bind _ _ _ _ ih => exact fun _ hq => ih (List.mem_cons_of_mem _ hq)
  | @join n s a b v w r r' s₁ _ _ _ _ _ ih =>
      intro q hq
      have := ih (List.mem_cons_of_mem _ hq)
      cases mergedKind (s.kindOf v) (s.kindOf w) <;> exact this
  | joinOccurs _ _ _ _ _ ih => exact fun _ hq => ih (List.mem_cons_of_mem _ hq)
  | joinStop _ _ _ _ ih => exact fun _ hq => ih (List.mem_cons_of_mem _ hq)

end Unify

namespace Solver

variable {syn : Prop} {h : TypeVar → Nat} {s s' : Solver} {t u : Ty} {v w : TypeVar} {k : Kind}

/-- The substitution is triangular and the kinds are simple. -/
structure Proper (syn : Prop) (s : Solver) : Prop where
  triangular : s.subst.Triangular syn
  kind : ∀ v, (s.kindOf v).Simple syn

theorem Proper.simple (hs : s.Proper syn) : s.Simple syn := ⟨hs.triangular.simple, hs.kind⟩

/-- The ranks allow the types and the kinds of all variables. -/
structure Ranked (h : TypeVar → Nat) (s : Solver) : Prop where
  binding : ∀ v t, s.subst.find? v = some t → Unify.Even h (.var v .erased) t
  kind : ∀ v, ∀ p ∈ (s.kindOf v).fields, p.2.height h < h v

/-- Following variables does not lead upwards. -/
theorem Ranked.height_apply_le (hs : s.Ranked h) (hsimple : s.subst.Simple syn)
    (ht : t.Simple syn) : (s.subst.apply t).height h ≤ t.height h := by
  have hfollow : ∀ n v r, (s.subst.follow n [] v r).height h ≤ h v := by
    intro n
    induction n with
    | zero => exact fun v r => Nat.le_refl _
    | succ n ih =>
        intro v r
        cases hv : s.subst.find? v with
        | none => rw [Substitution.follow_of_none _ hv, Ty.height]
        | some t =>
            rw [Substitution.follow_of_some _ hv]
            exact ((hsimple v t hv).height_mapVars_le ih).trans (hs.binding v t hv).height_le
  exact ht.height_mapVars_le (hfollow s.subst.size)

theorem Ranked.height_head_le (hs : s.Ranked h) (hsimple : s.subst.Simple syn)
    (ht : t.Simple syn) : (s.head t).height h ≤ t.height h := by
  rw [head, Ty.height_expand]
  exact hs.height_apply_le hsimple ht

theorem Proper.log (hs : s.Proper syn) : (s.log t u).Proper syn := ⟨hs.triangular, hs.kind⟩

theorem Proper.forget (hs : s.Proper syn) : s.forget.Proper syn := ⟨hs.triangular, hs.kind⟩

theorem Proper.assign (hs : s.Proper syn) (ht : t.Simple syn)
    (hfree : ∀ w ∈ t.freeVars, s.subst.find? w = none) (hv : v ∉ t.freeVars) :
    (s.assign v t).Proper syn :=
  ⟨hs.triangular.bind ht hfree hv, hs.kind⟩

theorem Proper.strengthen (hs : s.Proper syn) (hk : k.Simple syn) :
    (s.strengthen v k).Proper syn where
  triangular := by cases k <;> exact hs.triangular
  kind := (hs.simple.strengthen hk).kind

/-- A variable at the head of a type is free. -/
theorem Proper.find?_of_head_eq {r : Range} (hs : s.Proper syn) (ht : t.Simple syn)
    (hv : s.head t = .var v r) : s.subst.find? v = none := by
  refine hs.triangular.find?_of_mem_freeVars_apply ht ?_
  refine (hs.triangular.simple.apply ht).mem_freeVars_of_expand (v := v) ?_
  rw [← head, hv]
  simp

theorem Proper.find?_of_mem_head (hs : s.Proper syn) (ht : t.Simple syn)
    (hw : w ∈ (s.head t).freeVars) : s.subst.find? w = none :=
  hs.triangular.find?_of_mem_freeVars_apply ht
    ((hs.triangular.simple.apply ht).mem_freeVars_of_expand hw)

/-- From one state to a later one variables were only bound, and nothing changed for those whose
rank is at least `N`. -/
structure Advance (syn : Prop) (h : TypeVar → Nat) (N : Nat) (s s' : Solver) : Prop where
  proper : s'.Proper syn
  ranked : s'.Ranked h
  extended : s.subst.ExtendedBy s'.subst
  above : ∀ v, N ≤ h v → s'.subst.find? v = s.subst.find? v ∧ s'.kindOf v = s.kindOf v

namespace Advance

variable {N M : Nat} {s₁ : Solver}

theorem refl (hs : s.Proper syn) (hrank : s.Ranked h) : Advance syn h N s s :=
  ⟨hs, hrank, .refl _, fun _ _ => ⟨rfl, rfl⟩⟩

theorem log (hs : s.Proper syn) (hrank : s.Ranked h) : Advance syn h N s (s.log t u) :=
  ⟨hs.log, ⟨hrank.binding, hrank.kind⟩, .refl _, fun _ _ => ⟨rfl, rfl⟩⟩

theorem trans (h₁ : Advance syn h N s s₁) (h₂ : Advance syn h N s₁ s') : Advance syn h N s s' where
  proper := h₂.proper
  ranked := h₂.ranked
  extended := h₁.extended.trans h₂.extended
  above v hv :=
    ⟨(h₂.above v hv).1.trans (h₁.above v hv).1, (h₂.above v hv).2.trans (h₁.above v hv).2⟩

theorem mono (hadv : Advance syn h N s s') (hNM : N ≤ M) : Advance syn h M s s' :=
  ⟨hadv.proper, hadv.ranked, hadv.extended, fun v hv => hadv.above v (hNM.trans hv)⟩

theorem assign (hs : s.Proper syn) (hrank : s.Ranked h) (ht : t.Simple syn)
    (hfree : ∀ w ∈ t.freeVars, s.subst.find? w = none) (hvt : v ∉ t.freeVars)
    (hv : s.subst.find? v = none) (heven : Unify.Even h (.var v .erased) t) (hN : h v < N) :
    Advance syn h N s (s.assign v t) where
  proper := hs.assign ht hfree hvt
  ranked := by
    refine ⟨fun w u hw => ?_, hrank.kind⟩
    rw [subst_assign, Substitution.find?_bind] at hw
    split at hw
    · next he => exact he ▸ Option.some.inj hw ▸ heven
    · exact hrank.binding w u hw
  extended := Substitution.extendedBy_bind hv
  above w hw := by
    have hne : v ≠ w := by
      rintro rfl
      omega
    exact ⟨by rw [subst_assign, Substitution.find?_bind, if_neg hne], rfl⟩

theorem strengthen (hs : s.Proper syn) (hrank : s.Ranked h) (hk : k.Simple syn)
    (hfields : ∀ p ∈ k.fields, p.2.height h < h v) (hN : h v < N) :
    Advance syn h N s (s.strengthen v k) where
  proper := hs.strengthen hk
  ranked := by
    cases k with
    | universal => exact hrank
    | record fs =>
        refine ⟨hrank.binding, fun w => ?_⟩
        rw [Solver.strengthen, kindOf_refine]
        split
        · next he => exact he ▸ hfields
        · exact hrank.kind w
  extended := by cases k <;> exact .refl _
  above w hw := by
    cases k with
    | universal => exact ⟨rfl, rfl⟩
    | record fs =>
        have hne : v ≠ w := by
          rintro rfl
          omega
        exact ⟨rfl, by rw [Solver.strengthen, kindOf_refine, if_neg hne]⟩

/-- Variables that are free before the shared fields of their kinds are compared are free
afterwards, and one of them may stand for the other. -/
theorem join (hadv : Advance syn h (h v) s s₁) (hv : s.subst.find? v = none)
    (hw : s.subst.find? w = none) (hvw : v ≠ w) (heq : h v = h w) (hN : h v < N) (r : Range) :
    Advance syn h N s (s₁.assign v (.var w r)) := by
  have hv₁ := (hadv.above v (Nat.le_refl _)).1.trans hv
  have hw₁ := (hadv.above w (Nat.le_of_eq heq)).1.trans hw
  refine (hadv.mono (Nat.le_of_lt hN)).trans (.assign hadv.proper hadv.ranked (.var w r) ?_ ?_ hv₁
    heq hN)
  · intro x hx
    obtain rfl := Ty.mem_freeVars_var.1 hx
    exact hw₁
  · exact fun hx => hvw (Ty.mem_freeVars_var.1 hx)

end Advance

end Solver

namespace Unify

open Solver

variable {syn : Prop} {h : TypeVar → Nat} {n N : Nat} {s s' s₁ : Solver} {ps : List (Ty × Ty)}
  {r : Option Reason} {a b t : Ty} {v w : TypeVar}

/-- Both types of every pair lie below `N`. -/
def AllBelow (h : TypeVar → Nat) (N : Nat) (ps : List (Ty × Ty)) : Prop :=
  ∀ p ∈ ps, p.1.height h < N ∧ p.2.height h < N

theorem AllBelow.head {p : Ty × Ty} (hps : AllBelow h N (p :: ps)) : AllBelow h N [p] :=
  fun _ hq => hps _ (by simpa using Or.inl hq)

theorem AllBelow.tail {p : Ty × Ty} (hps : AllBelow h N (p :: ps)) : AllBelow h N ps :=
  fun _ hq => hps _ (List.mem_cons_of_mem _ hq)

/-- All comparisons so far are even. -/
def AllEven (h : TypeVar → Nat) (ps : List (Ty × Ty)) : Prop := ∀ p ∈ ps, Even h p.1 p.2

theorem AllEven.subset {qs : List (Ty × Ty)} (hqs : AllEven h qs) (hsub : ps ⊆ qs) :
    AllEven h ps := fun p hp => hqs p (hsub hp)

theorem Runs.even_of_mem (hrun : Runs n s ps r s') (heven : AllEven h s'.compared)
    (hmem : (a, b) ∈ s.compared) : Even h a b := heven (a, b) (hrun.compared_subset hmem)

theorem Meet.even {v : TypeVar} {t : Ty} (hm : Meet s a b v t) (ht : IsRigid t)
    (heven : Even h (s.head a) (s.head b)) : t.height h ≤ h v := by
  obtain ⟨r, ⟨ha, rfl⟩ | ⟨hb, rfl⟩⟩ := hm
  · rw [ha] at heven
    exact heven.height_le
  · rw [hb] at heven
    exact (even_of_isRigid_var ht).1 heven

/-- The free variable and the type of a comparison. -/
theorem Meet.free (hm : Meet s a b v t) (hs : s.Proper syn) (ha : a.Simple syn)
    (hb : b.Simple syn) :
    s.subst.find? v = none ∧ ∀ w ∈ t.freeVars, s.subst.find? w = none := by
  obtain ⟨r, ⟨hv, rfl⟩ | ⟨hv, rfl⟩⟩ := hm
  · exact ⟨hs.find?_of_head_eq ha hv, fun w => hs.find?_of_mem_head hb⟩
  · exact ⟨hs.find?_of_head_eq hb hv, fun w => hs.find?_of_mem_head ha⟩

theorem Meet.lt (hm : Meet s a b v t) (hs : s.Proper syn) (hrank : s.Ranked h)
    (ha : a.Simple syn) (hb : b.Simple syn) (hbelow : AllBelow h N [(a, b)]) : h v < N := by
  obtain ⟨hal, hbl⟩ := hbelow _ List.mem_cons_self
  obtain ⟨r, ⟨hv, -⟩ | ⟨hv, -⟩⟩ := hm
  · have := hrank.height_head_le hs.triangular.simple ha
    rw [hv] at this
    exact this.trans_lt hal
  · have := hrank.height_head_le hs.triangular.simple hb
    rw [hv] at this
    exact this.trans_lt hbl

/-- Binding the free variable of a comparison advances the state. -/
theorem Meet.advance (hm : Meet s a b v t) (ht : IsRigid t) (hvt : v ∉ t.freeVars)
    (hs : s.Proper syn) (hps : AllSimple syn [(a, b)]) (hrank : s.Ranked h)
    (hbelow : AllBelow h N [(a, b)]) (heven : Even h (s.head a) (s.head b)) :
    Advance syn h N s ((s.log (s.head a) (s.head b)).assign v t) := by
  obtain ⟨hsa, hsb⟩ := hps.pair
  obtain ⟨hv, hfree⟩ := hm.free hs hsa hsb
  have hlog : Advance syn h N s (s.log (s.head a) (s.head b)) := .log hs hrank
  exact hlog.trans (.assign hlog.proper hlog.ranked (hm.simple hs.simple hsa hsb) hfree hvt hv
    ((even_var_of_isRigid ht).2 (hm.even ht heven)) (hm.lt hs hrank hsa hsb hbelow))

/-- The shared fields of two kinds lie below their variables. -/
theorem sharedPairs_below (hrank : s.Ranked h) (heq : h v = h w) :
    AllBelow h (h v) (sharedPairs (s.kindOf v) (s.kindOf w)) := by
  intro p hp
  obtain ⟨n, hget, hn⟩ := mem_sharedPairs hp
  exact ⟨hrank.kind v _ (Fields.mem_of_get? hget), heq ▸ hrank.kind w _ hn⟩

/-- A run whose comparisons are all even advances the state, and touches no variable above the types
that it compares. -/
theorem Runs.advance (hrun : Runs n s ps r s') (hs : s.Proper syn) (hps : AllSimple syn ps)
    (hrank : s.Ranked h) (hbelow : AllBelow h N ps) (heven : AllEven h s'.compared) :
    Advance syn h N s s' := by
  induction hrun generalizing N with
  | nil | tooDeep => exact .refl hs hrank
  | same => exact .log hs hrank
  | occurs => exact .log hs hrank
  | cons _ hrun₂ ih₁ ih₂ =>
      have h₁ := ih₁ hs hps.head hrank hbelow.head
        (heven.subset hrun₂.compared_subset)
      exact h₁.trans (ih₂ h₁.proper hps.tail h₁.ranked
        hbelow.tail heven)
  | stop _ ih =>
      exact ih hs hps.head hrank hbelow.head heven
  | @rigid n s a b r s₁ _ _ _ ih =>
      obtain ⟨hsa, hsb⟩ := hps.pair
      obtain ⟨hal, hbl⟩ : a.height h < N ∧ b.height h < N := hbelow _ List.mem_cons_self
      have hlog : Advance syn h N s (s.log (s.head a) (s.head b)) := .log hs hrank
      refine hlog.trans (ih hlog.proper
        (parts_simple (hs.simple.head hsa) (hs.simple.head hsb)) hlog.ranked (fun p hp => ?_) heven)
      have := hrank.height_head_le hs.triangular.simple hsa
      have := hrank.height_head_le hs.triangular.simple hsb
      have hitems := mem_items_of_mem_parts hp
      have := Ty.height_lt_of_mem_items (h := h) hitems.1
      have := Ty.height_lt_of_mem_items (h := h) hitems.2
      omega
  | @bind n s a b v t r s₁ hm ht hvt hrun ih =>
      obtain ⟨hsa, hsb⟩ := hps.pair
      have hst := hm.simple hs.simple hsa hsb
      have hhead := hrun.even_of_mem heven List.mem_cons_self
      have hle := hm.even ht hhead
      have hlt := hm.lt hs hrank hsa hsb hbelow
      have hassign := hm.advance ht hvt hs hps hrank hbelow hhead
      have hsapply := hassign.proper.triangular.simple.apply hst
      refine hassign.trans (ih hassign.proper (kindPairs_simple (hs.kind v) hsapply)
        hassign.ranked (fun p hp => ?_) heven)
      obtain ⟨m, fs, r', heq, hmem, hget⟩ := mem_kindPairs hp
      have hkind := hrank.kind v _ hmem
      have happly := hassign.ranked.height_apply_le hassign.proper.triangular.simple hst
      have hfield := Ty.height_le_heightFields (h := h) (Fields.mem_of_get? hget)
      change ((s.subst.bind v t).apply t).height h ≤ _ at happly
      rw [heq, Ty.height] at happly
      simp only at hkind hfield ⊢
      omega
  | @join n s a b v w r r' s₁ ha hb hvw hrun _ ih =>
      obtain ⟨hsa, hsb⟩ := hps.pair
      rw [compared_strengthen] at heven
      have heq : h v = h w := by
        simpa only [ha, hb, even_var_var] using hrun.even_of_mem heven List.mem_cons_self
      have hlt := Meet.lt ⟨r, Or.inl ⟨ha, rfl⟩⟩ hs hrank hsa hsb hbelow
      have hlog : Advance syn h (h v) s (s.log (s.head a) (s.head b)) := .log hs hrank
      have hnested := hlog.trans (ih hlog.proper (sharedPairs_simple (hs.kind v) (hs.kind w))
        hlog.ranked (sharedPairs_below hrank heq) heven)
      have hjoin := hnested.join (hs.find?_of_head_eq hsa ha) (hs.find?_of_head_eq hsb hb) hvw heq
        hlt r'
      refine hjoin.trans (.strengthen hjoin.proper hjoin.ranked
        (mergedKind_simple (hs.kind v) (hs.kind w)) (fun p hp => ?_) (heq ▸ hlt))
      rcases mem_fields_mergedKind hp with hp | hp
      · exact heq ▸ hrank.kind v p hp
      · exact hrank.kind w p hp
  | @joinOccurs n s a b v w r r' s₁ shape ha hb hvw hrun _ ih =>
      obtain ⟨hsa, hsb⟩ := hps.pair
      have heq : h v = h w := by
        simpa only [ha, hb, even_var_var] using hrun.even_of_mem heven List.mem_cons_self
      have hlt := Meet.lt ⟨r, Or.inl ⟨ha, rfl⟩⟩ hs hrank hsa hsb hbelow
      have hlog : Advance syn h (h v) s (s.log (s.head a) (s.head b)) := .log hs hrank
      have hnested := hlog.trans (ih hlog.proper (sharedPairs_simple (hs.kind v) (hs.kind w))
        hlog.ranked (sharedPairs_below hrank heq) heven)
      exact hnested.join (hs.find?_of_head_eq hsa ha) (hs.find?_of_head_eq hsb hb) hvw heq hlt r'
  | @joinStop n s a b v w r r' e s₁ ha hb hvw hrun ih =>
      obtain ⟨hsa, hsb⟩ := hps.pair
      have heq : h v = h w := by
        simpa only [ha, hb, even_var_var] using hrun.even_of_mem heven List.mem_cons_self
      have hlt := Meet.lt ⟨r, Or.inl ⟨ha, rfl⟩⟩ hs hrank hsa hsb hbelow
      have hlog : Advance syn h (h v) s (s.log (s.head a) (s.head b)) := .log hs hrank
      exact (hlog.trans (ih hlog.proper (sharedPairs_simple (hs.kind v) (hs.kind w))
        hlog.ranked (sharedPairs_below hrank heq) heven)).mono (Nat.le_of_lt hlt)

theorem exists_allBelow (h : TypeVar → Nat) (ps : List (Ty × Ty)) : ∃ N, AllBelow h N ps := by
  induction ps with
  | nil => exact ⟨0, by simp [AllBelow]⟩
  | cons p ps ih =>
      obtain ⟨N, hN⟩ := ih
      refine ⟨max N (max (p.1.height h) (p.2.height h) + 1), fun q hq => ?_⟩
      rcases List.mem_cons.1 hq with rfl | hq
      · omega
      · have := hN q hq
        omega

/-- While the shared fields of two kinds are compared, nothing changes for their variables. -/
theorem Runs.advance_shared {rv rw' : Range}
    (hrun : Runs n (s.log (s.head a) (s.head b)) (sharedPairs (s.kindOf v) (s.kindOf w)) r s₁)
    (ha : s.head a = .var v rv) (hb : s.head b = .var w rw') (hs : s.Proper syn)
    (hrank : s.Ranked h) (heven : AllEven h s₁.compared) :
    h v = h w ∧ Advance syn h (h v) s s₁ := by
  have heq : h v = h w := by
    simpa only [ha, hb, even_var_var] using hrun.even_of_mem heven List.mem_cons_self
  have hlog : Advance syn h (h v) s (s.log (s.head a) (s.head b)) := .log hs hrank
  exact ⟨heq, hlog.trans (hrun.advance hlog.proper
    (sharedPairs_simple (hs.kind v) (hs.kind w)) hlog.ranked (sharedPairs_below hrank heq) heven)⟩

end Unify

end FieldML
