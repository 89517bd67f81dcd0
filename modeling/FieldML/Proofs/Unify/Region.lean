import FieldML.Proofs.Unify.Rules

/-!
# Regions

A region is a set of variables that is closed under what is known: it holds the variables of the
types and of the kinds of its variables. Comparing types of a region stays inside it.
-/

namespace FieldML

/-- All variables of the type are in the region. -/
def Ty.Inside (V : TypeVar → Prop) (t : Ty) : Prop := ∀ v ∈ t.freeVars, V v

namespace Solver

variable {syn : Prop} {V : TypeVar → Prop} {s s' s₁ : Solver} {t u : Ty} {v w : TypeVar} {k : Kind}

/-- The region holds the variables that its variables lead to. -/
structure Closed (V : TypeVar → Prop) (s : Solver) : Prop where
  binding : ∀ v t, V v → s.subst.find? v = some t → t.Inside V
  kind : ∀ v, V v → ∀ p ∈ (s.kindOf v).fields, p.2.Inside V

/-- The states differ only inside the region. -/
def SameOutside (V : TypeVar → Prop) (s s' : Solver) : Prop :=
  ∀ v, ¬V v → s'.subst.find? v = s.subst.find? v ∧ s'.kinds.kinds[v]? = s.kinds.kinds[v]?

theorem SameOutside.refl (s : Solver) : SameOutside V s s := fun _ _ => ⟨rfl, rfl⟩

theorem SameOutside.trans (h₁ : SameOutside V s s₁) (h₂ : SameOutside V s₁ s') :
    SameOutside V s s' := fun v hv =>
  ⟨(h₂ v hv).1.trans (h₁ v hv).1, (h₂ v hv).2.trans (h₁ v hv).2⟩

namespace Closed

theorem follow (hs : s.Closed V) (hsimple : s.subst.Simple syn) (bound : List TypeVar) (n : Nat)
    (r : Range) (hv : V v) : (s.subst.follow n bound v r).Inside V := by
  have hvar : (Ty.var v r).Inside V := fun w hw => Ty.mem_freeVars_var.1 hw ▸ hv
  induction n generalizing v r with
  | zero => exact hvar
  | succ n ih =>
      rw [Substitution.follow]
      split
      · exact hvar
      · split
        · next t hfind =>
            intro w hw
            obtain ⟨u, hu, r', hw⟩ := (hsimple v t hfind).exists_of_mem_freeVars_mapVars hw
            have huV := hs.binding v t hv hfind u hu
            exact ih r' huV (fun x hx => Ty.mem_freeVars_var.1 hx ▸ huV) w hw
        · exact hvar

protected theorem apply (hs : s.Closed V) (hsimple : s.subst.Simple syn) (ht : t.Simple syn)
    (hin : t.Inside V) : (s.subst.apply t).Inside V := by
  intro w hw
  obtain ⟨v, hv, r, hw⟩ := ht.exists_of_mem_freeVars_mapVars hw
  exact hs.follow hsimple [] _ r (hin v hv) w hw

theorem head (hs : s.Closed V) (hsimple : s.Simple syn) (ht : t.Simple syn) (hin : t.Inside V) :
    (s.head t).Inside V := fun w hw =>
  hs.apply hsimple.subst ht hin w ((hsimple.subst.apply ht).mem_freeVars_of_expand hw)

theorem log (hs : s.Closed V) : (s.log t u).Closed V := ⟨hs.binding, hs.kind⟩

theorem assign (hs : s.Closed V) (hin : t.Inside V) : (s.assign v t).Closed V where
  binding w u hw hu := by
    rw [subst_assign, Substitution.find?_bind] at hu
    split at hu
    · exact Option.some.inj hu ▸ hin
    · exact hs.binding w u hw hu
  kind := hs.kind

theorem strengthen (hs : s.Closed V) (hk : ∀ p ∈ k.fields, p.2.Inside V) :
    (s.strengthen v k).Closed V := by
  cases k with
  | universal => exact hs
  | record fs =>
      refine ⟨hs.binding, fun w hw => ?_⟩
      rw [Solver.strengthen, kindOf_refine]
      split
      · exact hk
      · exact hs.kind w hw

end Closed

theorem sameOutside_log : SameOutside V s (s.log t u) := fun _ _ => ⟨rfl, rfl⟩

theorem sameOutside_assign (hv : V v) : SameOutside V s (s.assign v t) := by
  intro w hw
  have hne : v ≠ w := fun he => hw (he ▸ hv)
  exact ⟨by rw [subst_assign, Substitution.find?_bind, if_neg hne], rfl⟩

theorem sameOutside_strengthen (hv : V v) : SameOutside V s (s.strengthen v k) := by
  intro w hw
  have hne : v ≠ w := fun he => hw (he ▸ hv)
  cases k with
  | universal => exact ⟨rfl, rfl⟩
  | record fs =>
      exact ⟨rfl, by simp [strengthen, refine, KindEnv.refine, Std.TreeMap.getElem?_insert, hne]⟩

end Solver

namespace Unify

open Solver

variable {syn : Prop} {V : TypeVar → Prop} {s s' : Solver} {a b t : Ty} {v : TypeVar} {n : Nat}
  {ps : List (Ty × Ty)} {r : Option Reason} {k l : Kind}

/-- The variables of all pairs are in the region. -/
def AllInside (V : TypeVar → Prop) (ps : List (Ty × Ty)) : Prop :=
  ∀ p ∈ ps, p.1.Inside V ∧ p.2.Inside V

theorem AllInside.head {p : Ty × Ty} (hps : AllInside V (p :: ps)) : AllInside V [p] :=
  fun _ hq => hps _ (by simpa using Or.inl hq)

theorem AllInside.tail {p : Ty × Ty} (hps : AllInside V (p :: ps)) : AllInside V ps :=
  fun _ hq => hps _ (List.mem_cons_of_mem _ hq)

theorem parts_inside {W : TypeVar → Prop} {t u : Ty} (ht : t.Inside V) (hu : u.Inside W) :
    ∀ p ∈ (parts t u).1, p.1.Inside V ∧ p.2.Inside W := fun _ hp =>
  ⟨fun v hv => ht v (Ty.mem_freeVars_of_mem_items (mem_items_of_mem_parts hp).1 hv),
    fun v hv => hu v (Ty.mem_freeVars_of_mem_items (mem_items_of_mem_parts hp).2 hv)⟩

theorem kindPairs_inside {t : Ty} (hk : ∀ p ∈ k.fields, p.2.Inside V) (ht : t.Inside V) :
    AllInside V (kindPairs k t).1 := by
  intro p hp
  obtain ⟨n, fs, r, rfl, hn, hget⟩ := mem_kindPairs hp
  exact ⟨hk _ hn, fun v hv => ht v (Ty.mem_freeVars_record.2 ⟨_, Fields.mem_of_get? hget, hv⟩)⟩

theorem sharedPairs_inside (hk : ∀ p ∈ k.fields, p.2.Inside V)
    (hl : ∀ p ∈ l.fields, p.2.Inside V) : AllInside V (sharedPairs k l) := by
  intro p hp
  obtain ⟨n, hget, hn⟩ := mem_sharedPairs hp
  exact ⟨hk _ (Fields.mem_of_get? hget), hl _ hn⟩

theorem Meet.inside (hm : Meet s a b v t) (ha : (s.head a).Inside V) (hb : (s.head b).Inside V) :
    V v ∧ t.Inside V := by
  obtain ⟨r, ⟨hv, rfl⟩ | ⟨hv, rfl⟩⟩ := hm
  · exact ⟨ha v (by simp [hv]), hb⟩
  · exact ⟨hb v (by simp [hv]), ha⟩

/-- Comparing types of a region keeps it closed, and changes nothing outside. -/
theorem Runs.region (hrun : Runs n s ps r s') (hs : s.Simple syn) (hps : AllSimple syn ps)
    (hV : s.Closed V) (hin : AllInside V ps) : s'.Closed V ∧ SameOutside V s s' := by
  induction hrun with
  | nil | tooDeep => exact ⟨hV, .refl _⟩
  | same => exact ⟨hV.log, sameOutside_log⟩
  | occurs => exact ⟨hV.log, sameOutside_log⟩
  | cons hrun₁ _ ih₁ ih₂ =>
      obtain ⟨hV₁, hsame₁⟩ := ih₁ hs hps.head hV hin.head
      obtain ⟨hV₂, hsame₂⟩ := ih₂ (hrun₁.simple hs hps.head) hps.tail hV₁ hin.tail
      exact ⟨hV₂, hsame₁.trans hsame₂⟩
  | stop _ ih => exact ih hs hps.head hV hin.head
  | @rigid n s a b r s₁ _ _ _ ih =>
      obtain ⟨hsa, hsb⟩ := hps.pair
      obtain ⟨hia, hib⟩ : a.Inside V ∧ b.Inside V := hin _ List.mem_cons_self
      obtain ⟨hV₁, hsame⟩ := ih hs.log (parts_simple (hs.head hsa) (hs.head hsb)) hV.log
        (parts_inside (hV.head hs hsa hia) (hV.head hs hsb hib))
      exact ⟨hV₁, sameOutside_log.trans hsame⟩
  | @bind n s a b v t r s₁ hm _ _ _ ih =>
      obtain ⟨hsa, hsb⟩ := hps.pair
      obtain ⟨hia, hib⟩ : a.Inside V ∧ b.Inside V := hin _ List.mem_cons_self
      obtain ⟨hv, hit⟩ := hm.inside (hV.head hs hsa hia) (hV.head hs hsb hib)
      have hst := hm.simple hs hsa hsb
      have hs' := (hs.log (t := s.head a) (u := s.head b)).assign (v := v) hst
      have hV' := (hV.log (t := s.head a) (u := s.head b)).assign (v := v) hit
      obtain ⟨hV₁, hsame⟩ := ih hs' (kindPairs_simple (hs.kind v) (hs'.subst.apply hst)) hV'
        (kindPairs_inside (hV.kind v hv) (hV'.apply hs'.subst hst hit))
      exact ⟨hV₁, sameOutside_log.trans ((sameOutside_assign hv).trans hsame)⟩
  | @join n s a b v w r r' s₁ ha hb _ _ _ ih =>
      obtain ⟨hsa, hsb⟩ := hps.pair
      obtain ⟨hia, hib⟩ : a.Inside V ∧ b.Inside V := hin _ List.mem_cons_self
      have hv : V v := hV.head hs hsa hia v (by simp [ha])
      have hw : V w := hV.head hs hsb hib w (by simp [hb])
      obtain ⟨hV₁, hsame⟩ := ih hs.log (sharedPairs_simple (hs.kind v) (hs.kind w)) hV.log
        (sharedPairs_inside (hV.kind v hv) (hV.kind w hw))
      constructor
      · refine (hV₁.assign fun x hx => Ty.mem_freeVars_var.1 hx ▸ hw).strengthen fun p hp => ?_
        exact (mem_fields_mergedKind hp).elim (hV.kind v hv p) (hV.kind w hw p)
      · exact sameOutside_log.trans
          (hsame.trans ((sameOutside_assign hv).trans (sameOutside_strengthen hw)))
  | @joinOccurs n s a b v w r r' s₁ _ ha hb _ _ _ ih =>
      obtain ⟨hsa, hsb⟩ := hps.pair
      obtain ⟨hia, hib⟩ : a.Inside V ∧ b.Inside V := hin _ List.mem_cons_self
      have hv : V v := hV.head hs hsa hia v (by simp [ha])
      have hw : V w := hV.head hs hsb hib w (by simp [hb])
      obtain ⟨hV₁, hsame⟩ := ih hs.log (sharedPairs_simple (hs.kind v) (hs.kind w)) hV.log
        (sharedPairs_inside (hV.kind v hv) (hV.kind w hw))
      exact ⟨hV₁.assign fun x hx => Ty.mem_freeVars_var.1 hx ▸ hw,
        sameOutside_log.trans (hsame.trans (sameOutside_assign hv))⟩
  | @joinStop n s a b v w r r' e s₁ ha hb _ _ ih =>
      obtain ⟨hsa, hsb⟩ := hps.pair
      obtain ⟨hia, hib⟩ : a.Inside V ∧ b.Inside V := hin _ List.mem_cons_self
      have hv : V v := hV.head hs hsa hia v (by simp [ha])
      have hw : V w := hV.head hs hsb hib w (by simp [hb])
      obtain ⟨hV₁, hsame⟩ := ih hs.log (sharedPairs_simple (hs.kind v) (hs.kind w)) hV.log
        (sharedPairs_inside (hV.kind v hv) (hV.kind w hw))
      exact ⟨hV₁, sameOutside_log.trans hsame⟩

end Unify

end FieldML
