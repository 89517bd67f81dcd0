import FieldML.Proofs.Unify.Plain

/-!
# Comparisons with new variables

A pattern compares its type with a skeleton, whose parts are different new variables. Nothing is
known about a new variable, so such a comparison never gets to the fields of a kind, and it makes
the types equal whatever kinds the other variables have.
-/

namespace FieldML

/-- Variables in ascending order from `n` on, one for each range. -/
def newVars (n : TypeVar) : List Range → List Ty
  | [] => []
  | r :: rs => .var n r :: newVars (n + 1) rs

theorem length_newVars (n : TypeVar) (rs : List Range) : (newVars n rs).length = rs.length := by
  induction rs generalizing n with
  | nil => rfl
  | cons r rs ih => simp [newVars, ih]

theorem mem_newVars {n : TypeVar} {rs : List Range} {t : Ty} (ht : t ∈ newVars n rs) :
    ∃ v r, t = .var v r ∧ n ≤ v ∧ v < n + rs.length := by
  induction rs generalizing n with
  | nil => simp [newVars] at ht
  | cons r rs ih =>
      rcases List.mem_cons.1 ht with rfl | ht
      · exact ⟨n, r, rfl, Nat.le_refl _, by simp⟩
      · obtain ⟨v, r', rfl, hle, hlt⟩ := ih ht
        exact ⟨v, r', rfl, Nat.le_of_succ_le hle,
          hlt.trans_eq (by simp [Nat.add_assoc, Nat.add_comm 1])⟩

namespace Solver

variable {syn : Prop} {s s' s₁ : Solver} {t u : Ty} {v : TypeVar} {n m : TypeVar}

/-- Nothing is known about the variables from `n` on. -/
structure NewFrom (n : TypeVar) (s : Solver) : Prop where
  closed : s.Closed (· < n)
  fresh : ∀ v, n ≤ v → s.subst.find? v = none ∧ s.kinds.kinds[v]? = none

/-- From one state to a later one variables were only bound. -/
structure Learns (syn : Prop) (s s' : Solver) : Prop where
  proper : s'.Proper syn
  extended : s.subst.ExtendedBy s'.subst

theorem Learns.trans (h₁ : Learns syn s s₁) (h₂ : Learns syn s₁ s') : Learns syn s s' :=
  ⟨h₂.proper, h₁.extended.trans h₂.extended⟩

namespace NewFrom

theorem kindOf (hs : s.NewFrom n) (hv : n ≤ v) : s.kindOf v = .universal := by
  rw [Solver.kindOf, KindEnv.kindOf, Std.TreeMap.getD_eq_getD_getElem?, (hs.fresh v hv).2,
    Option.getD_none]

theorem mono (hs : s.NewFrom n) (hnm : n ≤ m) : s.NewFrom m where
  closed := by
    refine ⟨fun v t _ ht => ?_, fun v _ p hp => ?_⟩
    · have hlt : v < n := by
        by_contra hge
        rw [(hs.fresh v (Nat.le_of_not_lt hge)).1] at ht
        simp at ht
      exact fun w hw => (hs.closed.binding v t hlt ht w hw).trans_le hnm
    · have hlt : v < n := by
        by_contra hge
        rw [hs.kindOf (Nat.le_of_not_lt hge)] at hp
        simp [Kind.fields] at hp
      exact fun w hw => (hs.closed.kind v hlt p hp w hw).trans_le hnm
  fresh v hv := hs.fresh v (hnm.trans hv)

theorem log (hs : s.NewFrom n) : (s.log t u).NewFrom n := ⟨hs.closed.log, hs.fresh⟩

end NewFrom

end Solver

namespace Unify

open Solver

variable {syn : Prop} {s s' : Solver} {a b t u : Ty} {v w : TypeVar} {n : Nat} {m : TypeVar}
  {ps : List (Ty × Ty)} {r : Option Reason} {rs : List Range}

theorem Runs.newFrom (hrun : Runs n s ps r s') (hs : s.Simple syn) (hps : AllSimple syn ps)
    (hnew : s.NewFrom m) (hin : AllInside (· < m) ps) : s'.NewFrom m := by
  obtain ⟨hclosed, hsame⟩ := hrun.region hs hps hnew.closed hin
  refine ⟨hclosed, fun v hv => ?_⟩
  obtain ⟨hsubst, hkind⟩ := hsame v (Nat.not_lt.2 hv)
  obtain ⟨hfree, hnone⟩ := hnew.fresh v hv
  exact ⟨hsubst.trans hfree, hkind.trans hnone⟩

theorem Runs.uncons {p : Ty × Ty} (hrun : Runs n s (p :: ps) none s') :
    ∃ s₁, Runs n s [p] none s₁ ∧ Runs n s₁ ps none s' := by
  cases ps with
  | nil => exact ⟨s', hrun, .nil n s'⟩
  | cons q ps =>
      cases hrun with
      | cons hrun₁ hrun₂ => exact ⟨_, hrun₁, hrun₂⟩

/-- The four ways in which two types are compared without a failure. -/
theorem Runs.single_cases (hrun : Runs n s [(a, b)] r s') (hr : r = none) :
    (∃ v r r', s.head a = .var v r ∧ s.head b = .var v r' ∧ s' = s.log (s.head a) (s.head b)) ∨
    (∃ n, IsRigid (s.head a) ∧ IsRigid (s.head b) ∧ (parts (s.head a) (s.head b)).2 = none ∧
      Runs n (s.log (s.head a) (s.head b)) (parts (s.head a) (s.head b)).1 none s') ∨
    (∃ n v t, Meet s a b v t ∧ IsRigid t ∧ v ∉ t.freeVars ∧
      (kindPairs (s.kindOf v) ((s.subst.bind v t).apply t)).2 = none ∧
      Runs n ((s.log (s.head a) (s.head b)).assign v t)
        (kindPairs (s.kindOf v) ((s.subst.bind v t).apply t)).1 none s') ∨
    ∃ n v w r r' s₁, s.head a = .var v r ∧ s.head b = .var w r' ∧ v ≠ w ∧
      Runs n (s.log (s.head a) (s.head b)) (sharedPairs (s.kindOf v) (s.kindOf w)) none s₁ ∧
      s' = (s₁.assign v (.var w r')).strengthen w (mergedKind (s.kindOf v) (s.kindOf w)) := by
  -- By induction only because a single pair may be compared with an empty rest after it.
  generalize hps : [(a, b)] = ps at hrun
  induction hrun with
  | nil | tooDeep | stop | occurs | joinOccurs | joinStop => simp at hr hps
  | cons hrun₁ hrun₂ ih₁ _ =>
      obtain ⟨rfl, rfl⟩ := List.cons.inj hps
      obtain ⟨-, rfl⟩ := hrun₂.of_nil
      exact ih₁ rfl rfl
  | same ha hb =>
      obtain ⟨rfl, rfl⟩ := Prod.mk.inj (List.cons.inj hps).1
      exact Or.inl ⟨_, _, _, ha, hb, rfl⟩
  | rigid hra hrb hrun _ =>
      obtain ⟨rfl, rfl⟩ := Prod.mk.inj (List.cons.inj hps).1
      obtain ⟨rfl, hnone⟩ := Option.or_eq_none_iff.1 hr
      exact Or.inr (Or.inl ⟨_, hra, hrb, hnone, hrun⟩)
  | bind hm ht hvt hrun _ =>
      obtain ⟨rfl, rfl⟩ := Prod.mk.inj (List.cons.inj hps).1
      obtain ⟨rfl, hnone⟩ := Option.or_eq_none_iff.1 hr
      exact Or.inr (Or.inr (Or.inl ⟨_, _, _, hm, ht, hvt, hnone, hrun⟩))
  | join ha hb hvw hrun _ _ =>
      obtain ⟨rfl, rfl⟩ := Prod.mk.inj (List.cons.inj hps).1
      exact Or.inr (Or.inr (Or.inr ⟨_, _, _, _, _, _, ha, hb, hvw, hrun, rfl⟩))

theorem Meet.learns (hm : Meet s a b v t) (hvt : v ∉ t.freeVars) (hs : s.Proper syn)
    (ha : a.Simple syn) (hb : b.Simple syn) {k : Kind} (hk : k.Simple syn) :
    Learns syn s (((s.log (s.head a) (s.head b)).assign v t).strengthen w k) ∧
      (s.subst.bind v t).bare a = (s.subst.bind v t).bare b := by
  obtain ⟨hfind, hfree⟩ := hm.free hs ha hb
  have hlog : (s.log (s.head a) (s.head b)).Proper syn := hs.log
  have hproper := hlog.assign (hm.simple hs.simple ha hb) hfree hvt
  have hext : s.subst.ExtendedBy (s.subst.bind v t) := Substitution.extendedBy_bind hfind
  refine ⟨⟨hproper.strengthen hk, by simpa using hext⟩, alike_of_heads hs hproper hext ha hb ?_⟩
  exact hm.alike hproper (by simp [Substitution.find?_bind])

/-- A new variable is made equal to any type. -/
theorem Runs.learns_newVar {r' : Range} (hrun : Runs n s [(a, .var w r')] none s')
    (hs : s.Proper syn) (ha : a.Simple syn) (hw : s.subst.find? w = none)
    (hkind : s.kindOf w = .universal) :
    Learns syn s s' ∧ s'.subst.bare a = s'.subst.bare (.var w r') := by
  have hb : (Ty.var w r').Simple syn := .var w r'
  have hhead : s.head (.var w r') = .var w r' := head_var_of_none hw
  rcases hrun.single_cases rfl with ⟨v, r, r'', hx, hy, rfl⟩ | ⟨n, -, hy, -⟩ |
    ⟨n, v, t, hm, ht, hvt, -, hnext⟩ | ⟨n, v, w', rv, rw', s₁, hx, hy, hvw, hnext, rfl⟩
  · exact ⟨⟨hs.log, .refl _⟩, alike_of_heads hs hs.log (.refl _) ha hb (alike_of_same hx hy)⟩
  · rw [hhead] at hy
    exact hy.elim
  · have hv : s.kindOf v = .universal := by
      obtain ⟨_, ⟨-, rfl⟩ | ⟨hv, -⟩⟩ := hm
      · rw [hhead] at ht
        exact ht.elim
      · rw [hhead] at hv
        exact (Ty.var.inj hv).1 ▸ hkind
    rw [hv] at hnext
    obtain ⟨-, rfl⟩ := hnext.of_nil
    exact hm.learns (w := v) (k := .universal) hvt hs ha hb (hv ▸ hs.kind v)
  · rw [hhead] at hy
    obtain ⟨rfl, rfl⟩ := Ty.var.inj hy
    rw [hkind] at hnext
    obtain ⟨-, rfl⟩ := hnext.of_nil
    have hm : Meet s a (.var w r') v (.var w r') := ⟨rv, Or.inl ⟨hx, hhead⟩⟩
    simpa using hm.learns (w := w) (by simpa using hvw) hs ha hb
      (mergedKind_simple (hs.kind v) (hs.kind w))

theorem Runs.newFrom_succ {r' : Range} (hrun : Runs n s [(a, .var m r')] r s') (hs : s.Simple syn)
    (hnew : s.NewFrom m) (ha : a.Simple syn) (hin : a.Inside (· < m)) : s'.NewFrom (m + 1) := by
  have hpair : AllSimple syn [(a, .var m r')] := by simp [AllSimple, ha, Ty.Simple.var]
  refine hrun.newFrom hs hpair (hnew.mono (Nat.le_succ m)) fun p hp => ?_
  obtain rfl := List.mem_singleton.1 hp
  exact ⟨fun v hv => Nat.lt_succ_of_lt (hin v hv), fun v hv =>
    Ty.mem_freeVars_var.1 hv ▸ Nat.lt_succ_self m⟩

/-- New variables are made equal to types that do not mention them, one after the other. -/
theorem Runs.learns_newVars (hrun : Runs n s ps none s') (hs : s.Proper syn) (hnew : s.NewFrom m)
    (hfst : ∀ p ∈ ps, p.1.Simple syn ∧ p.1.Inside (· < m)) (hsnd : ps.map (·.2) = newVars m rs) :
    Learns syn s s' ∧ AllAlike s'.subst ps := by
  induction rs generalizing m s ps with
  | nil =>
      obtain rfl : ps = [] := by simpa [newVars] using hsnd
      obtain ⟨-, rfl⟩ := hrun.of_nil
      exact ⟨⟨hs, .refl _⟩, fun p hp => absurd hp List.not_mem_nil⟩
  | cons r rs ih =>
      obtain ⟨⟨a, b⟩, ps, rfl, rfl, htail⟩ := List.map_eq_cons_iff.1 hsnd
      obtain ⟨s₁, hrun₁, hrun₂⟩ := hrun.uncons
      obtain ⟨⟨ha, hain⟩, hfst⟩ := List.forall_mem_cons.1 hfst
      obtain ⟨hfree, -⟩ := hnew.fresh m (Nat.le_refl _)
      obtain ⟨h₁, halike⟩ :=
        hrun₁.learns_newVar hs ha hfree (hnew.kindOf (Nat.le_refl _))
      obtain ⟨h₂, hrest⟩ := ih hrun₂ h₁.proper (hrun₁.newFrom_succ hs.simple hnew ha hain)
        (fun p hp => ⟨(hfst p hp).1, fun v hv => Nat.lt_succ_of_lt ((hfst p hp).2 v hv)⟩) htail
      refine ⟨h₁.trans h₂, List.forall_mem_cons.2 ⟨?_, hrest⟩⟩
      exact h₁.proper.triangular.bare_extend h₂.proper.triangular h₂.extended ha (.var m r) halike

/-- A type whose parts are new variables. -/
structure IsSkeleton (syn : Prop) (m : TypeVar) (rs : List Range) (t : Ty) : Prop where
  rigid : IsRigid t
  simple : t.Simple syn
  free : ∀ v ∈ t.freeVars, m ≤ v ∧ v < m + rs.length
  notRecord : ∀ fs r, t ≠ .record fs r
  parts : ∀ u, (parts u t).2 = none → (parts u t).1.map (·.2) = newVars m rs

theorem isSkeleton_base (m : TypeVar) (b : BaseTy) (r : Range) :
    IsSkeleton syn m [] (.base b r) where
  rigid := trivial
  simple := .base b r
  free v hv := (Ty.mem_freeVars_base.1 hv).elim
  notRecord _ _ := by simp
  parts u hnone := by
    unfold Unify.parts at hnone ⊢
    split at hnone <;> simp_all [newVars]

theorem isSkeleton_list (m : TypeVar) (r r' : Range) :
    IsSkeleton syn m [r] (.list (.var m r) r') where
  rigid := trivial
  simple := .list r' (.var m r)
  free v hv := by
    obtain rfl := Ty.mem_freeVars_var.1 (Ty.mem_freeVars_list.1 hv)
    exact ⟨Nat.le_refl _, Nat.lt_succ_self _⟩
  notRecord _ _ := by simp
  parts u hnone := by
    cases u <;> simp_all [Unify.parts, newVars]

theorem map_snd_componentPairs {ts us : List Ty} (hnone : (componentPairs ts us).2 = none) :
    (componentPairs ts us).1.map (·.2) = us := by
  unfold componentPairs at hnone ⊢
  split at hnone
  · next hlength =>
      rw [if_pos hlength]
      exact List.map_snd_zip hlength.ge
  · simp at hnone

theorem isSkeleton_product (m : TypeVar) (rs : List Range) (r : Range) :
    IsSkeleton syn m rs (.product (newVars m rs) r) where
  rigid := trivial
  simple := .product r fun t ht => by
    obtain ⟨v, r, rfl, -⟩ := mem_newVars ht
    exact .var v r
  free v hv := by
    obtain ⟨t, ht, hv⟩ := Ty.mem_freeVars_product.1 hv
    obtain ⟨w, r, rfl, hw⟩ := mem_newVars ht
    exact Ty.mem_freeVars_var.1 hv ▸ hw
  notRecord _ _ := by simp
  parts u hnone := by
    cases u with
    | product ts r' => exact map_snd_componentPairs hnone
    | _ => simp [Unify.parts] at hnone

theorem isSkeleton_variant (m : TypeVar) (name : String) (rs : List Range) (r : Range) :
    IsSkeleton syn m rs (.variant name (newVars m rs) r) where
  rigid := trivial
  simple := .variant name r fun t ht => by
    obtain ⟨v, r, rfl, -⟩ := mem_newVars ht
    exact .var v r
  free v hv := by
    obtain ⟨t, ht, hv⟩ := Ty.mem_freeVars_variant.1 hv
    obtain ⟨w, r, rfl, hw⟩ := mem_newVars ht
    exact Ty.mem_freeVars_var.1 hv ▸ hw
  notRecord _ _ := by simp
  parts u hnone := by
    cases u with
    | variant other ts r' =>
        rw [Unify.parts] at hnone ⊢
        split at hnone
        · next hname =>
            rw [if_pos hname]
            exact map_snd_componentPairs hnone
        · simp at hnone
    | _ => simp [Unify.parts] at hnone

namespace IsSkeleton

variable {S : Ty}

theorem head_eq (hS : IsSkeleton syn m rs S) (hnew : s.NewFrom m) : s.head S = S := by
  have happly : s.subst.apply S = S := hS.simple.mapVars_eq_self fun v hv r =>
    Substitution.follow_of_none _ (hnew.fresh v (hS.free v hv).1).1
  rw [Solver.head, happly, hS.rigid.expand_eq]

theorem kindPairs_eq_none (hS : IsSkeleton syn m rs S) {k : Kind} {subst : Substitution}
    (hnone : (kindPairs k (subst.apply S)).2 = none) : k = .universal := by
  cases k with
  | universal => rfl
  | record fs =>
      obtain ⟨hrigid, hnot⟩ := And.intro hS.rigid hS.notRecord
      cases S with
      | record fs r => exact absurd rfl (hnot fs r)
      | var | synonym | all => exact hrigid.elim
      | _ => simp [kindPairs, Substitution.apply, Ty.mapVars] at hnone

end IsSkeleton

/-- A type that is made equal to a skeleton is alike to it afterwards. -/
theorem Runs.learns_skeleton {S : Ty} (hrun : Runs n s [(t, S)] none s')
    (hS : IsSkeleton syn m rs S) (hs : s.Proper syn) (hnew : s.NewFrom m) (ht : t.Simple syn)
    (hin : t.Inside (· < m)) : Learns syn s s' ∧ s'.subst.bare t = s'.subst.bare S := by
  have hhead := hS.head_eq hnew
  have hnotVar : ∀ v r, s.head S ≠ .var v r := by
    intro v r hvar
    have hrigid := hS.rigid
    rw [← hhead, hvar] at hrigid
    exact hrigid
  rcases hrun.single_cases rfl with ⟨v, r, r', -, hy, -⟩ | ⟨n, hrt, hrS, hnone, hnext⟩ |
    ⟨n, v, u, hm, -, hvu, hnone, hnext⟩ | ⟨n, v, w, r, r', s₁, -, hy, -⟩
  · exact absurd hy (hnotVar v r')
  · have hsimple := hs.simple.head ht
    have hinside := hnew.closed.head hs.simple ht hin
    rw [hhead] at hnext hnone hrS
    obtain ⟨hlearns, halike⟩ := hnext.learns_newVars hs.log hnew.log (fun p hp =>
      ⟨(parts_simple hsimple hS.simple p hp).1, (parts_inside hinside hS.free p hp).1⟩)
      (hS.parts _ hnone)
    refine ⟨⟨hlearns.proper, hlearns.extended⟩,
      alike_of_heads hs hlearns.proper hlearns.extended ht hS.simple ?_⟩
    rw [hhead]
    exact alike_of_parts hrt hrS hsimple hS.simple hnone halike
  · obtain rfl : u = S := by
      obtain ⟨r, ⟨-, rfl⟩ | ⟨hv, -⟩⟩ := hm
      · exact hhead
      · exact absurd hv (hnotVar v r)
    have hv := hS.kindPairs_eq_none hnone
    rw [hv] at hnext
    obtain ⟨-, rfl⟩ := hnext.of_nil
    exact hm.learns (w := v) (k := .universal) hvu hs ht hS.simple (hv ▸ hs.kind v)
  · exact absurd hy (hnotVar w r')

end Unify

end FieldML
