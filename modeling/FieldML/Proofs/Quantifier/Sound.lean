import FieldML.Proofs.Quantifier.Parts

/-!
# Unified types agree up to the names of bound variables

A successful comparison leaves no trace of the variables that stand for bound ones: they stay free,
and nothing outside leads to them. So the types that were compared agree afterwards, unless a
renaming captured a variable on the way.
-/

namespace FieldML

namespace Unify

open Solver

/-- The comparison of these quantified types renames a variable that a quantifier inside captures. -/
def Catches (p : Ty × Ty) : Prop :=
  ∃ v k t r w l u r', p = (.all v k t r, .all w l u r') ∧
    Captures v w (l.occurrences [] ++ u.occurrences [])

end Unify

namespace Solver

open Unify

/-- Some comparison on the way renamed a variable that was captured. -/
def Captured (s : Solver) : Prop := ∃ p ∈ s.compared, Catches p

variable {B V : TypeVar → Prop} {s s' : Solver} {t : Ty} {v w : TypeVar} {r : Range}

theorem Captured.mono (h : s.Captured) (hsub : s.compared ⊆ s'.compared) : s'.Captured :=
  h.imp fun _ => And.imp_left fun hp => hsub hp

theorem Closed.inside_apply (hV : s.Closed V) (hs : s.subst.Acyclic B) (ht : t.Formed B)
    (hin : t.Inside V) : (s.subst.apply t).Inside V := by
  have hfollow : ∀ n bound v r, V v →
      ∀ w ∈ (s.subst.follow n bound v r).freeVarsUnder bound, V w := by
    intro n
    induction n with
    | zero => exact fun bound v r hv w hw => (Ty.mem_freeVarsUnder_var.1 hw).1 ▸ hv
    | succ n ih =>
        intro bound v r hv w hw
        by_cases hmem : v ∈ bound
        · rw [Substitution.follow_of_mem hmem] at hw
          exact (Ty.mem_freeVarsUnder_var.1 hw).1 ▸ hv
        · cases hfind : s.subst.find? v with
          | none =>
              rw [Substitution.follow_of_find?_none hfind] at hw
              exact (Ty.mem_freeVarsUnder_var.1 hw).1 ▸ hv
          | some t =>
              have ht := hs.formed v t hfind
              rw [Substitution.follow_of_find?_some hfind hmem] at hw
              obtain ⟨p, hp, r', hw⟩ := ht.mem_freeVarsUnder_mapVars (Θ := []) hw
              by_cases hbound : p.2 ∈ p.1 ++ bound
              · rw [Substitution.follow_of_mem hbound] at hw
                obtain ⟨rfl, hnot⟩ := Ty.mem_freeVarsUnder_var.1 hw
                exact absurd hbound hnot
              · refine ih _ _ _ (hV.binding v t hv hfind p.2 ?_) w hw
                exact ht.mem_freeVarsUnder.2 ⟨p, hp, rfl, fun h => hbound (by simp_all)⟩
  intro w hw
  obtain ⟨p, hp, r, hw⟩ := ht.mem_freeVarsUnder_mapVars (Θ := []) (Γ := []) (Ξ := []) hw
  rw [List.append_nil] at hw
  by_cases hbound : p.2 ∈ p.1
  · rw [Substitution.follow_of_mem hbound] at hw
    obtain ⟨rfl, hnot⟩ := Ty.mem_freeVarsUnder_var.1 hw
    exact absurd hbound hnot
  · refine hfollow _ _ _ r (hin p.2 ?_) w hw
    exact ht.mem_freeVarsUnder.2 ⟨p, hp, rfl, by simpa using hbound⟩

theorem Closed.inside_head (hV : s.Closed V) (hs : s.subst.Acyclic B) (ht : t.Formed B)
    (hin : t.Inside V) : (s.head t).Inside V :=
  head_eq hs ht ▸ hV.inside_apply hs ht hin

/-- What the type of a variable mentions, the variable leads to, while it is free. -/
theorem mem_freeVars_apply_of_find? (hs : s.subst.Acyclic B) (hfind : s.subst.find? w = some t)
    (hv : v ∈ t.freeVars) (hfree : s.subst.find? v = none) :
    v ∈ (s.subst.apply (.var w r)).freeVars := by
  have ht := hs.formed w t hfind
  obtain ⟨n, hn⟩ : ∃ n, s.subst.size = n + 1 := by
    refine Nat.exists_eq_succ_of_ne_zero (Nat.ne_of_gt ?_)
    exact (Nat.zero_le _).trans_lt
      (Substitution.Acyclic.countP_keys_lt_size (fun _ => 0) (v := w) (by simp [hfind]))
  change v ∈ (s.subst.follow s.subst.size [] w r).freeVars
  rw [hn, Substitution.follow_of_find?_some hfind List.not_mem_nil]
  obtain ⟨p, hp, rfl, hnot⟩ := ht.mem_freeVarsUnder.1 hv
  refine ht.mem_freeVarsUnder_mapVars_of_mem (Θ := []) (Γ := []) (Ξ := []) hp fun r' => ?_
  rw [Substitution.follow_of_find?_none hfree]
  exact Ty.mem_freeVarsUnder_var.2 ⟨rfl, hnot⟩

end Solver

namespace Unify

open Solver

variable {B V : TypeVar → Prop} {s s' s₁ : Solver} {a b t u : Ty} {v w : TypeVar}
  {ps : List (Ty × Ty)} {p : Ty × Ty} {k l : Kind} {r r' : Range}

theorem mem_freeVars_substitute {x : TypeVar} (ht : t.Formed B)
    (hx : x ∈ (t.substitute w (.var v .erased)).freeVars) : x = v ∨ x ∈ t.freeVarsUnder [w] := by
  obtain ⟨p, hp, r, hx⟩ := ht.mem_freeVarsUnder_mapVars (Θ := []) (Γ := []) (Ξ := []) hx
  rw [List.append_nil, Replacement.single] at hx
  split at hx
  · exact Or.inl (Ty.mem_freeVarsUnder_var.1 hx).1.symm
  · next hnot =>
      obtain ⟨rfl, hmem⟩ := Ty.mem_freeVarsUnder_var.1 hx
      refine Or.inr (ht.mem_freeVarsUnder.2 ⟨p, hp, rfl, ?_⟩)
      simp only [List.mem_append, List.mem_singleton, not_or]
      exact ⟨hmem, fun heq => hnot ⟨heq, heq ▸ hmem⟩⟩

theorem eq_or_mem_freeVarsUnder {x : TypeVar} (ht : t.Formed B) (hx : x ∈ t.freeVars) :
    x = v ∨ x ∈ t.freeVarsUnder [v] := by
  obtain ⟨p, hp, rfl, hnot⟩ := ht.mem_freeVarsUnder.1 hx
  refine or_iff_not_imp_left.2 fun hne => ht.mem_freeVarsUnder.2 ⟨p, hp, rfl, ?_⟩
  simpa [hne] using hnot

/-- Below two quantifiers there are the variables outside and the one that stands for theirs. -/
theorem bodyPairs_inside (ht : (Ty.all v k t r).Formed B) (hu : (Ty.all w l u r').Formed B) :
    AllInside (fun x => x ∈ (Ty.all v k t r).freeVars ++ (Ty.all w l u r').freeVars ∨ x = v)
      (bodyPairs v k t w l u).1 := by
  cases ht with
  | all r hv hsorted hk ht =>
  cases hu with
  | all r' hw hsorted' hl hu =>
  intro p hp
  rcases mem_bodyPairs hp with ⟨n, q, hn, hm, hq⟩ | rfl
  · refine ⟨fun x hx => ?_, fun x hx => ?_⟩
    · refine ((eq_or_mem_freeVarsUnder (v := v) (hk _ hn) hx).imp_right fun hx => ?_).symm
      exact List.mem_append_left _ (Ty.mem_freeVars_all.2 (Or.inl ⟨_, hn, hx⟩))
    · refine ((mem_freeVars_substitute (hl _ hm) (hq ▸ hx)).imp_right fun hx => ?_).symm
      exact List.mem_append_right _ (Ty.mem_freeVars_all.2 (Or.inl ⟨_, hm, hx⟩))
  · refine ⟨fun x hx => ?_, fun x hx => ?_⟩
    · refine ((eq_or_mem_freeVarsUnder (v := v) ht hx).imp_right fun hx => ?_).symm
      exact List.mem_append_left _ (Ty.mem_freeVars_all.2 (Or.inr hx))
    · refine ((mem_freeVars_substitute hu hx).imp_right fun hx => ?_).symm
      exact List.mem_append_right _ (Ty.mem_freeVars_all.2 (Or.inr hx))

theorem not_mem_of_reaches {x : TypeVar} (h : reaches s x v = false) :
    v ∉ (s.subst.apply (.var x .erased)).freeVars := by
  unfold reaches at h
  simp only [Bool.or_eq_false_iff] at h
  exact fun hmem => absurd (Ty.mentions_eq_true.2 hmem) (by simp [h.1])

/-- A successful comparison of types of a region keeps it closed, and changes nothing outside. -/
theorem Equates.region (h : Equates s ps s') (hplain : s.Plain) (hs : s.subst.Acyclic B)
    (hps : AllFormed B ps) (hV : s.Closed V) (hin : AllInside V ps) :
    s'.Closed V ∧ SameOutside V s s' := by
  induction h generalizing V with
  | nil => exact ⟨hV, .refl _⟩
  | same => exact ⟨hV.log, sameOutside_log⟩
  | cons h₁ _ ih₁ ih₂ =>
      obtain ⟨hV₁, hsame₁⟩ := ih₁ hplain hs hps.head hV hin.head
      obtain ⟨hV₂, hsame₂⟩ := ih₂ (h₁.plain hplain) (h₁.acyclic hs hps.head).1 hps.tail hV₁ hin.tail
      exact ⟨hV₂, hsame₁.trans hsame₂⟩
  | @bind s a b v t hm _ =>
      obtain ⟨ha, hb⟩ := hps.pair
      obtain ⟨hia, hib⟩ : a.Inside V ∧ b.Inside V := hin _ List.mem_cons_self
      obtain ⟨hv, hit⟩ := hm.inside (hV.inside_head hs ha hia) (hV.inside_head hs hb hib)
      exact ⟨hV.log.assign hit, sameOutside_log.trans (sameOutside_assign hv)⟩
  | rigid _ _ _ _ ih =>
      obtain ⟨ha, hb⟩ := hps.pair
      obtain ⟨hia, hib⟩ := hin _ List.mem_cons_self
      obtain ⟨hV₁, hsame⟩ := ih hplain hs (parts_formed (head_formed hs ha) (head_formed hs hb))
        hV.log (parts_inside (hV.inside_head hs ha hia) (hV.inside_head hs hb hib))
      exact ⟨hV₁, sameOutside_log.trans hsame⟩
  | @all s a b v k t r w l u r' s₁ ha' hb' _ hrun hfind houter ih =>
      obtain ⟨ha, hb⟩ := hps.pair
      obtain ⟨hia, hib⟩ : a.Inside V ∧ b.Inside V := hin _ List.mem_cons_self
      have hfa : (Ty.all v k t r).Formed B := ha' ▸ head_formed hs ha
      have hfb : (Ty.all w l u r').Formed B := hb' ▸ head_formed hs hb
      rw [ha', hb'] at houter
      -- The variables outside are unsolved, so they and the one of the quantifiers are a region.
      have hext := (hrun.acyclic hs (bodyPairs_formed hfa hfb)).2
      have hunsolved : ∀ x, x ∈ (Ty.all v k t r).freeVars ++ (Ty.all w l u r').freeVars ∨ x = v →
          s.subst.find? x = none := by
        rintro x (hx | rfl)
        · rcases List.mem_append.1 hx with hx | hx
          · exact find?_of_mem_freeVars_head hs ha (ha' ▸ hx)
          · exact find?_of_mem_freeVars_head hs hb (hb' ▸ hx)
        · exact hext.none hfind
      have hinside : ∀ x ∈ (Ty.all v k t r).freeVars ++ (Ty.all w l u r').freeVars, V x := by
        intro x hx
        rcases List.mem_append.1 hx with hx | hx
        · exact hV.inside_head hs ha hia x (ha' ▸ hx)
        · exact hV.inside_head hs hb hib x (hb' ▸ hx)
      obtain ⟨hW, hsame⟩ := ih hplain hs (bodyPairs_formed hfa hfb)
        ⟨fun x t hx hfind => by simp [hunsolved x hx] at hfind,
          fun x _ => by simp [hplain x, Kind.fields]⟩
        (bodyPairs_inside hfa hfb)
      have hs₁ := (hrun.acyclic hs (bodyPairs_formed hfa hfb)).1
      refine ⟨⟨fun x τ hx hτ y hy => ?_, fun x _ => ?_⟩, fun x hx => ?_⟩
      · cases hold : s.subst.find? x with
        | some τ' =>
            obtain rfl : τ' = τ := Option.some.inj ((hext x τ' hold).symm.trans hτ)
            exact hV.binding x τ' hx hold y hy
        | none =>
            by_cases hmem : x ∈ (Ty.all v k t r).freeVars ++ (Ty.all w l u r').freeVars ∨ x = v
            · rcases hmem with hmem | rfl
              · rcases hW.binding x τ (Or.inl hmem) hτ y hy with hy' | rfl
                · exact hinside y hy'
                · exact absurd (mem_freeVars_apply_of_find? hs₁ hτ hy hfind)
                    (not_mem_of_reaches (houter x hmem))
              · simp [hfind] at hτ
            · exact absurd ((hsame x hmem).1.symm.trans hτ) (by simp [hold])
      · simp [hrun.plain (s := s.log (s.head a) (s.head b)) hplain x, Kind.fields]
      · by_cases hmem : x ∈ (Ty.all v k t r).freeVars ++ (Ty.all w l u r').freeVars ∨ x = v
        · rcases hmem with hmem | rfl
          · exact absurd (hinside x hmem) hx
          · exact ⟨hfind.trans (hext.none hfind).symm, by rw [hrun.kinds]; rfl⟩
        · exact hsame x hmem

theorem Equates.compared_subset (h : Equates s ps s') : s.compared ⊆ s'.compared := by
  induction h with
  | nil => exact List.Subset.refl _
  | same | bind => exact List.subset_cons_self _ _
  | cons _ _ ih₁ ih₂ => exact List.Subset.trans ih₁ ih₂
  | rigid _ _ _ _ ih => exact List.Subset.trans (List.subset_cons_self _ _) ih
  | all _ _ _ _ _ _ ih => exact List.Subset.trans (List.subset_cons_self _ _) ih

theorem apply_head (havoid : s'.subst.Avoids B) (hs : s.subst.Acyclic B) (hs' : s'.subst.Acyclic B)
    (hext : s.subst.ExtendedBy s'.subst) (ht : t.Formed B) :
    s'.subst.apply (s.head t) = s'.subst.apply t := by
  rw [head_eq hs ht]
  exact havoid.apply_apply hs hs' hext ht

/-- Where nothing is captured, the types that a successful comparison is about agree afterwards. -/
theorem Equates.alpha (h : Equates s ps s') (hplain : s.Plain) (hs : s.subst.Acyclic B)
    (hps : AllFormed B ps) (havoid : s'.subst.Avoids B) (hno : ¬s'.Captured) :
    ∀ p ∈ ps, (s'.subst.apply p.1).Alpha (s'.subst.apply p.2) := by
  induction h with
  | nil => simp
  | @cons s s₁ s₂ p ps h₁ h₂ ih₁ ih₂ =>
      obtain ⟨hs₁, hext₁⟩ := h₁.acyclic hs hps.head
      obtain ⟨hs₂, hext₂⟩ := h₂.acyclic hs₁ hps.tail
      have hfirst := ih₁ hplain hs hps.head (havoid.of_extendedBy hext₂)
        (fun hcaptured => hno (hcaptured.mono h₂.compared_subset)) p List.mem_cons_self
      obtain ⟨hp₁, hp₂⟩ := hps p List.mem_cons_self
      exact List.forall_mem_cons.2 ⟨havoid.alpha_extend hs₁ hs₂ hext₂ hp₁ hp₂ hfirst,
        ih₂ (h₁.plain hplain) hs₁ hps.tail havoid hno⟩
  | @same s a b v r r' ha' hb' =>
      obtain ⟨ha, hb⟩ := hps.pair
      rw [head_eq hs ha] at ha'
      rw [head_eq hs hb] at hb'
      refine List.forall_mem_singleton.2 ?_
      change (s.subst.apply a).nameless [] = (s.subst.apply b).nameless []
      rw [ha', hb']
      rfl
  | @bind s a b v t hm hvt =>
      obtain ⟨ha, hb⟩ := hps.pair
      obtain ⟨hs', hext⟩ := (Equates.bind hm hvt).acyclic hs hps
      have hhead : ∀ {x : Ty}, x.Formed B →
          (s.subst.bind v t).apply (s.head x) = (s.subst.bind v t).apply x := fun hx =>
        apply_head havoid hs hs' hext hx
      have hvar : ∀ r, (s.subst.bind v t).apply (.var v r) = (s.subst.bind v t).apply t := fun r =>
        havoid.apply_var_of_some hs' (by simp [Substitution.find?_bind])
      refine List.forall_mem_singleton.2 (congrArg (Ty.nameless []) ?_)
      change (s.subst.bind v t).apply a = (s.subst.bind v t).apply b
      rw [← hhead ha, ← hhead hb]
      obtain ⟨r, ⟨hv, ht⟩ | ⟨hv, ht⟩⟩ := hm
      · rw [hv, ht, hvar]
      · rw [hv, ht, hvar]
  | @rigid s a b s₁ hra hrb hnone hrun ih =>
      obtain ⟨ha, hb⟩ := hps.pair
      have hparts := parts_formed (head_formed hs ha) (head_formed hs hb)
      obtain ⟨hs₁, hext⟩ := hrun.acyclic hs hparts
      refine List.forall_mem_singleton.2 ?_
      rw [← apply_head havoid hs hs₁ hext ha, ← apply_head havoid hs hs₁ hext hb]
      exact (alpha_iff_parts hra hrb (head_formed hs ha) (head_formed hs hb)).2
        ⟨hnone, ih hplain hs hparts havoid hno⟩
  | @all s a b v k t r w l u r' s₁ ha' hb' hnone hrun hfind houter ih =>
      obtain ⟨ha, hb⟩ := hps.pair
      have hfa : (Ty.all v k t r).Formed B := ha' ▸ head_formed hs ha
      have hfb : (Ty.all w l u r').Formed B := hb' ▸ head_formed hs hb
      obtain ⟨hs₁, hext⟩ := hrun.acyclic hs (bodyPairs_formed hfa hfb)
      have hcapture : ¬Captures v w (l.occurrences [] ++ u.occurrences []) := fun hcatch =>
        hno ⟨_, hrun.compared_subset List.mem_cons_self,
          v, k, t, r, w, l, u, r', by rw [ha', hb'], hcatch⟩
      have hfree : v ∉ (Ty.all w l u r').freeVars := fun hmem =>
        not_mem_of_reaches (houter v (List.mem_append_right _ (hb' ▸ hmem)))
          (by simp [Substitution.apply_var_of_none hfind])
      refine List.forall_mem_singleton.2 ?_
      rw [← apply_head havoid hs hs₁ hext ha, ← apply_head havoid hs hs₁ hext hb, ha', hb']
      exact (havoid.alpha_all_iff hs₁ hfa hfb hcapture hfree).2
        ⟨hnone, ih hplain hs (bodyPairs_formed hfa hfb) havoid hno⟩

end Unify

end FieldML
