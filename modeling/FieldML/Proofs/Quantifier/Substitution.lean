import FieldML.Proofs.Binders
import FieldML.Proofs.Quantifier.Formed

/-!
# Substitutions for quantified types

A substitution that keeps away from all binders acts under a binder as it does elsewhere. So it acts
on types as on nameless types, where nothing can be captured.
-/

namespace FieldML.Substitution

variable {B : TypeVar → Prop} {s s' : Substitution} {bound Δ : List TypeVar} {t u : Ty}
  {v w : TypeVar} {r : Range} {n : Nat}

/-- The types given to variables are formed, and no variable leads back to itself. -/
structure Acyclic (B : TypeVar → Prop) (s : Substitution) : Prop where
  formed : ∀ v t, s.find? v = some t → t.Formed B
  ordered : s.Ordered

/-- No variable of `B` is given a type or is free in one. -/
def Avoids (B : TypeVar → Prop) (s : Substitution) : Prop :=
  ∀ v t, s.find? v = some t → ¬B v ∧ ∀ w ∈ t.freeVars, ¬B w

theorem follow_of_mem (h : v ∈ bound) : s.follow n bound v r = .var v r := by
  cases n <;> simp [follow, h]

theorem follow_of_find?_none (h : s.find? v = none) : s.follow n bound v r = .var v r := by
  cases n <;> simp [follow, h]

theorem follow_of_find?_some (h : s.find? v = some t) (hv : v ∉ bound) :
    s.follow (n + 1) bound v r = t.mapVars (s.follow n) bound := by
  simp [follow, h, hv]

theorem Avoids.find?_eq_none (h : s.Avoids B) (hv : B v) : s.find? v = none := by
  cases hfind : s.find? v with
  | none => rfl
  | some t => exact absurd hv (h v t hfind).1

theorem Avoids.of_extendedBy (h : s'.Avoids B) (hext : s.ExtendedBy s') : s.Avoids B :=
  fun v t hv => h v t (hext v t hv)

namespace Acyclic

theorem empty : Acyclic B Substitution.empty where
  formed v t h := by simp [find?_empty] at h
  ordered := ordered_empty

theorem follow (h : s.Acyclic B) : (s.follow n bound v r).Formed B := by
  induction n generalizing bound v r with
  | zero => exact .var v r
  | succ n ih =>
      by_cases hv : v ∈ bound
      · rw [follow_of_mem hv]
        exact .var v r
      · cases hfind : s.find? v with
        | none =>
            rw [follow_of_find?_none hfind]
            exact .var v r
        | some t =>
            rw [follow_of_find?_some hfind hv]
            exact (h.formed v t hfind).mapVars fun _ _ _ => ih

theorem apply (h : s.Acyclic B) (ht : t.Formed B) : (s.apply t).Formed B :=
  ht.mapVars fun _ _ _ => h.follow

theorem find?_of_mem_freeVars_follow (h : s.Acyclic B) {order : TypeVar → Nat}
    (horder : ∀ v t, s.find? v = some t →
      ∀ w ∈ t.freeVars, s.find? w ≠ none → order w < order v)
    (hn : s.find? v ≠ none → s.bindings.keys.countP (order · < order v) < n)
    (hw : w ∈ (s.follow n bound v r).freeVarsUnder bound) : s.find? w = none := by
  induction n generalizing bound v r with
  | zero =>
      obtain ⟨rfl, -⟩ := Ty.mem_freeVarsUnder_var.1 hw
      exact not_not.1 fun hfind => Nat.not_lt_zero _ (hn hfind)
  | succ n ih =>
      by_cases hv : v ∈ bound
      · rw [follow_of_mem hv] at hw
        obtain ⟨rfl, hbound⟩ := Ty.mem_freeVarsUnder_var.1 hw
        exact absurd hv hbound
      · cases hfind : s.find? v with
        | none =>
            rw [follow_of_find?_none hfind] at hw
            exact (Ty.mem_freeVarsUnder_var.1 hw).1 ▸ hfind
        | some t =>
            have ht := h.formed v t hfind
            rw [follow_of_find?_some hfind hv] at hw
            obtain ⟨p, hp, r', hw⟩ := ht.mem_freeVarsUnder_mapVars (Θ := []) hw
            by_cases hmem : p.2 ∈ p.1 ++ bound
            · rw [follow_of_mem hmem] at hw
              obtain ⟨rfl, hbound⟩ := Ty.mem_freeVarsUnder_var.1 hw
              exact absurd hmem hbound
            · refine ih (fun hsome => ?_) hw
              have hfree : p.2 ∈ t.freeVars :=
                ht.mem_freeVarsUnder.2 ⟨p, hp, rfl, fun h => hmem (by simp_all)⟩
              have hlt := countP_keys_lt hsome (horder v t hfind p.2 hfree hsome)
              have := hn (by simp [hfind])
              omega

theorem countP_keys_lt_size (order : TypeVar → Nat) (hv : s.find? v ≠ none) :
    s.bindings.keys.countP (order · < order v) < s.size := by
  obtain ⟨t, ht⟩ := Option.ne_none_iff_exists'.1 hv
  have hlt := countP_lt_countP (p := fun x => decide (order x < order v)) (q := fun _ => true)
    (fun _ _ _ => rfl) (mem_keys ht) (by simp) rfl
  rwa [List.countP_true, Std.TreeMap.length_keys] at hlt

/-- Applying the substitution leaves no bound variable. -/
theorem find?_of_mem_freeVars_apply (h : s.Acyclic B) (ht : t.Formed B)
    (hw : w ∈ (s.apply t).freeVars) : s.find? w = none := by
  obtain ⟨order, horder⟩ := h.ordered
  obtain ⟨p, hp, r, hw⟩ := ht.mem_freeVarsUnder_mapVars (Θ := []) (Γ := []) (Ξ := []) hw
  rw [List.append_nil] at hw
  exact h.find?_of_mem_freeVars_follow horder (countP_keys_lt_size order) hw

theorem bind (h : s.Acyclic B) (ht : t.Formed B) (hfree : ∀ w ∈ t.freeVars, s.find? w = none)
    (hvt : v ∉ t.freeVars) : (s.bind v t).Acyclic B where
  formed w u hw := by
    rw [find?_bind] at hw
    split at hw
    · exact Option.some.inj hw ▸ ht
    · exact h.formed w u hw
  ordered := h.ordered.bind hfree hvt

end Acyclic

namespace Avoids

/-- Binders around a variable do not matter. -/
theorem follow_eq (h : s.Avoids B) (hs : s.Acyclic B) (hbound : ∀ v ∈ bound, B v) :
    s.follow n bound v r = s.follow n [] v r := by
  induction n generalizing bound v r with
  | zero => rfl
  | succ n ih =>
      cases hfind : s.find? v with
      | none => rw [follow_of_find?_none hfind, follow_of_find?_none hfind]
      | some t =>
          have hv : v ∉ bound := fun hv => (h v t hfind).1 (hbound v hv)
          have ht := hs.formed v t hfind
          rw [follow_of_find?_some hfind hv, follow_of_find?_some hfind List.not_mem_nil]
          refine ht.mapVars_congr (Θ := []) fun p hp r' => ?_
          have hp := ht.of_mem_occurrences (by simp) hp
          rw [ih fun v hv => (List.mem_append.1 hv).elim (hp v) (hbound v),
            ih fun v hv => (List.mem_append.1 hv).elim (hp v) (by simp)]

theorem mapVars_eq (h : s.Avoids B) (hs : s.Acyclic B) (ht : t.Formed B)
    (hbound : ∀ v ∈ bound, B v) : t.mapVars (s.follow s.size) bound = s.apply t := by
  refine ht.mapVars_congr (Θ := []) fun p hp r' => ?_
  have hp := ht.of_mem_occurrences (by simp) hp
  rw [h.follow_eq hs fun v hv => (List.mem_append.1 hv).elim (hp v) (hbound v),
    h.follow_eq hs fun v hv => (List.mem_append.1 hv).elim (hp v) (by simp)]

theorem follow_stable (h : s.Avoids B) (hs : s.Acyclic B) {order : TypeVar → Nat}
    (horder : ∀ v t, s.find? v = some t →
      ∀ w ∈ t.freeVars, s.find? w ≠ none → order w < order v)
    (hn : s.find? v ≠ none → s.bindings.keys.countP (order · < order v) < n) :
    s.follow (n + 1) [] v r = s.follow n [] v r := by
  induction n generalizing v r with
  | zero =>
      have hnone := not_not.1 fun hfind => Nat.not_lt_zero _ (hn hfind)
      rw [follow_of_find?_none hnone, follow_of_find?_none hnone]
  | succ n ih =>
      cases hfind : s.find? v with
      | none => rw [follow_of_find?_none hfind, follow_of_find?_none hfind]
      | some t =>
          have ht := hs.formed v t hfind
          rw [follow_of_find?_some hfind List.not_mem_nil,
            follow_of_find?_some hfind List.not_mem_nil]
          refine ht.mapVars_congr (Θ := []) (Γ := []) (Ξ := []) fun p hp r' => ?_
          rw [List.append_nil]
          by_cases hmem : p.2 ∈ p.1
          · rw [follow_of_mem hmem, follow_of_mem hmem]
          · have hbound := ht.of_mem_occurrences (by simp) hp
            rw [h.follow_eq hs hbound, h.follow_eq hs hbound]
            refine ih fun hsome => ?_
            have hfree : p.2 ∈ t.freeVars :=
              ht.mem_freeVarsUnder.2 ⟨p, hp, rfl, by simpa using hmem⟩
            have hlt := countP_keys_lt hsome (horder v t hfind p.2 hfree hsome)
            have := hn (by simp [hfind])
            omega

/-- A bound variable stands for what its type stands for. -/
theorem apply_var_of_some (h : s.Avoids B) (hs : s.Acyclic B) (hv : s.find? v = some t) :
    s.apply (.var v r) = s.apply t := by
  obtain ⟨order, horder⟩ := hs.ordered
  have hcount := Acyclic.countP_keys_lt_size (s := s) (v := v) order (by simp [hv])
  have hstep := h.follow_stable hs (r := r) horder fun _ => hcount
  rw [follow_of_find?_some hv List.not_mem_nil] at hstep
  exact hstep.symm

/-- Applying a substitution and then one that extends it is applying the latter. -/
theorem apply_apply (h : s'.Avoids B) (hs : s.Acyclic B) (hs' : s'.Acyclic B)
    (hext : s.ExtendedBy s') (ht : t.Formed B) : s'.apply (s.apply t) = s'.apply t := by
  have hfollow : ∀ n bound v r, (∀ v ∈ bound, B v) →
      (s.follow n bound v r).mapVars (s'.follow s'.size) bound = s'.follow s'.size bound v r := by
    intro n
    induction n with
    | zero => exact fun bound v r hbound => rfl
    | succ n ih =>
        intro bound v r hbound
        cases hfind : s.find? v with
        | none =>
            rw [follow_of_find?_none hfind]
            rfl
        | some t =>
            have hfind' := hext v t hfind
            have hv : v ∉ bound := fun hv => (h v t hfind').1 (hbound v hv)
            have ht := hs.formed v t hfind
            calc (s.follow (n + 1) bound v r).mapVars (s'.follow s'.size) bound
              _ = t.mapVars (fun bound v r =>
                    (s.follow n bound v r).mapVars (s'.follow s'.size) bound) bound := by
                  rw [follow_of_find?_some hfind hv, Ty.mapVars_comp]
              _ = t.mapVars (s'.follow s'.size) bound :=
                  ht.mapVars_congr (Θ := []) fun p hp r => ih _ _ _ fun v hv =>
                    (List.mem_append.1 hv).elim (ht.of_mem_occurrences (by simp) hp v) (hbound v)
              _ = s'.apply (.var v r) := by
                  rw [h.mapVars_eq hs' ht hbound, h.apply_var_of_some hs' hfind']
              _ = s'.follow s'.size bound v r := (h.follow_eq hs' hbound).symm
  unfold Substitution.apply
  rw [Ty.mapVars_comp]
  refine ht.mapVars_congr (Θ := []) (Γ := []) (Ξ := []) fun p hp r => ?_
  rw [List.append_nil]
  exact hfollow _ _ _ _ (ht.of_mem_occurrences (by simp) hp)

theorem mem_freeVars_follow_cases (h : s.Avoids B) (hs : s.Acyclic B)
    (hw : w ∈ (s.follow n [] v r).freeVars) : w = v ∨ ¬B w := by
  induction n generalizing v r with
  | zero => exact Or.inl (Ty.mem_freeVars_var.1 hw)
  | succ n ih =>
      cases hfind : s.find? v with
      | none =>
          rw [follow_of_find?_none hfind] at hw
          exact Or.inl (Ty.mem_freeVars_var.1 hw)
      | some t =>
          have ht := hs.formed v t hfind
          rw [follow_of_find?_some hfind List.not_mem_nil] at hw
          obtain ⟨p, hp, r', hw⟩ :=
            ht.mem_freeVarsUnder_mapVars (Θ := []) (Γ := []) (Ξ := []) hw
          rw [List.append_nil] at hw
          by_cases hmem : p.2 ∈ p.1
          · rw [follow_of_mem hmem] at hw
            obtain ⟨rfl, hnot⟩ := Ty.mem_freeVarsUnder_var.1 hw
            exact absurd hmem hnot
          · rw [h.follow_eq hs (ht.of_mem_occurrences (by simp) hp)] at hw
            have hfree : p.2 ∈ t.freeVars := ht.mem_freeVarsUnder.2 ⟨p, hp, rfl, by simpa using hmem⟩
            refine Or.inr ((ih (hs.follow.mem_freeVars_of_under hw)).elim ?_ id)
            rintro rfl
            exact (h v t hfind).2 _ hfree

end Avoids

/-- What a nameless variable stands for. -/
def meaning (s : Substitution) (_ : Nat) : NamelessVar → NamelessTy
  | .bound i => .var (.bound i)
  | .free v => (s.apply (.var v .erased)).nameless []

theorem nameless_apply_var (v : TypeVar) (r r' : Range) :
    (s.apply (.var v r)).nameless [] = (s.apply (.var v r')).nameless [] := by
  change (s.follow s.size [] v r).nameless [] = (s.follow s.size [] v r').nameless []
  cases s.size with
  | zero => rfl
  | succ n =>
      cases hfind : s.find? v with
      | none => rw [follow_of_find?_none hfind, follow_of_find?_none hfind]; rfl
      | some t =>
          rw [follow_of_find?_some hfind List.not_mem_nil,
            follow_of_find?_some hfind List.not_mem_nil]

namespace Avoids

/-- Under binders that it keeps away from, the substitution acts on a type as on the nameless
one. -/
theorem nameless_apply (h : s.Avoids B) (hs : s.Acyclic B) (ht : t.Formed B)
    (hΔ : ∀ v ∈ Δ, B v) : (s.apply t).nameless Δ = (t.nameless Δ).mapVars s.meaning 0 := by
  refine ht.nameless_mapVars (Θ := []) (Γ := []) fun p hp r => ?_
  have hbound := ht.of_mem_occurrences (by simp) hp
  rw [List.append_nil]
  by_cases hmem : p.2 ∈ p.1 ++ Δ
  · have hB : B p.2 := (List.mem_append.1 hmem).elim (hbound _) (hΔ _)
    rw [follow_of_find?_none (h.find?_eq_none hB), Ty.nameless_var, NamelessVar.under,
      if_pos hmem]
    rfl
  · rw [NamelessVar.under_of_notMem hmem, h.follow_eq hs hbound]
    refine Eq.trans ?_ (nameless_apply_var p.2 r .erased)
    refine (hs.apply (.var p.2 r)).nameless_of_notMem fun w hw hwmem => ?_
    rcases h.mem_freeVars_follow_cases hs hw with rfl | hnot
    · exact hmem hwmem
    · exact hnot ((List.mem_append.1 hwmem).elim (hbound w) (hΔ w))

/-- Types that agree up to the names of bound variables still do when more is known. -/
theorem alpha_extend (h : s'.Avoids B) (hs : s.Acyclic B) (hs' : s'.Acyclic B)
    (hext : s.ExtendedBy s') (ht : t.Formed B) (hu : u.Formed B)
    (heq : (s.apply t).Alpha (s.apply u)) : (s'.apply t).Alpha (s'.apply u) := by
  have htrans : ∀ {t : Ty}, t.Formed B →
      (s'.apply t).nameless [] = ((s.apply t).nameless []).mapVars s'.meaning 0 := by
    intro t ht
    rw [← h.apply_apply hs hs' hext ht]
    exact h.nameless_apply hs' (hs.apply ht) (by simp)
  exact (htrans ht).trans ((congrArg (NamelessTy.mapVars s'.meaning 0) heq).trans (htrans hu).symm)

end Avoids

end FieldML.Substitution
