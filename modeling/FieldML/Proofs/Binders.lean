import FieldML.Proofs.Substitution

/-!
# Substitutions under binders

Under binders a substitution acts as if the bound variables had no types. So what holds of types
without quantifiers, that applying it leaves no bound variable and that applying it again changes
nothing, holds of all types.
-/

namespace FieldML

namespace Ty

variable {f g : Replacement}

mutual

/-- Two replacements in a row are one, also under binders. -/
theorem mapVars_comp (bound : List TypeVar) (t : Ty) :
    (t.mapVars f bound).mapVars g bound =
      t.mapVars (fun bound v r => (f bound v r).mapVars g bound) bound := by
  match t with
  | .base _ _ | .var _ _ => rfl
  | .func p q _ => simp only [mapVars, mapVars_comp bound p, mapVars_comp bound q]
  | .list t _ | .ref t _ => simp only [mapVars, mapVars_comp bound t]
  | .product ts _ | .variant _ ts _ => simp only [mapVars, mapVarsList_comp bound ts]
  | .synonym _ ts t _ => simp only [mapVars, mapVarsList_comp bound ts, mapVars_comp bound t]
  | .all v k t _ =>
      simp only [mapVars, kindMapVars_comp (v :: bound) k, mapVars_comp (v :: bound) t]
  | .record fs _ => simp only [mapVars, mapVarsFields_comp bound fs]

theorem kindMapVars_comp (bound : List TypeVar) (k : Kind) :
    (k.mapVars f bound).mapVars g bound =
      k.mapVars (fun bound v r => (f bound v r).mapVars g bound) bound := by
  match k with
  | .universal => rfl
  | .record fs => simp only [Kind.mapVars, mapVarsFields_comp bound fs]

theorem mapVarsList_comp (bound : List TypeVar) (ts : List Ty) :
    mapVarsList g bound (mapVarsList f bound ts) =
      mapVarsList (fun bound v r => (f bound v r).mapVars g bound) bound ts := by
  match ts with
  | [] => rfl
  | t :: ts => simp only [mapVarsList, mapVars_comp bound t, mapVarsList_comp bound ts]

theorem mapVarsFields_comp (bound : List TypeVar) (fs : List (String × Ty)) :
    mapVarsFields g bound (mapVarsFields f bound fs) =
      mapVarsFields (fun bound v r => (f bound v r).mapVars g bound) bound fs := by
  match fs with
  | [] => rfl
  | (_, t) :: fs => simp only [mapVarsFields, mapVars_comp bound t, mapVarsFields_comp bound fs]

end

variable {P : TypeVar → Prop}

mutual

/-- What holds of the variables that a replacement leaves free holds of those of its result. -/
theorem forall_freeVarsUnder_mapVars
    (hf : ∀ bound v r, ∀ w ∈ (f bound v r).freeVarsUnder bound, P w)
    (bound : List TypeVar) (t : Ty) :
    ∀ w ∈ (t.mapVars f bound).freeVarsUnder bound, P w := by
  match t with
  | .base _ _ => simp [mapVars, freeVarsUnder]
  | .var v r => exact hf bound v r
  | .func p q _ =>
      intro w hw
      simp only [mapVars, freeVarsUnder, List.mem_append] at hw
      exact hw.elim (forall_freeVarsUnder_mapVars hf bound p w)
        (forall_freeVarsUnder_mapVars hf bound q w)
  | .list t _ | .ref t _ => exact forall_freeVarsUnder_mapVars hf bound t
  | .product ts _ | .variant _ ts _ | .synonym _ ts _ _ =>
      exact forall_freeVarsOfList_mapVarsList hf bound ts
  | .all v k t _ =>
      intro w hw
      simp only [mapVars, freeVarsUnder, List.mem_append] at hw
      exact hw.elim (kind_forall_freeVarsUnder_mapVars hf (v :: bound) k w)
        (forall_freeVarsUnder_mapVars hf (v :: bound) t w)
  | .record fs _ => exact forall_freeVarsOfFields_mapVarsFields hf bound fs

theorem kind_forall_freeVarsUnder_mapVars
    (hf : ∀ bound v r, ∀ w ∈ (f bound v r).freeVarsUnder bound, P w)
    (bound : List TypeVar) (k : Kind) :
    ∀ w ∈ (k.mapVars f bound).freeVarsUnder bound, P w := by
  match k with
  | .universal => simp [Kind.mapVars, Kind.freeVarsUnder]
  | .record fs => exact forall_freeVarsOfFields_mapVarsFields hf bound fs

theorem forall_freeVarsOfList_mapVarsList
    (hf : ∀ bound v r, ∀ w ∈ (f bound v r).freeVarsUnder bound, P w)
    (bound : List TypeVar) (ts : List Ty) :
    ∀ w ∈ freeVarsOfList bound (mapVarsList f bound ts), P w := by
  match ts with
  | [] => simp [mapVarsList, freeVarsOfList]
  | t :: ts =>
      intro w hw
      simp only [mapVarsList, freeVarsOfList, List.mem_append] at hw
      exact hw.elim (forall_freeVarsUnder_mapVars hf bound t w)
        (forall_freeVarsOfList_mapVarsList hf bound ts w)

theorem forall_freeVarsOfFields_mapVarsFields
    (hf : ∀ bound v r, ∀ w ∈ (f bound v r).freeVarsUnder bound, P w)
    (bound : List TypeVar) (fs : List (String × Ty)) :
    ∀ w ∈ freeVarsOfFields bound (mapVarsFields f bound fs), P w := by
  match fs with
  | [] => simp [mapVarsFields, freeVarsOfFields]
  | (_, t) :: fs =>
      intro w hw
      simp only [mapVarsFields, freeVarsOfFields, List.mem_append] at hw
      exact hw.elim (forall_freeVarsUnder_mapVars hf bound t w)
        (forall_freeVarsOfFields_mapVarsFields hf bound fs w)

end

/-- Binders only take variables away. -/
theorem Simple.of_mem_freeVarsUnder {syn : Prop} {bound : List TypeVar} {t : Ty} {w : TypeVar}
    (ht : t.Simple syn) (hw : w ∈ t.freeVarsUnder bound) : w ∈ t.freeVars ∧ w ∉ bound := by
  induction ht with
  | base b r => simp [freeVarsUnder] at hw
  | var v r =>
      rw [freeVarsUnder] at hw
      split at hw
      · simp at hw
      · next hv =>
          obtain rfl := List.mem_singleton.1 hw
          exact ⟨mem_freeVars_var.2 rfl, hv⟩
  | func r hp hq ihp ihq =>
      rw [freeVarsUnder, List.mem_append] at hw
      rcases hw with hw | hw
      · exact ⟨mem_freeVars_func.2 (Or.inl (ihp hw).1), (ihp hw).2⟩
      · exact ⟨mem_freeVars_func.2 (Or.inr (ihq hw).1), (ihq hw).2⟩
  | list r ht ih => exact ih hw
  | ref r ht ih => exact ih hw
  | product r hts ih =>
      obtain ⟨t, ht, hw⟩ := mem_freeVarsOfList.1 hw
      exact ⟨mem_freeVars_product.2 ⟨t, ht, (ih t ht hw).1⟩, (ih t ht hw).2⟩
  | variant n r hts ih =>
      obtain ⟨t, ht, hw⟩ := mem_freeVarsOfList.1 hw
      exact ⟨mem_freeVars_variant.2 ⟨t, ht, (ih t ht hw).1⟩, (ih t ht hw).2⟩
  | synonym n r hsyn hts ht hvars ihts iht =>
      obtain ⟨t, ht, hw⟩ := mem_freeVarsOfList.1 hw
      exact ⟨mem_freeVars_synonym.2 ⟨t, ht, (ihts t ht hw).1⟩, (ihts t ht hw).2⟩
  | record r hsorted hfs ih =>
      obtain ⟨p, hp, hw⟩ := mem_freeVarsOfFields.1 hw
      exact ⟨mem_freeVars_record.2 ⟨p, hp, (ih p hp hw).1⟩, (ih p hp hw).2⟩

end Ty

namespace Substitution

variable {syn : Prop} {s s' : Substitution} {bound : List TypeVar} {v w : TypeVar} {r : Range}
  {n : Nat}

/-- The substitution that gives no types to some variables. -/
def hide (s : Substitution) (bound : List TypeVar) : Substitution :=
  ⟨s.bindings.filter fun v _ => v ∉ bound⟩

theorem find?_hide : (s.hide bound).find? v = if v ∈ bound then none else s.find? v := by
  unfold find? hide
  rw [Std.TreeMap.getElem?_filter]
  by_cases hv : v ∈ bound
  · simp [hv]
  · simp only [Std.TreeMap.getKey_eq, hv, not_false_eq_true, decide_true, if_false]
    cases s.bindings[v]? <;> rfl

theorem size_hide_le : (s.hide bound).size ≤ s.size := Std.TreeMap.size_filter_le_size

theorem ExtendedBy.hide (h : s.ExtendedBy s') : (s.hide bound).ExtendedBy (s'.hide bound) := by
  intro v t hv
  rw [find?_hide] at hv ⊢
  split at hv
  · simp at hv
  · next hbound => rw [if_neg hbound, h v t hv]

namespace Triangular

protected theorem hide (h : s.Triangular syn) : (s.hide bound).Triangular syn where
  simple v t hv := by
    rw [find?_hide] at hv
    split at hv
    · simp at hv
    · exact h.simple v t hv
  ordered := by
    obtain ⟨order, horder⟩ := h.ordered
    refine ⟨order, fun v t hv w hw hbound => ?_⟩
    rw [find?_hide] at hv hbound
    split at hv
    · simp at hv
    · split at hbound
      · exact absurd rfl hbound
      · exact horder v t hv w hw hbound

/-- Following variables more often than there are bindings changes nothing. -/
theorem follow_nil_of_size_le (h : s.Triangular syn) (hn : s.size ≤ n) :
    s.follow n [] v r = s.follow s.size [] v r := by
  obtain ⟨order, horder⟩ := h.ordered
  induction n, hn using Nat.le_induction with
  | base => rfl
  | succ n hn ih =>
      rw [← ih]
      refine h.follow_stable n order horder v r fun hv => ?_
      obtain ⟨t, ht⟩ := Option.ne_none_iff_exists'.1 hv
      have hlt := countP_lt_countP (p := fun x => decide (order x < order v))
        (q := fun _ => true) (fun _ _ _ => rfl) (mem_keys ht) (by simp) rfl
      rw [List.countP_true, Std.TreeMap.length_keys] at hlt
      exact hlt.trans_le hn

/-- Under binders, following a variable is following it while the bound ones are hidden. -/
theorem follow_eq_hide (h : s.Triangular syn) (bound : List TypeVar) (n : Nat) (v : TypeVar)
    (r : Range) : s.follow n bound v r = (s.hide bound).follow n [] v r := by
  induction n generalizing v r with
  | zero => rfl
  | succ n ih =>
      by_cases hv : v ∈ bound
      · rw [follow_of_none _ (by rw [find?_hide, if_pos hv]), follow, if_pos hv]
      · rw [follow, if_neg hv]
        cases hfind : s.find? v with
        | none => rw [follow_of_none _ (by rw [find?_hide, if_neg hv, hfind])]
        | some t =>
            rw [follow_of_some n (by rw [find?_hide, if_neg hv, hfind])]
            exact (h.simple v t hfind).mapVars_congr fun w _ r' => ih w r'

theorem follow_eq_apply_hide (h : s.Triangular syn) (bound : List TypeVar) (hn : s.size ≤ n)
    (v : TypeVar) (r : Range) : s.follow n bound v r = (s.hide bound).apply (.var v r) := by
  rw [h.follow_eq_hide]
  exact h.hide.follow_nil_of_size_le (size_hide_le.trans hn)

/-- More steps than there are bindings follow every variable of every type to its end. -/
theorem follow_of_size_le (h : s.Triangular syn) (hn : s.size ≤ n) :
    s.follow n = s.follow s.size := by
  funext bound v r
  rw [h.follow_eq_apply_hide bound hn, h.follow_eq_apply_hide bound (Nat.le_refl _)]

theorem mapVars_follow (h : s.Triangular syn) (h' : s'.Triangular syn) (hext : s.ExtendedBy s')
    (bound : List TypeVar) (v : TypeVar) (r : Range) :
    (s.follow s.size bound v r).mapVars (s'.follow s'.size) bound =
      s'.follow s'.size bound v r := by
  rw [h.follow_eq_apply_hide bound (Nat.le_refl _), h'.follow_eq_apply_hide bound (Nat.le_refl _),
    ← h.hide.apply_apply h'.hide hext.hide (.var v r)]
  refine (h.hide.simple.apply (.var v r)).mapVars_congr fun w hw r' => ?_
  rw [h'.follow_eq_apply_hide bound (Nat.le_refl _)]
  rfl

/-- Applying a substitution to any type and then one that extends it is applying the latter. -/
theorem apply_apply_all (h : s.Triangular syn) (h' : s'.Triangular syn) (hext : s.ExtendedBy s')
    (t : Ty) : s'.apply (s.apply t) = s'.apply t := by
  have hfollow : (fun bound v r => (s.follow s.size bound v r).mapVars (s'.follow s'.size) bound) =
      s'.follow s'.size := by
    funext bound v r
    exact h.mapVars_follow h' hext bound v r
  unfold apply
  rw [Ty.mapVars_comp, hfollow]

/-- Applying a substitution to any type leaves no bound variable. -/
theorem find?_of_mem_freeVars_apply_all (h : s.Triangular syn) (t : Ty)
    (hw : w ∈ (s.apply t).freeVars) : s.find? w = none := by
  refine Ty.forall_freeVarsUnder_mapVars (P := fun w => s.find? w = none) (f := s.follow s.size)
    (fun bound v r w hw => ?_) [] t w hw
  rw [h.follow_eq_apply_hide bound (Nat.le_refl _)] at hw
  obtain ⟨hw, hbound⟩ := (h.hide.simple.apply (.var v r)).of_mem_freeVarsUnder hw
  have hnone := h.hide.find?_of_mem_freeVars_apply (.var v r) hw
  rwa [find?_hide, if_neg hbound] at hnone

end Triangular

end Substitution

end FieldML
