import FieldML.Proofs.Unify.Alike

/-!
# Constraints that unification keeps

A field that was known of a type stays known when a variable is bound, provided that the fields of
its kind are made equal to those of its type, and when two variables are joined, provided that the
fields which their kinds share are alike.
-/

namespace FieldML

namespace Unify

open Solver

variable {k l : Kind} {fs gs : List (String × Ty)} {m : String} {t u : Ty}

theorem mem_sharedPairs_of_get? (ht : Fields.get? k.fields m = some t) (hu : (m, u) ∈ l.fields) :
    (t, u) ∈ sharedPairs k l :=
  List.mem_filterMap.2 ⟨(m, u), hu, by simp [ht]⟩

theorem get?_mergeFields (hgs : Fields.Sorted gs) :
    Fields.get? (mergeFields fs gs) m = (Fields.get? fs m).or (Fields.get? gs m) := by
  unfold mergeFields
  suffices h : ∀ merged : List (String × Ty),
      Fields.get? (gs.foldl (fun merged p => if (Fields.get? fs p.1).isSome then merged
        else Fields.insert p.1 p.2 merged) merged) m =
      if (Fields.get? fs m).isSome then Fields.get? merged m
      else (Fields.get? gs m).or (Fields.get? merged m) by
    rw [h fs]
    cases Fields.get? fs m <;> simp
  induction gs with
  | nil => intro merged; simp [Fields.get?]
  | cons g gs ih =>
      intro merged
      obtain ⟨x, a⟩ := g
      rw [List.foldl_cons, ih hgs.tail]
      by_cases hx : x = m
      · subst hx
        have hnone : Fields.get? gs x = none := by
          refine Fields.get?_eq_none.2 fun hmem => ?_
          exact String.lt_irrefl x ((Fields.sorted_cons.1 hgs).1 x hmem)
        cases hfs : Fields.get? fs x with
        | none => simp [Fields.get?, Fields.get?_insert, hnone]
        | some b => simp
      · cases Fields.get? fs x with
        | none => simp [Fields.get?, Fields.get?_insert, hx]
        | some b => simp [Fields.get?, hx]

theorem get?_mergedKind (hl : Fields.Sorted l.fields) : Fields.get? (mergedKind k l).fields m =
    (Fields.get? k.fields m).or (Fields.get? l.fields m) := by
  cases k with
  | universal => simp [mergedKind, Kind.fields, Fields.get?]
  | record fs =>
      cases l with
      | universal => simp [mergedKind, Kind.fields, Fields.get?]
      | record gs => exact get?_mergeFields hl

/-- A type that meets a kind is a record that has the fields of the kind. -/
theorem exists_of_kindPairs (hnone : (kindPairs k t).2 = none)
    (hu : Fields.get? k.fields m = some u) :
    ∃ fs r x, t = .record fs r ∧ Fields.get? fs m = some x ∧ (u, x) ∈ (kindPairs k t).1 := by
  cases k with
  | universal => simp [Kind.fields, Fields.get?] at hu
  | record required =>
      cases t with
      | record fs r =>
          simp only [kindPairs, Option.map_eq_none_iff] at hnone ⊢
          obtain ⟨x, hx, hmem⟩ := mem_fieldPairs_of_mem hnone (Fields.mem_of_get? hu)
          exact ⟨fs, r, x, rfl, hx, hmem⟩
      | _ => simp [kindPairs] at hnone

end Unify

namespace Ty

theorem expand_mapVars_expand {f : Replacement} {bound : List TypeVar} (t : Ty) :
    (t.expand.mapVars f bound).expand = (t.mapVars f bound).expand := by
  match t with
  | synonym _ _ body _ =>
      simp only [expand, mapVars_synonym]
      exact expand_mapVars_expand body
  | base _ _ | var _ _ | func _ _ _ | list _ _ | ref _ _ | product _ _ | variant _ _ _
  | all _ _ _ _ | record _ _ => rfl

end Ty

namespace Solver

open Unify

variable {syn : Prop} {s s' s₁ : Solver} {t u T : Ty} {v w : TypeVar} {l : String} {r : Range}

/-- The fields that a type is known to have: those of its record type, or those that the kind of its
variable asks for. -/
def fieldsOf (s : Solver) (t : Ty) : List (String × Ty) :=
  match s.head t with
  | .record fs _ => fs
  | .var v _ => (s.kindOf v).fields
  | _ => []

/-- The type is known to have a field, at a type that is alike to `T`. -/
def Has (s : Solver) (t : Ty) (l : String) (T : Ty) : Prop :=
  ∃ u, Fields.get? (s.fieldsOf t) l = some u ∧ s.subst.bare u = s.subst.bare T

theorem fieldsOf_of_record {fs : List (String × Ty)} (ht : s.head t = .record fs r) :
    s.fieldsOf t = fs := by
  rw [fieldsOf, ht]

theorem fieldsOf_of_var (ht : s.head t = .var v r) : s.fieldsOf t = (s.kindOf v).fields := by
  rw [fieldsOf, ht]

theorem Proper.head_head (hs : s.Proper syn) (hs' : s'.Proper syn)
    (hext : s.subst.ExtendedBy s'.subst) (ht : t.Simple syn) : s'.head (s.head t) = s'.head t :=
  calc
    ((s'.subst.apply (s.subst.apply t).expand)).expand =
        (s'.subst.apply (s.subst.apply t)).expand := Ty.expand_mapVars_expand _
    _ = (s'.subst.apply t).expand := by rw [hs.triangular.apply_apply hs'.triangular hext ht]

theorem Proper.head_var_of_some (hs : s.Proper syn) (hv : s.subst.find? v = some t) :
    s.head (.var v r) = s.head t := by
  rw [head, hs.triangular.apply_var_of_some hv, head]

/-- A type whose fields are known has a record or a variable at its head. -/
theorem Has.cases (h : s.Has t l T) :
    (∃ fs r, s.head t = .record fs r) ∨ ∃ v r, s.head t = .var v r := by
  obtain ⟨u, hu, -⟩ := h
  unfold fieldsOf at hu
  split at hu
  · next fs r heq => exact Or.inl ⟨fs, r, heq⟩
  · next v r heq => exact Or.inr ⟨v, r, heq⟩
  · simp [Fields.get?] at hu

/-- The fields of a record type stay known. -/
theorem Has.of_record {fs : List (String × Ty)} (h : s.Has t l T) (hs : s.Proper syn)
    (hs' : s'.Proper syn) (hext : s.subst.ExtendedBy s'.subst) (ht : t.Simple syn)
    (hT : T.Simple syn) (hhead : s.head t = .record fs r) : s'.Has t l T := by
  obtain ⟨u, hu, heq⟩ := h
  rw [fieldsOf_of_record hhead] at hu
  have hsimple := hs.simple.head ht
  have hhead' : s'.head t = .record (fs.map fun p => (p.1, s'.subst.apply p.2)) r := by
    rw [← hs.head_head hs' hext ht, hhead, head, Substitution.apply_record]
    rfl
  rw [hhead] at hsimple
  cases hsimple with
  | record _ _ hfs =>
      have hsu := hfs _ (Fields.mem_of_get? hu)
      refine ⟨s'.subst.apply u, ?_, ?_⟩
      · rw [fieldsOf_of_record hhead', Fields.get?_map, hu, Option.map_some]
      · rw [hs'.triangular.bare_apply hs'.triangular (.refl _) hsu]
        exact hs.triangular.bare_extend hs'.triangular hext hsu hT heq

/-- The fields of a variable stay known while it stays free and its kind keeps them. -/
theorem Has.of_var (h : s.Has t l T) (hs : s.Proper syn) (hs' : s'.Proper syn)
    (hext : s.subst.ExtendedBy s'.subst) (ht : t.Simple syn) (hT : T.Simple syn)
    (hhead : s.head t = .var v r) (hv : s'.subst.find? v = none)
    (hkind : ∀ u, Fields.get? (s.kindOf v).fields l = some u →
      ∃ u', Fields.get? (s'.kindOf v).fields l = some u' ∧ s'.subst.bare u' = s'.subst.bare u) :
    s'.Has t l T := by
  obtain ⟨u, hu, heq⟩ := h
  rw [fieldsOf_of_var hhead] at hu
  obtain ⟨u', hu', heq'⟩ := hkind u hu
  have hhead' : s'.head t = .var v r := by
    rw [← hs.head_head hs' hext ht, hhead, head_var_of_none hv]
  refine ⟨u', by rw [fieldsOf_of_var hhead', hu'], heq'.trans ?_⟩
  exact hs.triangular.bare_extend hs'.triangular hext ((hs.kind v).2 _ (Fields.mem_of_get? hu)) hT
    heq

/-- The field of a kind is known of its variable while the variable is free. -/
theorem has_of_kind (hs : s.Proper syn) (hv : s.subst.find? v = none)
    (hp : (l, T) ∈ (s.kindOf v).fields) : s.Has (.var v r) l T :=
  ⟨T, by rw [fieldsOf_of_var (head_var_of_none hv), Fields.get?_of_mem (hs.kind v).1 hp], rfl⟩

theorem find?_join {k : Kind} (x : TypeVar) :
    ((s.assign v (.var w r)).strengthen w k).subst.find? x =
      if v = x then some (.var w r) else s.subst.find? x := by
  rw [subst_strengthen, subst_assign, Substitution.find?_bind]

/-- Of two variables that were joined, the one that stays free has the fields of both. -/
theorem get?_kindOf_join {k : Kind} (hs : s.Simple syn)
    (hk : k = mergedKind (s.kindOf v) (s.kindOf w)) (x : TypeVar) (l : String) :
    Fields.get? (((s.assign v (.var w r)).strengthen w k).kindOf x).fields l =
      if w = x then (Fields.get? (s.kindOf v).fields l).or (Fields.get? (s.kindOf w).fields l)
      else Fields.get? (s.kindOf x).fields l := by
  rw [← get?_mergedKind (hs.kind w).1, ← hk]
  cases k with
  | universal =>
      split
      · next hx =>
          subst hx
          have hnone := get?_mergedKind (k := s.kindOf v) (m := l) (hs.kind w).1
          rw [← hk] at hnone
          simp only [Kind.fields, Fields.get?] at hnone ⊢
          exact (Option.or_eq_none_iff.1 hnone.symm).2
      · rfl
  | record fs =>
      rw [strengthen, kindOf_refine]
      split <;> rfl

/-- Joining two variables, the fields that their kinds share being alike, loses no field. -/
theorem Has.join {k : Kind} (h : s.Has t l T) (hs : s.Proper syn)
    (hs' : ((s.assign v (.var w r)).strengthen w k).Proper syn)
    (hv : s.subst.find? v = none) (hw : s.subst.find? w = none) (hvw : v ≠ w)
    (hk : k = mergedKind (s.kindOf v) (s.kindOf w))
    (halike : AllAlike s.subst (sharedPairs (s.kindOf v) (s.kindOf w)))
    (ht : t.Simple syn) (hT : T.Simple syn) :
    ((s.assign v (.var w r)).strengthen w k).Has t l T := by
  have hext : s.subst.ExtendedBy ((s.assign v (.var w r)).strengthen w k).subst := by
    rw [subst_strengthen]
    exact Substitution.extendedBy_bind hv
  have hkind := get?_kindOf_join (r := r) hs.simple hk
  rcases h.cases with ⟨fs, r', hhead⟩ | ⟨x, r', hhead⟩
  · exact h.of_record hs hs' hext ht hT hhead
  by_cases hvx : v = x
  · subst hvx
    obtain ⟨u, hu, heq⟩ := h
    rw [fieldsOf_of_var hhead] at hu
    have hhead' : ((s.assign v (.var w r)).strengthen w k).head t = .var w r := by
      rw [← hs.head_head hs' hext ht, hhead,
        hs'.head_var_of_some (by rw [find?_join, if_pos rfl]),
        head_var_of_none (by rw [find?_join, if_neg hvw, hw])]
    refine ⟨u, ?_, hs.triangular.bare_extend hs'.triangular hext
      ((hs.kind v).2 _ (Fields.mem_of_get? hu)) hT heq⟩
    rw [fieldsOf_of_var hhead', hkind, if_pos rfl, hu, Option.some_or]
  · have hx : ((s.assign v (.var w r)).strengthen w k).subst.find? x = none := by
      rw [find?_join, if_neg hvx]
      exact hs.find?_of_head_eq ht hhead
    refine h.of_var hs hs' hext ht hT hhead hx fun u hu => ?_
    rw [hkind]
    split
    · next hwx =>
        subst hwx
        cases hu' : Fields.get? (s.kindOf v).fields l with
        | none => exact ⟨u, by rw [hu, Option.none_or], rfl⟩
        | some u' =>
            -- Both kinds have the field, and that of the bound variable is kept.
            refine ⟨u', by rw [Option.some_or], ?_⟩
            have hmem := mem_sharedPairs_of_get? hu' (Fields.mem_of_get? hu)
            exact hs.triangular.bare_extend hs'.triangular hext
              ((hs.kind v).2 _ (Fields.mem_of_get? hu'))
              ((hs.kind w).2 _ (Fields.mem_of_get? hu)) (halike _ hmem)
    · exact ⟨u, hu, rfl⟩

/-- All fields that were known are still known, and the fields that kinds were given are known. -/
structure Keeps (syn : Prop) (s s' : Solver) : Prop where
  field : ∀ t l T, t.Simple syn → T.Simple syn → s.Has t l T → s'.Has t l T
  kind : ∀ v, ∀ p ∈ (s'.kindOf v).fields,
    p ∈ (s.kindOf v).fields ∨ s'.Has (.var v .erased) p.1 p.2

namespace Keeps

theorem refl (s : Solver) : Keeps syn s s := ⟨fun _ _ _ _ _ h => h, fun _ _ hp => Or.inl hp⟩

theorem log : Keeps syn s (s.log t u) := ⟨fun _ _ _ _ _ h => h, fun _ _ hp => Or.inl hp⟩

theorem trans (h₁ : Keeps syn s s₁) (h₂ : Keeps syn s₁ s') (hs₁ : s₁.Proper syn) :
    Keeps syn s s' where
  field t l T ht hT h := h₂.field t l T ht hT (h₁.field t l T ht hT h)
  kind v p hp := by
    rcases h₂.kind v p hp with hp | h
    · exact (h₁.kind v p hp).imp_right (h₂.field _ _ _ (.var v _) ((hs₁.kind v).2 p hp))
    · exact Or.inr h

/-- A variable that is bound to a type keeps the fields of its kind if the fields are made equal to
those of the type, and nothing else is lost. -/
theorem bind (hs : s.Proper syn) (hs₀ : (s.assign v t).Proper syn) (hs₁ : s₁.Proper syn)
    (hv : s.subst.find? v = none) (hext : (s.assign v t).subst.ExtendedBy s₁.subst)
    (ht : t.Simple syn) (hnone : (kindPairs (s.kindOf v) ((s.assign v t).subst.apply t)).2 = none)
    (halike : AllAlike s₁.subst (kindPairs (s.kindOf v) ((s.assign v t).subst.apply t)).1)
    (hkeeps : Keeps syn (s.assign v t) s₁) : Keeps syn s s₁ := by
  have hext₀ : s.subst.ExtendedBy (s.assign v t).subst := Substitution.extendedBy_bind hv
  refine ⟨fun x l T hx hT h => ?_, hkeeps.kind⟩
  rcases h.cases with ⟨fs, r, hhead⟩ | ⟨w, r, hhead⟩
  · exact hkeeps.field x l T hx hT (h.of_record hs hs₀ hext₀ hx hT hhead)
  · by_cases hvw : v = w
    · subst hvw
      obtain ⟨u, hu, heq⟩ := h
      rw [fieldsOf_of_var hhead] at hu
      obtain ⟨fs, r', y, hrecord, hy, hmem⟩ := exists_of_kindPairs hnone hu
      have hsimple := hs₀.triangular.simple.apply ht
      rw [hrecord] at hsimple
      have hbound : (s.assign v t).subst.find? v = some t := by
        rw [subst_assign, Substitution.find?_bind, if_pos rfl]
      have hhead₁ : s₁.head x = .record (fs.map fun p => (p.1, s₁.subst.apply p.2)) r' := by
        rw [← hs.head_head hs₁ (hext₀.trans hext) hx, hhead,
          hs₁.head_var_of_some (hext v t hbound), head,
          ← hs₀.triangular.apply_apply hs₁.triangular hext ht, hrecord,
          Substitution.apply_record]
        rfl
      cases hsimple with
      | record _ _ hfs =>
          have hsy := hfs _ (Fields.mem_of_get? hy)
          have hsu := (hs.kind v).2 _ (Fields.mem_of_get? hu)
          refine ⟨s₁.subst.apply y, ?_, ?_⟩
          · rw [fieldsOf_of_record hhead₁, Fields.get?_map, hy, Option.map_some]
          · calc
              s₁.subst.bare (s₁.subst.apply y) = s₁.subst.bare y :=
                hs₁.triangular.bare_apply hs₁.triangular (.refl _) hsy
              _ = s₁.subst.bare u := (halike _ hmem).symm
              _ = s₁.subst.bare T :=
                hs.triangular.bare_extend hs₁.triangular (hext₀.trans hext) hsu hT heq
    · have hfree : (s.assign v t).subst.find? w = none := by
        rw [subst_assign, Substitution.find?_bind, if_neg hvw]
        exact hs.find?_of_head_eq hx hhead
      exact hkeeps.field x l T hx hT
        (h.of_var hs hs₀ hext₀ hx hT hhead hfree fun u hu => ⟨u, hu, rfl⟩)

/-- A variable that stands for another one keeps the fields of its kind, if the other one has the
fields of both and those they share are alike. -/
theorem join {k : Kind} (hs : s.Proper syn)
    (hs' : ((s.assign v (.var w r)).strengthen w k).Proper syn)
    (hv : s.subst.find? v = none) (hw : s.subst.find? w = none) (hvw : v ≠ w)
    (hk : k = mergedKind (s.kindOf v) (s.kindOf w))
    (halike : AllAlike s.subst (sharedPairs (s.kindOf v) (s.kindOf w))) :
    Keeps syn s ((s.assign v (.var w r)).strengthen w k) := by
  refine ⟨fun t l T ht hT h => h.join hs hs' hv hw hvw hk halike ht hT, fun x p hp => ?_⟩
  by_cases hwx : w = x
  · subst hwx
    refine Or.inr (has_of_kind hs' ?_ hp)
    rw [find?_join, if_neg hvw, hw]
  · have hget := get?_kindOf_join (v := v) (r := r) hs.simple hk x p.1
    rw [if_neg hwx, Fields.get?_of_mem (hs'.kind x).1 hp] at hget
    exact Or.inl (Fields.mem_of_get? hget.symm)

end Keeps

end Solver

end FieldML
