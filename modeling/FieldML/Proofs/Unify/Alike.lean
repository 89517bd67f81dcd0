import FieldML.Proofs.Bare
import FieldML.Proofs.Unify.Rank

/-!
# Types that were made equal

Rigid types are alike as soon as their parts are, and types are alike where what they are at their
heads is.
-/

namespace FieldML

namespace Unify

variable {syn : Prop} {s s' : Substitution} {t u : Ty} {ps : List (Ty × Ty)}

/-- Both types of every pair are alike under the substitution. -/
def AllAlike (s : Substitution) (ps : List (Ty × Ty)) : Prop := ∀ p ∈ ps, s.bare p.1 = s.bare p.2

theorem AllAlike.head {p : Ty × Ty} (hps : AllAlike s (p :: ps)) : s.bare p.1 = s.bare p.2 :=
  hps p List.mem_cons_self

theorem AllAlike.single (h : s.bare t = s.bare u) : AllAlike s [(t, u)] := fun p hp => by
  rwa [List.mem_singleton.1 hp]

theorem AllAlike.extend (hps : AllAlike s ps) (hs : s.Triangular syn) (hs' : s'.Triangular syn)
    (hext : s.ExtendedBy s') (hsimple : AllSimple syn ps) : AllAlike s' ps := fun p hp =>
  hs.bare_extend hs' hext (hsimple p hp).1 (hsimple p hp).2 (hps p hp)

section Parts

variable {fs gs : List (String × Ty)} {r r' : Range}

theorem mem_fieldPairs_of_mem (hnone : (fieldPairs fs gs).2 = none) {n : String}
    (ht : (n, t) ∈ fs) : ∃ u, Fields.get? gs n = some u ∧ (t, u) ∈ (fieldPairs fs gs).1 := by
  induction fs with
  | nil => simp at ht
  | cons f fs ih =>
      obtain ⟨m, x⟩ := f
      cases hm : Fields.get? gs m with
      | none => simp [fieldPairs, hm] at hnone
      | some y =>
          simp only [fieldPairs, hm, List.mem_cons] at hnone ⊢
          rcases List.mem_cons.1 ht with heq | ht
          · obtain ⟨rfl, rfl⟩ := Prod.mk.inj heq
            exact ⟨y, hm, Or.inl rfl⟩
          · obtain ⟨u, hu, hmem⟩ := ih hnone ht
            exact ⟨u, hu, Or.inr hmem⟩

theorem alike_of_recordPairs (hfs : Fields.Sorted fs) (hgs : Fields.Sorted gs)
    (hnone : (recordPairs fs gs).2 = none) (h : AllAlike s (recordPairs fs gs).1) :
    s.bare (.record fs r) = s.bare (.record gs r') := by
  unfold recordPairs at hnone h
  split at hnone
  · simp at hnone
  · simp at hnone
  · next hmissing hextra =>
      rw [hmissing, hextra] at h
      simp only [Option.map_eq_none_iff] at hnone
      simp only [List.find?_eq_none, Option.isNone_iff_eq_none, Fields.get?_eq_none, not_not]
        at hmissing hextra
      unfold Substitution.bare
      rw [Substitution.apply_record, Substitution.apply_record]
      refine Ty.alike_record ((Fields.sorted_congr (Fields.names_map _ fs)).2 hfs)
        ((Fields.sorted_congr (Fields.names_map _ gs)).2 hgs) (fun n => ?_) fun n t u ht hu => ?_
      · rw [Fields.names_map, Fields.names_map]
        exact ⟨hmissing n, hextra n⟩
      · obtain ⟨⟨m, x⟩, hx, heq⟩ := List.mem_map.1 ht
        obtain ⟨rfl, rfl⟩ := Prod.mk.inj heq
        obtain ⟨⟨k, y⟩, hy, heq⟩ := List.mem_map.1 hu
        obtain ⟨rfl, rfl⟩ := Prod.mk.inj heq
        obtain ⟨z, hz, hmem⟩ := mem_fieldPairs_of_mem hnone hx
        obtain rfl : y = z := Option.some.inj ((Fields.get?_of_mem hgs hy).symm.trans hz)
        exact h _ hmem

theorem map_bare_of_componentPairs {ts us : List Ty} (hnone : (componentPairs ts us).2 = none)
    (h : AllAlike s (componentPairs ts us).1) : ts.map s.bare = us.map s.bare := by
  unfold componentPairs at hnone h
  split at hnone
  · next hlength =>
      rw [if_pos hlength] at h
      clear hnone
      induction ts generalizing us with
      | nil =>
          cases us with
          | nil => rfl
          | cons u us => simp at hlength
      | cons t ts ih =>
          cases us with
          | nil => simp at hlength
          | cons u us =>
              have hhead : s.bare t = s.bare u := AllAlike.head h
              have htail : ts.map s.bare = us.map s.bare :=
                ih (fun p hp => h p (List.mem_cons_of_mem _ hp)) (by simpa using hlength)
              simp only [List.map_cons, hhead, htail]
  · simp at hnone

/-- Rigid types whose parts are alike are alike. -/
theorem alike_of_parts (hrt : IsRigid t) (hru : IsRigid u) (ht : t.Simple syn) (hu : u.Simple syn)
    (hnone : (parts t u).2 = none) (h : AllAlike s (parts t u).1) : s.bare t = s.bare u := by
  have hlists : ∀ ts us : List Ty, ts.map s.bare = us.map s.bare →
      (ts.map s.apply).map Ty.bare = (us.map s.apply).map Ty.bare := by
    intro ts us heq
    rw [List.map_map, List.map_map]
    exact heq
  cases ht with
  | var | synonym => exact hrt.elim
  | base b r =>
      cases hu with
      | base c r' =>
          obtain rfl : b = c := by simpa [parts] using hnone
          rfl
      | var | synonym => exact hru.elim
      | _ => simp [parts] at hnone
  | @func p q r hp hq =>
      cases hu with
      | @func p' q' r' hp' hq' =>
          have h₁ : s.bare p = s.bare p' := h _ List.mem_cons_self
          have h₂ : s.bare q = s.bare q' := h _ (List.mem_cons_of_mem _ List.mem_cons_self)
          simp only [Substitution.bare, Substitution.apply_func, Ty.bare] at h₁ h₂ ⊢
          rw [h₁, h₂]
      | var | synonym => exact hru.elim
      | _ => simp [parts] at hnone
  | @list t r ht =>
      cases hu with
      | @list u r' hu =>
          have h₁ : s.bare t = s.bare u := h _ List.mem_cons_self
          simp only [Substitution.bare, Substitution.apply_list, Ty.bare] at h₁ ⊢
          rw [h₁]
      | var | synonym => exact hru.elim
      | _ => simp [parts] at hnone
  | @ref t r ht =>
      cases hu with
      | @ref u r' hu =>
          have h₁ : s.bare t = s.bare u := h _ List.mem_cons_self
          simp only [Substitution.bare, Substitution.apply_ref, Ty.bare] at h₁ ⊢
          rw [h₁]
      | var | synonym => exact hru.elim
      | _ => simp [parts] at hnone
  | @product ts r hts =>
      cases hu with
      | @product us r' hus =>
          have hmap := hlists ts us (map_bare_of_componentPairs hnone h)
          rw [Substitution.bare, Substitution.bare, Substitution.apply_product,
            Substitution.apply_product, Ty.bare_product, Ty.bare_product, hmap]
      | var | synonym => exact hru.elim
      | _ => simp [parts] at hnone
  | @variant ts n r hts =>
      cases hu with
      | @variant us m r' hus =>
          rw [parts] at hnone h
          split at hnone
          · next hname =>
              rw [if_pos hname] at h
              have hmap := hlists ts us (map_bare_of_componentPairs hnone h)
              rw [Substitution.bare, Substitution.bare, Substitution.apply_variant,
                Substitution.apply_variant, Ty.bare_variant, Ty.bare_variant, hmap, hname]
          · simp at hnone
      | var | synonym => exact hru.elim
      | _ => simp [parts] at hnone
  | @record fs r hfs _ =>
      cases hu with
      | @record gs r' hgs _ => exact alike_of_recordPairs hfs hgs hnone h
      | var | synonym => exact hru.elim
      | _ => simp [parts] at hnone

end Parts

end Unify

namespace Solver

variable {syn : Prop} {s s' : Solver} {t : Ty} {v : TypeVar} {r : Range}

theorem head_var_of_none (hv : s.subst.find? v = none) : s.head (.var v r) = .var v r := by
  rw [head, Substitution.apply_var_of_none hv]
  rfl

/-- A type is alike to what it is at its head, in every later state. -/
theorem Proper.bare_head (hs : s.Proper syn) (hs' : s'.Proper syn)
    (hext : s.subst.ExtendedBy s'.subst) (ht : t.Simple syn) :
    s'.subst.bare (s.head t) = s'.subst.bare t := by
  rw [head, Substitution.bare_expand (hs.triangular.simple.apply ht),
    hs.triangular.bare_apply hs'.triangular hext ht]

end Solver

namespace Unify

open Solver

variable {syn : Prop} {s s' : Solver} {a b t : Ty} {v : TypeVar}

/-- Types are alike where what they are at their heads is. -/
theorem alike_of_heads (hs : s.Proper syn) (hs' : s'.Proper syn)
    (hext : s.subst.ExtendedBy s'.subst) (ha : a.Simple syn) (hb : b.Simple syn)
    (heq : s'.subst.bare (s.head a) = s'.subst.bare (s.head b)) :
    s'.subst.bare a = s'.subst.bare b := by
  rw [← hs.bare_head hs' hext ha, ← hs.bare_head hs' hext hb, heq]

theorem bare_var_of_some {r : Range} (hs : s.Proper syn) (hv : s.subst.find? v = some t) :
    s.subst.bare (.var v r) = s.subst.bare t := by
  unfold Substitution.bare
  rw [hs.triangular.apply_var_of_some hv]

theorem alike_of_same {r r' : Range} (ha : s.head a = .var v r) (hb : s.head b = .var v r') :
    s'.subst.bare (s.head a) = s'.subst.bare (s.head b) := by
  rw [ha, hb]
  exact Substitution.bare_follow _

/-- The two sides of a comparison are alike once its variable has its type. -/
theorem Meet.alike (hm : Meet s a b v t) (hs' : s'.Proper syn)
    (hv : s'.subst.find? v = some t) :
    s'.subst.bare (s.head a) = s'.subst.bare (s.head b) := by
  obtain ⟨r, ⟨ha, hb⟩ | ⟨hb, ha⟩⟩ := hm
  · rw [ha, hb, bare_var_of_some hs' hv]
  · rw [ha, hb, bare_var_of_some hs' hv]

end Unify

end FieldML
