import FieldML.Proofs.Check.Generalize
import FieldML.Proofs.Layout.Ty
import FieldML.Proofs.Typing.Mono

/-!
# What types mean

Once monomorphic types stand for the variables of a type, the type means a monomorphic one, and a
quantified type means all its instances.
-/

namespace FieldML

open Check

variable {syn : Prop} {σ σ' : Instantiation} {δ : Instantiation} {θ : Assignment} {t u : Ty}
  {τ : MonoTy} {v w : TypeVar} {r : Range} {f : Replacement} {bound vars : List TypeVar}

namespace Ty

mutual

/-- What a type means, apart from its quantifiers. -/
def mono (σ : Instantiation) : Ty → MonoTy
  | .base b _ => .base b
  | .var v _ => σ v
  | .func p q _ => .func (p.mono σ) (q.mono σ)
  | .list t _ => .list (t.mono σ)
  | .ref t _ => .ref (t.mono σ)
  | .product ts _ => .product (monoList σ ts)
  | .variant n ts _ => .variant n (monoList σ ts)
  | .synonym _ _ t _ => t.mono σ
  | .all _ _ t _ => t.mono σ
  | .record fs _ => .record (monoFields σ fs)

/-- What some types mean. -/
def monoList (σ : Instantiation) : List Ty → List MonoTy
  | [] => []
  | t :: ts => t.mono σ :: monoList σ ts

/-- What the types of some fields mean. -/
def monoFields (σ : Instantiation) : List (String × Ty) → List (String × MonoTy)
  | [] => []
  | (n, t) :: fs => (n, t.mono σ) :: monoFields σ fs

end

section Cases

variable {p q : Ty} {b : BaseTy} {n : String} {ts : List Ty} {k : Kind}

@[simp] theorem mono_base : (base b r).mono σ = .base b := rfl

@[simp] theorem mono_var : (var v r).mono σ = σ v := rfl

@[simp] theorem mono_func : (func p q r).mono σ = .func (p.mono σ) (q.mono σ) := rfl

@[simp] theorem mono_list : (list t r).mono σ = .list (t.mono σ) := rfl

@[simp] theorem mono_ref : (ref t r).mono σ = .ref (t.mono σ) := rfl

@[simp] theorem mono_synonym : (synonym n ts t r).mono σ = t.mono σ := rfl

@[simp] theorem mono_all : (all v k t r).mono σ = t.mono σ := rfl

theorem monoList_eq_map (ts : List Ty) : monoList σ ts = ts.map (mono σ) := by
  induction ts with
  | nil => rfl
  | cons t ts ih => exact congrArg (t.mono σ :: ·) ih

theorem monoFields_eq_map (fs : List (String × Ty)) :
    monoFields σ fs = fs.map fun p => (p.1, p.2.mono σ) := by
  induction fs with
  | nil => rfl
  | cons p fs ih => exact congrArg ((p.1, p.2.mono σ) :: ·) ih

@[simp] theorem mono_product (ts : List Ty) (r : Range) :
    (product ts r).mono σ = .product (ts.map (mono σ)) :=
  congrArg MonoTy.product (monoList_eq_map ts)

@[simp] theorem mono_variant (n : String) (ts : List Ty) (r : Range) :
    (variant n ts r).mono σ = .variant n (ts.map (mono σ)) :=
  congrArg (MonoTy.variant n) (monoList_eq_map ts)

@[simp] theorem mono_record (fs : List (String × Ty)) (r : Range) :
    (record fs r).mono σ = .record (fs.map fun p => (p.1, p.2.mono σ)) :=
  congrArg MonoTy.record (monoFields_eq_map fs)

end Cases

@[simp] theorem mono_withRange (t : Ty) (r : Range) : (t.withRange r).mono σ = t.mono σ := by
  cases t <;> rfl

@[simp] theorem mono_expand (t : Ty) : t.expand.mono σ = t.mono σ := by
  match t with
  | synonym _ _ body _ => exact mono_expand body
  | base _ _ | var _ _ | func _ _ _ | list _ _ | ref _ _ | product _ _ | variant _ _ _
  | all _ _ _ _ | record _ _ => rfl

/-- What all types in a list mean. -/
abbrev monos (σ : Instantiation) (ts : List Ty) : List MonoTy := ts.map (mono σ)

namespace Simple

/-- A simple type means the same where the instantiations agree on what its variables became. -/
theorem mono_mapVars (ht : t.Simple syn)
    (h : ∀ v ∈ t.freeVars, ∀ r, (f bound v r).mono σ = σ' v) :
    (t.mapVars f bound).mono σ = t.mono σ' := by
  induction ht with
  | base b r => rfl
  | var v r => exact h v (by simp) r
  | func r hp hq ihp ihq =>
      simp only [mapVars, mono_func]
      rw [ihp fun v hv => h v (by simp [hv]), ihq fun v hv => h v (by simp [hv])]
  | list r ht ih => simp only [mapVars, mono_list, ih h]
  | ref r ht ih => simp only [mapVars, mono_ref, ih h]
  | product r hts ih =>
      simp only [mapVars_product, mono_product, List.map_map, MonoTy.product.injEq]
      exact List.map_congr_left fun t ht =>
        ih t ht fun v hv => h v (mem_freeVars_product.2 ⟨t, ht, hv⟩)
  | variant n r hts ih =>
      simp only [mapVars_variant, mono_variant, List.map_map, MonoTy.variant.injEq, true_and]
      exact List.map_congr_left fun t ht =>
        ih t ht fun v hv => h v (mem_freeVars_variant.2 ⟨t, ht, hv⟩)
  | synonym n r hsyn hts ht hvars ihts iht =>
      simp only [mapVars_synonym, mono_synonym]
      exact iht fun v hv => h v (hvars v hv)
  | record r hsorted hfs ih =>
      simp only [mapVars_record, mono_record, List.map_map, MonoTy.record.injEq]
      refine List.map_congr_left fun p hp => ?_
      simp only [Function.comp_apply, Prod.mk.injEq, true_and]
      exact ih p hp fun v hv => h v (mem_freeVars_record.2 ⟨p, hp, hv⟩)

/-- Ranges do not matter for what a type means. -/
theorem mono_erase (ht : t.Simple syn) : t.erase.mono σ = t.mono σ := by
  induction ht with
  | base b r => rfl
  | var v r => rfl
  | func r hp hq ihp ihq => simp only [erase, mono_func, ihp, ihq]
  | list r ht ih => simp only [erase, mono_list, ih]
  | ref r ht ih => simp only [erase, mono_ref, ih]
  | product r hts ih =>
      rw [Ty.erase, eraseList_eq_map, mono_product, mono_product, List.map_map]
      exact congrArg MonoTy.product (List.map_congr_left ih)
  | variant n r hts ih =>
      rw [Ty.erase, eraseList_eq_map, mono_variant, mono_variant, List.map_map]
      exact congrArg (MonoTy.variant n) (List.map_congr_left ih)
  | synonym n r hsyn hts ht hvars ihts iht => exact iht
  | record r hsorted hfs ih =>
      rw [Ty.erase, eraseFields_eq_map, mono_record, mono_record, List.map_map]
      exact congrArg MonoTy.record
        (List.map_congr_left fun p hp => congrArg (Prod.mk p.1) (ih p hp))

/-- The types for the variables may as well be put in place afterwards. -/
theorem mono_eq_subst (ht : t.Simple syn) : t.mono σ = (t.mono .var).subst σ := by
  induction ht with
  | base b r => rfl
  | var v r => rfl
  | func r hp hq ihp ihq => simp only [mono_func, MonoTy.subst_func, ihp, ihq]
  | list r ht ih => simp only [mono_list, MonoTy.subst_list, ih]
  | ref r ht ih => simp only [mono_ref, MonoTy.subst_ref, ih]
  | product r hts ih => simpa using ih
  | variant n r hts ih => simpa using ih
  | synonym n r hsyn hts ht hvars ihts iht => exact iht
  | record r hsorted hfs ih => simpa using fun n t hp => ih (n, t) hp

theorem mem_vars_mono_var (ht : t.Simple False) : v ∈ (t.mono .var).vars ↔ v ∈ t.freeVars := by
  induction ht with
  | base b r => simp
  | var w r => simp
  | func r hp hq ihp ihq => simp [ihp, ihq]
  | list r ht ih => simpa using ih
  | ref r ht ih => simpa using ih
  | product r hts ih | variant n r hts ih =>
      simp only [mono_product, mono_variant, MonoTy.mem_vars_product, MonoTy.mem_vars_variant,
        List.mem_map, exists_exists_and_eq_and, mem_freeVars_product, mem_freeVars_variant]
      exact exists_congr fun t => and_congr_right fun ht => ih t ht
  | synonym n r hsyn hts ht hvars ihts iht => exact hsyn.elim
  | record r hsorted hfs ih =>
      simp only [mono_record, MonoTy.mem_vars_record, List.mem_map, exists_exists_and_eq_and,
        mem_freeVars_record]
      exact exists_congr fun p => and_congr_right fun hp => ih p hp

theorem mono_eq_mono_iff (ht : t.Simple False) :
    t.mono σ = t.mono σ' ↔ ∀ v ∈ t.freeVars, σ v = σ' v := by
  rw [ht.mono_eq_subst, ht.mono_eq_subst (σ := σ'), MonoTy.subst_eq_subst_iff]
  simp only [ht.mem_vars_mono_var]

theorem mono_congr (ht : t.Simple syn) (h : ∀ v ∈ t.freeVars, σ v = σ' v) :
    t.mono σ = t.mono σ' := by
  have hself : t.mapVars (fun _ v r => .var v r) [] = t := ht.mapVars_eq_self fun _ _ _ => rfl
  conv_lhs => rw [← hself]
  exact ht.mono_mapVars fun v hv _ => h v hv

theorem subst_mono (ht : t.Simple syn) :
    (t.mono σ).subst δ = t.mono fun v => (σ v).subst δ := by
  rw [ht.mono_eq_subst, MonoTy.subst_subst, ← ht.mono_eq_subst]

theorem mem_vars_mono (ht : t.Simple False) :
    w ∈ (t.mono σ).vars ↔ ∃ v ∈ t.freeVars, w ∈ (σ v).vars := by
  rw [ht.mono_eq_subst, MonoTy.mem_vars_subst]
  simp only [ht.mem_vars_mono_var]

theorem ground_mono (ht : t.Simple syn) :
    (t.mono σ).ground θ = t.ground fun v => (σ v).ground θ := by
  induction ht with
  | base b r => rfl
  | var v r => rfl
  | func r hp hq ihp ihq => simp only [mono_func, MonoTy.ground_func, ground, ihp, ihq]
  | list r ht ih => simp only [mono_list, MonoTy.ground_list, ground, ih]
  | ref r ht ih => simp only [mono_ref, MonoTy.ground_ref, ground, ih]
  | product r hts ih => simpa using ih
  | variant n r hts ih => simpa using ih
  | synonym n r hsyn hts ht hvars ihts iht => simpa only [mono_synonym, ground] using iht
  | record r hsorted hfs ih => simpa using fun n t hp => ih (n, t) hp

end Simple

/-- A monomorphic type is what the type means for some choice of types for its quantified
variables. -/
def HasInstance (σ : Instantiation) : Ty → MonoTy → Prop
  | .all v _ t _, τ => ∃ α, t.HasInstance (Function.update σ v α) τ
  | t, τ => τ = t.mono σ

theorem Simple.hasInstance_iff (ht : t.Simple syn) : t.HasInstance σ τ ↔ τ = t.mono σ := by
  cases ht <;> rfl

theorem hasInstance_quantifyWith {K : TypeVar → Kind} (ht : t.Simple syn) :
    (quantifyWith K r vars t).HasInstance σ τ ↔
      ∃ σ', (∀ v ∉ vars, σ' v = σ v) ∧ τ = t.mono σ' := by
  induction vars generalizing σ with
  | nil =>
      refine ht.hasInstance_iff.trans ⟨fun h => ⟨σ, fun _ _ => rfl, h⟩, fun ⟨σ', hσ', h⟩ => ?_⟩
      obtain rfl : σ' = σ := funext fun v => hσ' v List.not_mem_nil
      exact h
  | cons v vars ih =>
      constructor
      · rintro ⟨α, h⟩
        obtain ⟨σ', hσ', rfl⟩ := ih.1 h
        refine ⟨σ', fun w hw => ?_, rfl⟩
        obtain ⟨hne, hw⟩ := not_or.1 (mt List.mem_cons.2 hw)
        rw [hσ' w hw, Function.update_of_ne hne]
      · rintro ⟨σ', hσ', rfl⟩
        refine ⟨σ' v, ih.2 ⟨σ', fun w hw => ?_, rfl⟩⟩
        by_cases hne : w = v
        · subst hne
          rw [Function.update_self]
        · rw [Function.update_of_ne hne, hσ' w (by simp [hne, hw])]

end Ty

namespace Substitution

variable {s s' : Substitution}

/-- The types for the variables agree with those that the substitution gives to variables. -/
def AgreesWith (σ : Instantiation) (s : Substitution) : Prop :=
  ∀ v t, s.find? v = some t → σ v = t.mono σ

theorem AgreesWith.of_extended (h : s'.AgreesWith σ) (hext : s.ExtendedBy s') : s.AgreesWith σ :=
  fun v t hv => h v t (hext v t hv)

/-- Applying a substitution does not change what a type means where the types for variables agree
with it. -/
theorem AgreesWith.mono_apply (h : s.AgreesWith σ) (hs : s.Simple syn) (ht : t.Simple syn) :
    (s.apply t).mono σ = t.mono σ := by
  have hfollow : ∀ n v r, (s.follow n [] v r).mono σ = σ v := by
    intro n
    induction n with
    | zero => exact fun v r => rfl
    | succ n ih =>
        intro v r
        cases hv : s.find? v with
        | none => rw [follow_of_none _ hv, Ty.mono_var]
        | some t =>
            rw [follow_of_some _ hv, h v t hv]
            exact (hs v t hv).mono_mapVars fun w _ r => ih w r
  exact ht.mono_mapVars fun v _ r => hfollow s.size v r

/-- What an applied type means is decided by what the applied variables mean. -/
theorem Triangular.mono_apply (h : s.Triangular syn) (ht : t.Simple syn) :
    (s.apply t).mono σ = t.mono fun v => (s.apply (.var v .erased)).mono σ := by
  refine ht.mono_mapVars fun v _ r => ?_
  change (s.apply (.var v r)).mono σ = _
  cases hv : s.find? v with
  | none => rw [apply_var_of_none hv, apply_var_of_none hv, Ty.mono_var, Ty.mono_var]
  | some u => rw [h.apply_var_of_some hv, h.apply_var_of_some hv]

/-- Types for the variables that a substitution leaves free extend to types that agree with it. -/
theorem Triangular.agreesWith_apply (h : s.Triangular syn) (σ : Instantiation) :
    s.AgreesWith fun v => (s.apply (.var v .erased)).mono σ := fun v t hv =>
  (congrArg (Ty.mono σ) (h.apply_var_of_some hv)).trans (h.mono_apply (h.simple v t hv))

end Substitution

end FieldML
