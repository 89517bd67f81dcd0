import FieldML.Proofs.Quantifier.Nameless

/-!
# Replacing variables in quantified types

What a replacement of variables does to a type is decided by what it does to the variables in their
places, below the quantifiers that stand around them.
-/

namespace FieldML

mutual

/-- Every place of a variable in a type, with the binders around it, the innermost first. -/
def Ty.occurrences (bound : List TypeVar) : Ty → List (List TypeVar × TypeVar)
  | .base _ _ => []
  | .var v _ => [(bound, v)]
  | .func p q _ => p.occurrences bound ++ q.occurrences bound
  | .list t _ => t.occurrences bound
  | .ref t _ => t.occurrences bound
  | .product ts _ => Ty.occurrencesList bound ts
  | .variant _ ts _ => Ty.occurrencesList bound ts
  | .synonym _ ts t _ => Ty.occurrencesList bound ts ++ t.occurrences bound
  | .all v k t _ => k.occurrences (v :: bound) ++ t.occurrences (v :: bound)
  | .record fs _ => Ty.occurrencesFields bound fs

/-- Every place of a variable in a kind. -/
def Kind.occurrences (bound : List TypeVar) : Kind → List (List TypeVar × TypeVar)
  | .universal => []
  | .record fs => Ty.occurrencesFields bound fs

/-- Every place of a variable in some types. -/
def Ty.occurrencesList (bound : List TypeVar) : List Ty → List (List TypeVar × TypeVar)
  | [] => []
  | t :: ts => t.occurrences bound ++ Ty.occurrencesList bound ts

/-- Every place of a variable in the types of some fields. -/
def Ty.occurrencesFields (bound : List TypeVar) :
    List (String × Ty) → List (List TypeVar × TypeVar)
  | [] => []
  | (_, t) :: fs => t.occurrences bound ++ Ty.occurrencesFields bound fs

end

/-- A type without synonyms whose quantifiers bind variables of `B` and whose fields are in order. -/
inductive Ty.Formed (B : TypeVar → Prop) : Ty → Prop
  | base (b : BaseTy) (r : Range) : Formed B (.base b r)
  | var (v : TypeVar) (r : Range) : Formed B (.var v r)
  | func {p q : Ty} (r : Range) (hp : Formed B p) (hq : Formed B q) : Formed B (.func p q r)
  | list {t : Ty} (r : Range) (ht : Formed B t) : Formed B (.list t r)
  | ref {t : Ty} (r : Range) (ht : Formed B t) : Formed B (.ref t r)
  | product {ts : List Ty} (r : Range) (hts : ∀ t ∈ ts, Formed B t) : Formed B (.product ts r)
  | variant {ts : List Ty} (n : String) (r : Range) (hts : ∀ t ∈ ts, Formed B t) :
      Formed B (.variant n ts r)
  | all {v : TypeVar} {k : Kind} {t : Ty} (r : Range) (hv : B v) (hsorted : Fields.Sorted k.fields)
      (hk : ∀ p ∈ k.fields, Formed B p.2) (ht : Formed B t) : Formed B (.all v k t r)
  | record {fs : List (String × Ty)} (r : Range) (hsorted : Fields.Sorted fs)
      (hfs : ∀ p ∈ fs, Formed B p.2) : Formed B (.record fs r)

namespace Ty

variable {B : TypeVar → Prop} {Γ Ξ Θ Δ Δ' : List TypeVar} {t u : Ty} {v w : TypeVar}
  {r : Range} {ts : List Ty} {fs : List (String × Ty)} {p : List TypeVar × TypeVar} {k : Kind}

theorem mem_freeVars_all :
    w ∈ (all v k t r).freeVars ↔
      (∃ q ∈ k.fields, w ∈ q.2.freeVarsUnder [v]) ∨ w ∈ t.freeVarsUnder [v] := by
  refine List.mem_append.trans (or_congr_left ?_)
  cases k with
  | universal => simp [Kind.freeVarsUnder, Kind.fields]
  | record fs => exact mem_freeVarsOfFields

theorem mem_occurrencesList :
    p ∈ occurrencesList Γ ts ↔ ∃ t ∈ ts, p ∈ t.occurrences Γ := by
  induction ts with
  | nil => simp [occurrencesList]
  | cons t ts ih => simp [occurrencesList, ih]

theorem mem_occurrencesFields :
    p ∈ occurrencesFields Γ fs ↔ ∃ q ∈ fs, p ∈ q.2.occurrences Γ := by
  induction fs with
  | nil => simp [occurrencesFields]
  | cons q fs ih => simp [occurrencesFields, ih]

theorem mem_occurrences_var : p ∈ (var v r).occurrences Γ ↔ p = (Γ, v) :=
  List.mem_singleton

theorem mem_occurrences_func :
    p ∈ (func t u r).occurrences Γ ↔ p ∈ t.occurrences Γ ∨ p ∈ u.occurrences Γ :=
  List.mem_append

theorem mem_occurrences_product :
    p ∈ (product ts r).occurrences Γ ↔ ∃ t ∈ ts, p ∈ t.occurrences Γ := mem_occurrencesList

theorem mem_occurrences_variant {n : String} :
    p ∈ (variant n ts r).occurrences Γ ↔ ∃ t ∈ ts, p ∈ t.occurrences Γ :=
  mem_occurrencesList

theorem mem_occurrences_kind :
    p ∈ k.occurrences Γ ↔ ∃ q ∈ k.fields, p ∈ q.2.occurrences Γ := by
  cases k with
  | universal => simp [Kind.occurrences, Kind.fields]
  | record fs => exact mem_occurrencesFields

theorem mem_occurrences_all :
    p ∈ (all v k t r).occurrences Γ ↔
      (∃ q ∈ k.fields, p ∈ q.2.occurrences (v :: Γ)) ∨ p ∈ t.occurrences (v :: Γ) :=
  List.mem_append.trans (or_congr_left mem_occurrences_kind)

theorem mem_occurrences_record :
    p ∈ (record fs r).occurrences Γ ↔ ∃ q ∈ fs, p ∈ q.2.occurrences Γ :=
  mem_occurrencesFields

namespace Formed

/-- Around a variable there are only binders of `B`. -/
theorem of_mem_occurrences (ht : t.Formed B) (hΘ : ∀ v ∈ Θ, B v) (hp : p ∈ t.occurrences Θ) :
    ∀ v ∈ p.1, B v := by
  induction ht generalizing Θ with
  | base b r => exact absurd hp List.not_mem_nil
  | var v r =>
      obtain rfl := mem_occurrences_var.1 hp
      exact hΘ
  | func r hp' hq ihp ihq => exact (mem_occurrences_func.1 hp).elim (ihp hΘ) (ihq hΘ)
  | list r ht ih => exact ih hΘ hp
  | ref r ht ih => exact ih hΘ hp
  | product r hts ih =>
      obtain ⟨t, ht, hp⟩ := mem_occurrences_product.1 hp
      exact ih t ht hΘ hp
  | variant n r hts ih =>
      obtain ⟨t, ht, hp⟩ := mem_occurrences_variant.1 hp
      exact ih t ht hΘ hp
  | all r hv hsorted hk ht ihk iht =>
      have hcons := List.forall_mem_cons.2 ⟨hv, hΘ⟩
      rcases mem_occurrences_all.1 hp with ⟨q, hq, hp⟩ | hp
      · exact ihk q hq hcons hp
      · exact iht hcons hp
  | record r hsorted hfs ih =>
      obtain ⟨q, hq, hp⟩ := mem_occurrences_record.1 hp
      exact ih q hq hΘ hp

/-- A replacement of variables is one of nameless variables if it is so in every place. -/
theorem nameless_mapVars (ht : t.Formed B) {f : Replacement} {g : Nat → NamelessVar → NamelessTy}
    (h : ∀ p ∈ t.occurrences Θ, ∀ r, (f (p.1 ++ Γ) p.2 r).nameless (p.1 ++ Δ') =
      g p.1.length (.under (p.1 ++ Δ) p.2)) :
    (t.mapVars f (Θ ++ Γ)).nameless (Θ ++ Δ') = (t.nameless (Θ ++ Δ)).mapVars g Θ.length := by
  induction ht generalizing Θ with
  | base b r => rfl
  | var v r => exact h (Θ, v) (mem_occurrences_var.2 rfl) r
  | func r hp hq ihp ihq =>
      simp only [mapVars, nameless_func, NamelessTy.mapVars_func]
      rw [ihp fun p hp => h p (mem_occurrences_func.2 (Or.inl hp)),
        ihq fun p hp => h p (mem_occurrences_func.2 (Or.inr hp))]
  | list r ht ih => exact congrArg NamelessTy.list (ih h)
  | ref r ht ih => exact congrArg NamelessTy.ref (ih h)
  | product r hts ih =>
      simp only [mapVars_product, nameless_product, NamelessTy.mapVars_product, List.map_map,
        NamelessTy.product.injEq]
      exact List.map_congr_left fun t ht =>
        ih t ht fun p hp => h p (mem_occurrences_product.2 ⟨t, ht, hp⟩)
  | variant n r hts ih =>
      simp only [mapVars_variant, nameless_variant, NamelessTy.mapVars_variant, List.map_map,
        NamelessTy.variant.injEq, true_and]
      exact List.map_congr_left fun t ht =>
        ih t ht fun p hp => h p (mem_occurrences_variant.2 ⟨t, ht, hp⟩)
  | @all v k t r hv hsorted hk ht ihk iht =>
      have hbody := iht (Θ := v :: Θ) fun p hp => h p (mem_occurrences_all.2 (Or.inr hp))
      have hkind : (k.mapVars f (v :: (Θ ++ Γ))).nameless (v :: (Θ ++ Δ')) =
          (k.nameless (v :: (Θ ++ Δ))).mapVars g (Θ.length + 1) := by
        cases k with
        | universal => rfl
        | record fs =>
            simp only [Kind.mapVars_record, nameless_kindRecord, NamelessTy.mapVars_kindRecord,
              List.map_map, NamelessKind.record.injEq]
            refine List.map_congr_left fun q hq => Prod.ext rfl ?_
            exact ihk q hq (Θ := v :: Θ) fun p hp =>
              h p (mem_occurrences_all.2 (Or.inl ⟨q, hq, hp⟩))
      exact congrArg₂ NamelessTy.all hkind hbody
  | record r hsorted hfs ih =>
      simp only [mapVars_record, nameless_record, NamelessTy.mapVars_record, List.map_map,
        NamelessTy.record.injEq]
      refine List.map_congr_left fun q hq => Prod.ext rfl ?_
      exact ih q hq fun p hp => h p (mem_occurrences_record.2 ⟨q, hq, hp⟩)

/-- A formed type keeps its form where the replacements agree. -/
theorem mapVars_congr (ht : t.Formed B) {f g : Replacement}
    (h : ∀ p ∈ t.occurrences Θ, ∀ r, f (p.1 ++ Γ) p.2 r = g (p.1 ++ Ξ) p.2 r) :
    t.mapVars f (Θ ++ Γ) = t.mapVars g (Θ ++ Ξ) := by
  induction ht generalizing Θ with
  | base b r => rfl
  | var v r => exact h (Θ, v) (mem_occurrences_var.2 rfl) r
  | func r hp hq ihp ihq =>
      simp only [mapVars]
      rw [ihp fun p hp => h p (mem_occurrences_func.2 (Or.inl hp)),
        ihq fun p hp => h p (mem_occurrences_func.2 (Or.inr hp))]
  | list r ht ih => simp only [mapVars, ih h]
  | ref r ht ih => simp only [mapVars, ih h]
  | product r hts ih =>
      simp only [mapVars_product, product.injEq, and_true]
      exact List.map_congr_left fun t ht =>
        ih t ht fun p hp => h p (mem_occurrences_product.2 ⟨t, ht, hp⟩)
  | variant n r hts ih =>
      simp only [mapVars_variant, variant.injEq, and_true, true_and]
      exact List.map_congr_left fun t ht =>
        ih t ht fun p hp => h p (mem_occurrences_variant.2 ⟨t, ht, hp⟩)
  | @all v k t r hv hsorted hk ht ihk iht =>
      have hbody := iht (Θ := v :: Θ) fun p hp => h p (mem_occurrences_all.2 (Or.inr hp))
      have hkind : k.mapVars f (v :: Θ ++ Γ) = k.mapVars g (v :: Θ ++ Ξ) := by
        cases k with
        | universal => rfl
        | record fs =>
            simp only [Kind.mapVars_record, Kind.record.injEq]
            refine List.map_congr_left fun q hq => Prod.ext rfl ?_
            exact ihk q hq (Θ := v :: Θ) fun p hp =>
              h p (mem_occurrences_all.2 (Or.inl ⟨q, hq, hp⟩))
      exact congrArg₂ (Ty.all v · · r) hkind hbody
  | record r hsorted hfs ih =>
      simp only [mapVars_record, record.injEq, and_true]
      refine List.map_congr_left fun q hq => Prod.ext rfl ?_
      exact ih q hq fun p hp => h p (mem_occurrences_record.2 ⟨q, hq, hp⟩)

theorem mapVars_var (ht : t.Formed B) : t.mapVars (fun _ v r => .var v r) Γ = t := by
  induction ht generalizing Γ with
  | base b r => rfl
  | var v r => rfl
  | func r hp hq ihp ihq => simp only [mapVars, ihp, ihq]
  | list r ht ih => simp only [mapVars, ih]
  | ref r ht ih => simp only [mapVars, ih]
  | product r hts ih =>
      simp only [mapVars_product, product.injEq, and_true]
      exact (List.map_congr_left fun t ht => ih t ht).trans (List.map_id _)
  | variant n r hts ih =>
      simp only [mapVars_variant, variant.injEq, and_true, true_and]
      exact (List.map_congr_left fun t ht => ih t ht).trans (List.map_id _)
  | @all v k t r hv hsorted hk ht ihk iht =>
      have hkind : k.mapVars (fun _ v r => .var v r) (v :: Γ) = k := by
        cases k with
        | universal => rfl
        | record fs =>
            simp only [Kind.mapVars_record, Kind.record.injEq]
            refine (List.map_congr_left (g := id) fun q hq => ?_).trans (List.map_id _)
            exact Prod.ext rfl (ihk q hq)
      exact congrArg₂ (Ty.all v · · r) hkind iht
  | record r hsorted hfs ih =>
      simp only [mapVars_record, record.injEq, and_true]
      refine (List.map_congr_left (g := id) fun q hq => ?_).trans (List.map_id _)
      exact Prod.ext rfl (ih q hq)

/-- Replacing every variable by itself changes nothing. -/
theorem mapVars_eq_self (ht : t.Formed B) {f : Replacement}
    (h : ∀ p ∈ t.occurrences Θ, ∀ r, f (p.1 ++ Γ) p.2 r = .var p.2 r) :
    t.mapVars f (Θ ++ Γ) = t :=
  (ht.mapVars_congr (g := fun _ v r => .var v r) (Ξ := Γ) h).trans ht.mapVars_var

theorem mem_freeVarsUnder_mapVars (ht : t.Formed B) {f : Replacement}
    (hw : w ∈ (t.mapVars f (Θ ++ Γ)).freeVarsUnder (Θ ++ Ξ)) :
    ∃ p ∈ t.occurrences Θ, ∃ r, w ∈ (f (p.1 ++ Γ) p.2 r).freeVarsUnder (p.1 ++ Ξ) := by
  induction ht generalizing Θ with
  | base b r => exact absurd hw List.not_mem_nil
  | var v r => exact ⟨(Θ, v), mem_occurrences_var.2 rfl, r, hw⟩
  | func r hp hq ihp ihq =>
      rcases List.mem_append.1 hw with hw | hw
      · obtain ⟨p, hp, h⟩ := ihp hw
        exact ⟨p, mem_occurrences_func.2 (Or.inl hp), h⟩
      · obtain ⟨p, hp, h⟩ := ihq hw
        exact ⟨p, mem_occurrences_func.2 (Or.inr hp), h⟩
  | list r ht ih => exact ih hw
  | ref r ht ih => exact ih hw
  | product r hts ih =>
      rw [mapVars_product] at hw
      obtain ⟨_, hmem, hw⟩ := mem_freeVarsOfList.1 hw
      obtain ⟨t, ht, rfl⟩ := List.mem_map.1 hmem
      obtain ⟨p, hp, h⟩ := ih t ht hw
      exact ⟨p, mem_occurrences_product.2 ⟨t, ht, hp⟩, h⟩
  | variant n r hts ih =>
      rw [mapVars_variant] at hw
      obtain ⟨_, hmem, hw⟩ := mem_freeVarsOfList.1 hw
      obtain ⟨t, ht, rfl⟩ := List.mem_map.1 hmem
      obtain ⟨p, hp, h⟩ := ih t ht hw
      exact ⟨p, mem_occurrences_variant.2 ⟨t, ht, hp⟩, h⟩
  | @all v k t r hv hsorted hk ht ihk iht =>
      rcases List.mem_append.1 hw with hw | hw
      · cases k with
        | universal => exact absurd hw List.not_mem_nil
        | record fs =>
            rw [Kind.mapVars_record] at hw
            obtain ⟨_, hmem, hw⟩ := mem_freeVarsOfFields.1 hw
            obtain ⟨q, hq, rfl⟩ := List.mem_map.1 hmem
            obtain ⟨p, hp, h⟩ := ihk q hq (Θ := v :: Θ) hw
            exact ⟨p, mem_occurrences_all.2 (Or.inl ⟨q, hq, hp⟩), h⟩
      · obtain ⟨p, hp, h⟩ := iht (Θ := v :: Θ) hw
        exact ⟨p, mem_occurrences_all.2 (Or.inr hp), h⟩
  | record r hsorted hfs ih =>
      rw [mapVars_record] at hw
      obtain ⟨_, hmem, hw⟩ := mem_freeVarsOfFields.1 hw
      obtain ⟨q, hq, rfl⟩ := List.mem_map.1 hmem
      obtain ⟨p, hp, h⟩ := ih q hq hw
      exact ⟨p, mem_occurrences_record.2 ⟨q, hq, hp⟩, h⟩

theorem mem_freeVarsUnder_mapVars_of_mem (ht : t.Formed B) {f : Replacement}
    (hp : p ∈ t.occurrences Θ)
    (hw : ∀ r, w ∈ (f (p.1 ++ Γ) p.2 r).freeVarsUnder (p.1 ++ Ξ)) :
    w ∈ (t.mapVars f (Θ ++ Γ)).freeVarsUnder (Θ ++ Ξ) := by
  induction ht generalizing Θ with
  | base b r => exact absurd hp List.not_mem_nil
  | var v r =>
      obtain rfl := mem_occurrences_var.1 hp
      exact hw r
  | func r hp' hq ihp ihq =>
      exact List.mem_append.2 ((mem_occurrences_func.1 hp).imp ihp ihq)
  | list r ht ih => exact ih hp
  | ref r ht ih => exact ih hp
  | product r hts ih =>
      obtain ⟨t, ht, hp⟩ := mem_occurrences_product.1 hp
      rw [mapVars_product]
      exact mem_freeVarsOfList.2 ⟨_, List.mem_map_of_mem ht, ih t ht hp⟩
  | variant n r hts ih =>
      obtain ⟨t, ht, hp⟩ := mem_occurrences_variant.1 hp
      rw [mapVars_variant]
      exact mem_freeVarsOfList.2 ⟨_, List.mem_map_of_mem ht, ih t ht hp⟩
  | @all v k t r hv hsorted hk ht ihk iht =>
      refine List.mem_append.2 ((mem_occurrences_all.1 hp).imp ?_ fun hp => iht (Θ := v :: Θ) hp)
      rintro ⟨q, hq, hpq⟩
      cases k with
      | universal => exact absurd hq List.not_mem_nil
      | record fs =>
          rw [Kind.mapVars_record]
          exact mem_freeVarsOfFields.2
            ⟨_, List.mem_map.2 ⟨q, hq, rfl⟩, ihk q hq (Θ := v :: Θ) hpq⟩
  | record r hsorted hfs ih =>
      obtain ⟨q, hq, hp⟩ := mem_occurrences_record.1 hp
      rw [mapVars_record]
      exact mem_freeVarsOfFields.2 ⟨_, List.mem_map.2 ⟨q, hq, rfl⟩, ih q hq hp⟩

/-- Formed types in place of the variables make a formed type. -/
protected theorem mapVars (ht : t.Formed B) {f : Replacement}
    (hf : ∀ Γ v r, (f Γ v r).Formed B) : (t.mapVars f Γ).Formed B := by
  induction ht generalizing Γ with
  | base b r => exact .base b r
  | var v r => exact hf Γ v r
  | func r hp hq ihp ihq => exact .func r ihp ihq
  | list r ht ih => exact .list r ih
  | ref r ht ih => exact .ref r ih
  | product r hts ih =>
      rw [mapVars_product]
      exact .product r (List.forall_mem_map.2 fun t ht => ih t ht)
  | variant n r hts ih =>
      rw [mapVars_variant]
      exact .variant n r (List.forall_mem_map.2 fun t ht => ih t ht)
  | @all v k t r hv hsorted hk ht ihk iht =>
      refine .all r hv ?_ ?_ iht
      · rw [Kind.fields_mapVars]
        exact (Fields.sorted_congr (Fields.names_map _ k.fields)).2 hsorted
      · rw [Kind.fields_mapVars]
        exact List.forall_mem_map.2 fun q hq => ihk q hq
  | @record fs r hsorted hfs ih =>
      rw [mapVars_record]
      exact .record r ((Fields.sorted_congr (Fields.names_map _ fs)).2 hsorted)
        (List.forall_mem_map.2 fun q hq => ih q hq)

/-- The free variables can be read off the nameless type. -/
theorem mem_freeVars_nameless (ht : t.Formed B) :
    w ∈ (t.nameless Γ).freeVars ↔ w ∈ t.freeVarsUnder Γ := by
  induction ht generalizing Γ with
  | base b r => exact Iff.rfl
  | var v r =>
      simp only [nameless_var, NamelessVar.under, freeVarsUnder]
      split <;> exact Iff.rfl
  | func r hp hq ihp ihq =>
      exact List.mem_append.trans ((or_congr ihp ihq).trans List.mem_append.symm)
  | list r ht ih => exact ih
  | ref r ht ih => exact ih
  | product r hts ih =>
      rw [nameless_product, NamelessTy.freeVars, NamelessTy.mem_freeVarsOfList]
      simp only [List.mem_map, exists_exists_and_eq_and]
      exact (exists_congr fun t => and_congr_right fun ht => ih t ht).trans mem_freeVarsOfList.symm
  | variant n r hts ih =>
      rw [nameless_variant, NamelessTy.freeVars, NamelessTy.mem_freeVarsOfList]
      simp only [List.mem_map, exists_exists_and_eq_and]
      exact (exists_congr fun t => and_congr_right fun ht => ih t ht).trans mem_freeVarsOfList.symm
  | @all v k t r hv hsorted hk ht ihk iht =>
      refine List.mem_append.trans ((or_congr ?_ iht).trans List.mem_append.symm)
      cases k with
      | universal => exact Iff.rfl
      | record fs =>
          rw [nameless_kindRecord, NamelessKind.freeVars, NamelessTy.mem_freeVarsOfFields]
          simp only [List.mem_map, exists_exists_and_eq_and]
          exact (exists_congr fun q => and_congr_right fun hq => ihk q hq).trans
            mem_freeVarsOfFields.symm
  | record r hsorted hfs ih =>
      rw [nameless_record, NamelessTy.freeVars, NamelessTy.mem_freeVarsOfFields]
      simp only [List.mem_map, exists_exists_and_eq_and]
      exact (exists_congr fun q => and_congr_right fun hq => ih q hq).trans
        mem_freeVarsOfFields.symm

end Formed

namespace Formed

/-- A variable is free where it stands in a place that none of its binders is around. -/
theorem mem_freeVarsUnder (ht : t.Formed B) :
    v ∈ t.freeVarsUnder Γ ↔ ∃ p ∈ t.occurrences [], p.2 = v ∧ v ∉ p.1 ++ Γ := by
  have hself := ht.mapVars_var (Γ := Γ)
  constructor
  · intro hv
    rw [← hself] at hv
    obtain ⟨p, hp, r, hv⟩ := ht.mem_freeVarsUnder_mapVars (Θ := []) (Γ := Γ) hv
    exact ⟨p, hp, mem_freeVarsUnder_var.1 hv⟩
  · rintro ⟨p, hp, hv⟩
    rw [← hself]
    exact ht.mem_freeVarsUnder_mapVars_of_mem (Θ := []) (Γ := Γ) hp fun r =>
      mem_freeVarsUnder_var.2 hv

theorem notMem_freeVarsUnder (ht : t.Formed B) (hv : v ∈ Γ) : v ∉ t.freeVarsUnder Γ := by
  intro hmem
  obtain ⟨p, hp, rfl, hnot⟩ := ht.mem_freeVarsUnder.1 hmem
  exact hnot (List.mem_append_right _ hv)

theorem notMem_freeVars_all (ht : (Ty.all v k t r).Formed B) : v ∉ (Ty.all v k t r).freeVars := by
  cases ht with
  | all r hv hsorted hk ht =>
      intro hmem
      rcases mem_freeVars_all.1 hmem with ⟨q, hq, hmem⟩ | hmem
      · exact (hk q hq).notMem_freeVarsUnder List.mem_cons_self hmem
      · exact ht.notMem_freeVarsUnder List.mem_cons_self hmem

theorem mem_freeVars_of_under (ht : t.Formed B) (hv : v ∈ t.freeVarsUnder Γ) :
    v ∈ t.freeVars := by
  obtain ⟨p, hp, heq, hnot⟩ := ht.mem_freeVarsUnder.1 hv
  exact ht.mem_freeVarsUnder.2 ⟨p, hp, heq, fun hmem => hnot (by simp_all)⟩

/-- A replacement of variables that acts on nameless variables as other binders do acts on the type
as these binders do. -/
theorem nameless_mapVars_eq (ht : t.Formed B) {f : Replacement}
    (h : ∀ p ∈ t.occurrences [], ∀ r,
      (f p.1 p.2 r).nameless (p.1 ++ Δ') = .var (.under (p.1 ++ Δ) p.2)) :
    (t.mapVars f []).nameless Δ' = t.nameless Δ := by
  have hself := ht.mapVars_var (Γ := [])
  calc (t.mapVars f []).nameless Δ'
    _ = (t.nameless Δ).mapVars (fun _ x => .var x) 0 :=
      ht.nameless_mapVars (Θ := []) (Γ := []) fun p hp r => by
        rw [List.append_nil, h p hp r]
    _ = (t.mapVars (fun _ v r => .var v r) []).nameless Δ :=
      (ht.nameless_mapVars (Θ := []) (Γ := []) fun p hp r => rfl).symm
    _ = t.nameless Δ := by rw [hself]

end Formed

end Ty

end FieldML

/-! ## Renaming the variables of quantifiers

A quantifier may take another name for its variable. The type keeps its nameless form if this name
is new to it and no quantifier inside captures it. -/

namespace FieldML

/-- The variable `v` for the variable of the outermost quantifier. -/
def NamelessTy.openVar (v : TypeVar) (depth : Nat) : NamelessVar → NamelessTy
  | .bound i => if i = depth then .var (.free v) else .var (.bound i)
  | .free w => .var (.free w)

/-- The variable of a new outermost quantifier for the variable `v`. -/
def NamelessTy.closeVar (v : TypeVar) (depth : Nat) : NamelessVar → NamelessTy
  | .bound i => .var (.bound i)
  | .free w => if w = v then .var (.bound depth) else .var (.free w)

/-- In one of these places `w` is free, but `v` would be bound. -/
def Captures (v w : TypeVar) (places : List (List TypeVar × TypeVar)) : Prop :=
  ∃ p ∈ places, p.2 = w ∧ w ∉ p.1 ∧ v ∈ p.1

namespace Ty.Formed

variable {B : TypeVar → Prop} {t u : Ty} {v w : TypeVar} {r : Range} {Δ : List TypeVar}

/-- Binders around a type that does not mention them do not matter. -/
theorem nameless_of_notMem (ht : t.Formed B) (h : ∀ v ∈ t.freeVars, v ∉ Δ) :
    t.nameless Δ = t.nameless [] := by
  have hself := ht.mapVars_var (Γ := [])
  conv_lhs => rw [← hself]
  refine ht.nameless_mapVars_eq fun p hp r => congrArg NamelessTy.var ?_
  by_cases hv : p.2 ∈ p.1
  · rw [NamelessVar.under_append_of_mem hv, NamelessVar.under_append_of_mem hv]
  · have hΔ := h p.2 (ht.mem_freeVarsUnder.2 ⟨p, hp, rfl, by simpa using hv⟩)
    rw [NamelessVar.under_of_notMem (by simp [hv, hΔ]), NamelessVar.under_of_notMem (by simpa)]

theorem nameless_open (ht : t.Formed B) (v : TypeVar) :
    t.nameless [] = (t.nameless [v]).mapVars (NamelessTy.openVar v) 0 := by
  have hself := ht.mapVars_var (Γ := [])
  conv_lhs => rw [← hself]
  refine ht.nameless_mapVars (Θ := []) (Γ := []) fun p hp r => ?_
  rw [Ty.nameless_var]
  by_cases hv : p.2 ∈ p.1
  · have hne : p.1.idxOf p.2 ≠ p.1.length := (List.idxOf_lt_length_iff.2 hv).ne
    rw [NamelessVar.under_append_of_mem hv, NamelessVar.under_append_of_mem hv,
      NamelessTy.openVar, if_neg hne]
  · rw [NamelessVar.under_of_notMem (by simpa)]
    by_cases heq : p.2 = v
    · rw [← heq, NamelessVar.under_append_singleton hv, NamelessTy.openVar, if_pos rfl]
    · rw [NamelessVar.under_of_notMem (by simp [hv, heq])]
      rfl

theorem nameless_close (ht : t.Formed B) (v : TypeVar) :
    t.nameless [v] = (t.nameless []).mapVars (NamelessTy.closeVar v) 0 := by
  have hself := ht.mapVars_var (Γ := [])
  conv_lhs => rw [← hself]
  refine ht.nameless_mapVars (Θ := []) (Γ := []) fun p hp r => ?_
  rw [Ty.nameless_var]
  by_cases hv : p.2 ∈ p.1
  · rw [NamelessVar.under_append_of_mem hv, NamelessVar.under_append_of_mem hv]
    rfl
  · rw [NamelessVar.under_of_notMem (Δ := p.1 ++ []) (by simpa), NamelessTy.closeVar]
    split
    · next heq => rw [← heq, NamelessVar.under_append_singleton hv]
    · next hne => rw [NamelessVar.under_of_notMem (by simp [hv, hne])]

/-- Closing both types with the same variable does not change whether they agree. -/
theorem alpha_iff (ht : t.Formed B) (hu : u.Formed B) (v : TypeVar) :
    t.Alpha u ↔ t.nameless [v] = u.nameless [v] := by
  constructor
  · intro h
    rw [ht.nameless_close, hu.nameless_close, h]
  · intro h
    rw [Ty.Alpha, ht.nameless_open v, hu.nameless_open v, h]

/-- What is captured below a quantifier is captured by a binder there. -/
theorem of_captures {k : Kind} (ht : (Ty.all w k t r).Formed B)
    (h : Captures v w (k.occurrences [] ++ t.occurrences [])) : B v := by
  obtain ⟨p, hp, -, -, hv⟩ := h
  cases ht with
  | all r hw hsorted hk ht =>
      rcases List.mem_append.1 hp with hp | hp
      · obtain ⟨q, hq, hp⟩ := Ty.mem_occurrences_kind.1 hp
        exact (hk q hq).of_mem_occurrences (by simp) hp v hv
      · exact ht.of_mem_occurrences (by simp) hp v hv

/-- Renaming `w` to `v` does not change the nameless type under the binder, if `v` is new to the
type and no binder catches it. -/
theorem nameless_substitute_under (hu : u.Formed B)
    (hcapture : ¬Captures v w (u.occurrences [])) (hv : v ∉ u.freeVarsUnder [w]) :
    (u.substitute w (.var v r)).nameless [v] = u.nameless [w] := by
  refine hu.nameless_mapVars_eq fun p hp r' => ?_
  by_cases hmem : p.2 ∈ p.1
  · have hsingle : ¬(p.2 = w ∧ w ∉ p.1) := fun ⟨heq, hw⟩ => hw (heq ▸ hmem)
    rw [Replacement.single, if_neg hsingle, Ty.nameless_var, NamelessVar.under_append_of_mem hmem,
      NamelessVar.under_append_of_mem hmem]
  · by_cases heq : p.2 = w
    · have hvp : v ∉ p.1 := fun hvp => hcapture ⟨p, hp, heq, heq ▸ hmem, hvp⟩
      rw [Replacement.single, if_pos ⟨heq, heq ▸ hmem⟩, Ty.nameless_var, heq,
        NamelessVar.under_append_singleton hvp, NamelessVar.under_append_singleton (heq ▸ hmem)]
    · have hfree : p.2 ∈ u.freeVarsUnder [w] :=
        hu.mem_freeVarsUnder.2 ⟨p, hp, rfl, by simp [hmem, heq]⟩
      have hne : p.2 ≠ v := fun h => hv (h ▸ hfree)
      rw [Replacement.single, if_neg (fun h => heq h.1), Ty.nameless_var,
        NamelessVar.under_of_notMem (by simp [hmem, hne]),
        NamelessVar.under_of_notMem (by simp [hmem, heq])]

end Ty.Formed

end FieldML
