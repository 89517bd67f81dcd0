import FieldML.Proofs.Substitution

/-!
# Finite types

An assignment gives a finite type to every variable. Under an assignment a type without quantifiers
means a finite type, in which synonyms and ranges are forgotten.
-/

namespace FieldML

/-- A finite type without variables. -/
inductive GroundTy where
  | base (base : BaseTy)
  | func (param result : GroundTy)
  | list (elem : GroundTy)
  | ref (target : GroundTy)
  | product (items : List GroundTy)
  | variant (name : String) (args : List GroundTy)
  | record (fields : List (String × GroundTy))

/-- A finite type for every variable. -/
abbrev Assignment := TypeVar → GroundTy

mutual

/-- What a type means under an assignment. -/
def Ty.ground (θ : Assignment) : Ty → GroundTy
  | .base b _ => .base b
  | .var v _ => θ v
  | .func p q _ => .func (p.ground θ) (q.ground θ)
  | .list t _ => .list (t.ground θ)
  | .ref t _ => .ref (t.ground θ)
  | .product ts _ => .product (Ty.groundList θ ts)
  | .variant n ts _ => .variant n (Ty.groundList θ ts)
  | .synonym _ _ t _ => t.ground θ
  | .all _ _ t _ => t.ground θ
  | .record fs _ => .record (Ty.groundFields θ fs)

/-- What some types mean. -/
def Ty.groundList (θ : Assignment) : List Ty → List GroundTy
  | [] => []
  | t :: ts => t.ground θ :: Ty.groundList θ ts

/-- What the types of some fields mean. -/
def Ty.groundFields (θ : Assignment) : List (String × Ty) → List (String × GroundTy)
  | [] => []
  | (n, t) :: fs => (n, t.ground θ) :: Ty.groundFields θ fs

end

/-- The type is a record that has at least these fields. -/
def GroundTy.HasFields (τ : GroundTy) (fs : List (String × GroundTy)) : Prop :=
  ∃ gs, τ = .record gs ∧ ∀ p ∈ fs, Fields.get? gs p.1 = some p.2

/-- The kind allows the type. -/
def Kind.Admits (θ : Assignment) (τ : GroundTy) : Kind → Prop
  | .universal => True
  | .record fs => τ.HasFields (Ty.groundFields θ fs)

namespace Ty

variable {syn : Prop} {θ θ' : Assignment} {f : Replacement} {bound : List TypeVar}

theorem groundList_eq_map (ts : List Ty) : groundList θ ts = ts.map (ground θ) := by
  induction ts with
  | nil => rfl
  | cons t ts ih => simp [groundList, ih]

theorem groundFields_eq_map (fs : List (String × Ty)) :
    groundFields θ fs = fs.map fun p => (p.1, p.2.ground θ) := by
  induction fs with
  | nil => rfl
  | cons p fs ih => simp [groundFields, ih]

@[simp] theorem ground_product (ts : List Ty) (r : Range) :
    (product ts r).ground θ = .product (ts.map (ground θ)) := by
  rw [ground, groundList_eq_map]

@[simp] theorem ground_variant (n : String) (ts : List Ty) (r : Range) :
    (variant n ts r).ground θ = .variant n (ts.map (ground θ)) := by
  rw [ground, groundList_eq_map]

@[simp] theorem ground_record (fs : List (String × Ty)) (r : Range) :
    (record fs r).ground θ = .record (fs.map fun p => (p.1, p.2.ground θ)) := by
  rw [ground, groundFields_eq_map]

@[simp] theorem ground_expand (t : Ty) : t.expand.ground θ = t.ground θ := by
  match t with
  | synonym _ _ body _ => simpa only [expand, ground] using ground_expand body
  | base _ _ | var _ _ | func _ _ _ | list _ _ | ref _ _ | product _ _ | variant _ _ _
  | all _ _ _ _ | record _ _ => rfl

theorem mem_groundFields {fs : List (String × Ty)} {p : String × Ty} (hp : p ∈ fs) :
    (p.1, p.2.ground θ) ∈ groundFields θ fs := by
  rw [groundFields_eq_map]
  exact List.mem_map_of_mem (f := fun p => (p.1, p.2.ground θ)) hp

theorem names_groundFields (fs : List (String × Ty)) :
    Fields.names (groundFields θ fs) = Fields.names fs := by
  rw [groundFields_eq_map, Fields.names_map]

theorem get?_groundFields (fs : List (String × Ty)) (n : String) :
    Fields.get? (groundFields θ fs) n = (Fields.get? fs n).map (ground θ) := by
  rw [groundFields_eq_map, Fields.get?_map]

namespace Simple

/-- A simple type means the same where the assignments agree on what its variables became. -/
theorem ground_mapVars {t : Ty} (ht : t.Simple syn)
    (h : ∀ v ∈ t.freeVars, ∀ r, (f bound v r).ground θ = θ' v) :
    (t.mapVars f bound).ground θ = t.ground θ' := by
  induction ht with
  | base b r => rfl
  | var v r => exact h v (by simp) r
  | func r hp hq ihp ihq =>
      simp only [mapVars, ground]
      rw [ihp fun v hv => h v (by simp [hv]), ihq fun v hv => h v (by simp [hv])]
  | list r ht ih => simp only [mapVars, ground, ih h]
  | ref r ht ih => simp only [mapVars, ground, ih h]
  | product r hts ih =>
      simp only [mapVars_product, ground_product, List.map_map, GroundTy.product.injEq]
      exact List.map_congr_left fun t ht =>
        ih t ht fun v hv => h v (mem_freeVars_product.2 ⟨t, ht, hv⟩)
  | variant n r hts ih =>
      simp only [mapVars_variant, ground_variant, List.map_map, GroundTy.variant.injEq, true_and]
      exact List.map_congr_left fun t ht =>
        ih t ht fun v hv => h v (mem_freeVars_variant.2 ⟨t, ht, hv⟩)
  | synonym n r hsyn hts ht hvars ihts iht =>
      simp only [mapVars_synonym, ground]
      exact iht fun v hv => h v (hvars v hv)
  | record r hsorted hfs ih =>
      simp only [mapVars_record, ground_record, List.map_map, GroundTy.record.injEq]
      refine List.map_congr_left fun p hp => ?_
      simp only [Function.comp_apply, Prod.mk.injEq, true_and]
      exact ih p hp fun v hv => h v (mem_freeVars_record.2 ⟨p, hp, hv⟩)

end Simple

end Ty

namespace Substitution

variable {syn : Prop} {s : Substitution} {θ : Assignment} {t : Ty}

/-- The assignment agrees with the types that the substitution gives to variables. -/
def SolvedBy (θ : Assignment) (s : Substitution) : Prop :=
  ∀ v t, s.find? v = some t → θ v = t.ground θ

/-- Applying a substitution does not change what a type means to an assignment that agrees with
it. -/
theorem SolvedBy.ground_apply (h : s.SolvedBy θ) (hs : s.Simple syn) (ht : t.Simple syn) :
    (s.apply t).ground θ = t.ground θ := by
  have hfollow : ∀ n v r, (s.follow n [] v r).ground θ = θ v := by
    intro n
    induction n with
    | zero => exact fun v r => rfl
    | succ n ih =>
        intro v r
        cases hv : s.find? v with
        | none => rw [follow_of_none _ hv, Ty.ground]
        | some t =>
            rw [follow_of_some _ hv, h v t hv]
            exact (hs v t hv).ground_mapVars fun w _ r => ih w r
  exact ht.ground_mapVars fun v _ r => hfollow s.size v r

end Substitution

end FieldML

/-! ## Heights of types

The height of a type is found from heights for its variables. Finite types have heights of their
own, and the two agree under an assignment. -/

namespace FieldML

mutual

/-- The height of a type where variables have given heights. The arguments of a synonym do not
count. -/
def Ty.height (h : TypeVar → Nat) : Ty → Nat
  | .base _ _ => 0
  | .var v _ => h v
  | .func p q _ => max (p.height h) (q.height h) + 1
  | .list t _ => t.height h + 1
  | .ref t _ => t.height h + 1
  | .product ts _ => Ty.heightList h ts + 1
  | .variant _ ts _ => Ty.heightList h ts + 1
  | .synonym _ _ t _ => t.height h
  | .all _ _ t _ => t.height h
  | .record fs _ => Ty.heightFields h fs + 1

/-- The greatest height among some types. -/
def Ty.heightList (h : TypeVar → Nat) : List Ty → Nat
  | [] => 0
  | t :: ts => max (t.height h) (Ty.heightList h ts)

/-- The greatest height among the types of some fields. -/
def Ty.heightFields (h : TypeVar → Nat) : List (String × Ty) → Nat
  | [] => 0
  | (_, t) :: fs => max (t.height h) (Ty.heightFields h fs)

end

mutual

/-- The height of a finite type. -/
def GroundTy.height : GroundTy → Nat
  | .base _ => 0
  | .func p q => max p.height q.height + 1
  | .list t => t.height + 1
  | .ref t => t.height + 1
  | .product ts => GroundTy.heightList ts + 1
  | .variant _ ts => GroundTy.heightList ts + 1
  | .record fs => GroundTy.heightFields fs + 1

/-- The greatest height among some finite types. -/
def GroundTy.heightList : List GroundTy → Nat
  | [] => 0
  | t :: ts => max t.height (GroundTy.heightList ts)

/-- The greatest height among the finite types of some fields. -/
def GroundTy.heightFields : List (String × GroundTy) → Nat
  | [] => 0
  | (_, t) :: fs => max t.height (GroundTy.heightFields fs)

end

theorem GroundTy.height_le_heightFields {fs : List (String × GroundTy)} {p : String × GroundTy}
    (hp : p ∈ fs) : p.2.height ≤ heightFields fs := by
  induction fs with
  | nil => simp at hp
  | cons q fs ih =>
      simp only [heightFields]
      rcases List.mem_cons.1 hp with rfl | hp
      · omega
      · have := ih hp
        omega

/-- The fields that a finite type has are below it. -/
theorem GroundTy.HasFields.height_lt {τ : GroundTy} {fs : List (String × GroundTy)}
    (h : τ.HasFields fs) {p : String × GroundTy} (hp : p ∈ fs) : p.2.height < τ.height := by
  obtain ⟨gs, rfl, hfs⟩ := h
  simp only [height]
  exact Nat.lt_succ_of_le (height_le_heightFields (Fields.mem_of_get? (hfs p hp)))

namespace Ty

variable {syn : Prop} {h : TypeVar → Nat} {θ : Assignment}

theorem height_le_heightList {ts : List Ty} {t : Ty} (ht : t ∈ ts) :
    t.height h ≤ heightList h ts := by
  induction ts with
  | nil => simp at ht
  | cons u ts ih =>
      simp only [heightList]
      rcases List.mem_cons.1 ht with rfl | ht
      · omega
      · have := ih ht
        omega

theorem height_le_heightFields {fs : List (String × Ty)} {p : String × Ty} (hp : p ∈ fs) :
    p.2.height h ≤ heightFields h fs := by
  induction fs with
  | nil => simp at hp
  | cons q fs ih =>
      simp only [heightFields]
      rcases List.mem_cons.1 hp with rfl | hp
      · omega
      · have := ih hp
        omega

theorem heightList_map_le {ts : List Ty} {f : Ty → Ty}
    (hf : ∀ t ∈ ts, (f t).height h ≤ t.height h) :
    heightList h (ts.map f) ≤ heightList h ts := by
  induction ts with
  | nil => simp [heightList]
  | cons t ts ih =>
      have := hf t List.mem_cons_self
      have := ih fun u hu => hf u (List.mem_cons_of_mem _ hu)
      simp only [List.map_cons, heightList]
      omega

theorem heightFields_map_le {fs : List (String × Ty)} {f : Ty → Ty}
    (hf : ∀ p ∈ fs, (f p.2).height h ≤ p.2.height h) :
    heightFields h (fs.map fun p => (p.1, f p.2)) ≤ heightFields h fs := by
  induction fs with
  | nil => simp [heightFields]
  | cons p fs ih =>
      have := hf p List.mem_cons_self
      have := ih fun q hq => hf q (List.mem_cons_of_mem _ hq)
      simp only [List.map_cons, heightFields]
      omega

theorem height_lt_of_mem_items {t u : Ty} (hu : u ∈ t.items) : u.height h < t.height h := by
  cases t with
  | base | var | synonym | all => exact absurd hu List.not_mem_nil
  | func p q r =>
      simp only [items, List.mem_cons, List.not_mem_nil, or_false] at hu
      rcases hu with rfl | rfl <;> simp only [height] <;> omega
  | list t r | ref t r =>
      obtain rfl := List.mem_singleton.1 hu
      exact Nat.lt_succ_self _
  | product ts r | variant n ts r => exact Nat.lt_succ_of_le (height_le_heightList hu)
  | record fs r =>
      obtain ⟨p, hp, rfl⟩ := List.mem_map.1 hu
      exact Nat.lt_succ_of_le (height_le_heightFields hp)

@[simp] theorem height_expand (t : Ty) : t.expand.height h = t.height h := by
  match t with
  | synonym _ _ body _ => simpa only [expand, height] using height_expand body
  | base _ _ | var _ _ | func _ _ _ | list _ _ | ref _ _ | product _ _ | variant _ _ _
  | all _ _ _ _ | record _ _ => rfl

theorem Simple.height_mapVars_le {f : Replacement} {bound : List TypeVar} {t : Ty}
    (ht : t.Simple syn) (hf : ∀ v r, (f bound v r).height h ≤ h v) :
    (t.mapVars f bound).height h ≤ t.height h := by
  induction ht with
  | base b r => exact Nat.le_refl _
  | var v r => exact hf v r
  | func r hp hq ihp ihq => simp only [mapVars, height]; omega
  | list r ht ih => simp only [mapVars, height]; omega
  | ref r ht ih => simp only [mapVars, height]; omega
  | product r hts ih =>
      simp only [mapVars_product, height]
      exact Nat.succ_le_succ (heightList_map_le ih)
  | variant n r hts ih =>
      simp only [mapVars_variant, height]
      exact Nat.succ_le_succ (heightList_map_le ih)
  | synonym n r hsyn hts ht hvars ihts iht => simpa only [mapVars_synonym, height] using iht
  | record r hsorted hfs ih =>
      simp only [mapVars_record, height]
      exact Nat.succ_le_succ (heightFields_map_le ih)

/-- A variable of a type does not lie above it. -/
theorem Simple.height_le_of_mem_freeVars {t : Ty} {v : TypeVar} (ht : t.Simple False)
    (hv : v ∈ t.freeVars) : h v ≤ t.height h := by
  induction ht with
  | base b r => simp at hv
  | var w r => exact Nat.le_of_eq (congrArg h (mem_freeVars_var.1 hv))
  | func r hp hq ihp ihq =>
      simp only [height]
      rcases mem_freeVars_func.1 hv with hv | hv
      · have := ihp hv
        omega
      · have := ihq hv
        omega
  | list r ht ih | ref r ht ih => exact Nat.le_succ_of_le (ih hv)
  | product r hts ih =>
      obtain ⟨t, ht, hv⟩ := mem_freeVars_product.1 hv
      exact Nat.le_succ_of_le ((ih t ht hv).trans (height_le_heightList ht))
  | variant n r hts ih =>
      obtain ⟨t, ht, hv⟩ := mem_freeVars_variant.1 hv
      exact Nat.le_succ_of_le ((ih t ht hv).trans (height_le_heightList ht))
  | synonym n r hsyn => exact hsyn.elim
  | record r hsorted hfs ih =>
      obtain ⟨p, hp, hv⟩ := mem_freeVars_record.1 hv
      exact Nat.le_succ_of_le ((ih p hp hv).trans (height_le_heightFields hp))

mutual

/-- Where variables have the heights of what they mean, so have all types. -/
theorem height_ground (θ : Assignment) (t : Ty) :
    (t.ground θ).height = t.height fun v => (θ v).height := by
  match t with
  | base _ _ | var _ _ => rfl
  | func p q _ => simp only [ground, GroundTy.height, height, height_ground θ p, height_ground θ q]
  | list t _ | ref t _ => simp only [ground, GroundTy.height, height, height_ground θ t]
  | product ts _ | variant _ ts _ =>
      simp only [ground, GroundTy.height, height, height_groundList θ ts]
  | synonym _ _ t _ | all _ _ t _ => simp only [ground, height, height_ground θ t]
  | record fs _ => simp only [ground, GroundTy.height, height, height_groundFields θ fs]

theorem height_groundList (θ : Assignment) (ts : List Ty) :
    GroundTy.heightList (groundList θ ts) = heightList (fun v => (θ v).height) ts := by
  match ts with
  | [] => rfl
  | t :: ts =>
      simp only [groundList, GroundTy.heightList, heightList, height_ground θ t,
        height_groundList θ ts]

theorem height_groundFields (θ : Assignment) (fs : List (String × Ty)) :
    GroundTy.heightFields (groundFields θ fs) = heightFields (fun v => (θ v).height) fs := by
  match fs with
  | [] => rfl
  | (_, t) :: fs =>
      simp only [groundFields, GroundTy.heightFields, heightFields, height_ground θ t,
        height_groundFields θ fs]

end

end Ty

end FieldML
