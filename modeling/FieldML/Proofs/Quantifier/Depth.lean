import FieldML.Proofs.Quantifier.Rules

/-!
# Depths of quantified types

A comparison that binds no variable goes down in the types on every step, through quantifiers too. Its
fuel is more than the depth of the types that it starts with, once everything known is applied.
-/

namespace FieldML

mutual

/-- The depth of a type, in which variables have none. -/
def Ty.depth : Ty → Nat
  | .base _ _ | .var _ _ => 0
  | .func p q _ => max p.depth q.depth + 1
  | .list t _ => t.depth + 1
  | .ref t _ => t.depth + 1
  | .product ts _ => Ty.depthList ts + 1
  | .variant _ ts _ => Ty.depthList ts + 1
  | .synonym _ _ t _ => t.depth + 1
  | .all _ k t _ => max k.depth t.depth + 1
  | .record fs _ => Ty.depthFields fs + 1

/-- The greatest depth among the types of a kind. -/
def Kind.depth : Kind → Nat
  | .universal => 0
  | .record fs => Ty.depthFields fs

/-- The greatest depth among some types. -/
def Ty.depthList : List Ty → Nat
  | [] => 0
  | t :: ts => max t.depth (Ty.depthList ts)

/-- The greatest depth among the types of some fields. -/
def Ty.depthFields : List (String × Ty) → Nat
  | [] => 0
  | (_, t) :: fs => max t.depth (Ty.depthFields fs)

end

namespace Ty

variable {B : TypeVar → Prop} {t c : Ty} {ts : List Ty} {fs : List (String × Ty)} {k : Kind}
  {Γ : List TypeVar} {n m : Nat}

theorem depthList_le : depthList ts ≤ n ↔ ∀ t ∈ ts, t.depth ≤ n := by
  induction ts with
  | nil => simp [depthList]
  | cons t ts ih => simp [depthList, ih]

theorem depthFields_le : depthFields fs ≤ n ↔ ∀ p ∈ fs, p.2.depth ≤ n := by
  induction fs with
  | nil => simp [depthFields]
  | cons p fs ih => simp [depthFields, ih]

theorem depthKind_le : k.depth ≤ n ↔ ∀ p ∈ k.fields, p.2.depth ≤ n := by
  cases k with
  | universal => simp [Kind.depth, Kind.fields]
  | record fs => exact depthFields_le

theorem depth_lt_of_mem_components (hc : c ∈ t.components) : c.depth < t.depth := by
  cases t with
  | base | var | synonym | all => exact absurd hc List.not_mem_nil
  | func p q r =>
      simp only [components, List.mem_cons, List.not_mem_nil, or_false] at hc
      rw [depth]
      rcases hc with rfl | rfl <;> omega
  | list t r | ref t r => exact List.mem_singleton.1 hc ▸ Nat.lt_succ_self _
  | product ts r | variant n ts r => exact Nat.lt_succ_of_le (depthList_le.1 (Nat.le_refl _) c hc)
  | record fs r =>
      obtain ⟨p, hp, rfl⟩ := List.mem_map.1 hc
      exact Nat.lt_succ_of_le (depthFields_le.1 (Nat.le_refl _) p hp)

theorem depth_body_lt {v : TypeVar} {r : Range} : t.depth < (all v k t r).depth :=
  Nat.lt_succ_of_le (Nat.le_max_right _ _)

theorem depth_field_lt {v : TypeVar} {r : Range} {p : String × Ty} (hp : p ∈ k.fields) :
    p.2.depth < (all v k t r).depth :=
  Nat.lt_succ_of_le ((depthKind_le.1 (Nat.le_refl _) p hp).trans (Nat.le_max_left _ _))

namespace Formed

theorem depth_mapVars_le (ht : t.Formed B) {f : Replacement} (hf : ∀ Γ v r,
    (f Γ v r).depth ≤ n) : (t.mapVars f Γ).depth ≤ t.depth + n := by
  induction ht generalizing Γ with
  | base b r => exact Nat.zero_le _
  | var v r => exact (hf Γ v r).trans (Nat.le_add_left _ _)
  | func r hp hq ihp ihq =>
      have hp := ihp (Γ := Γ)
      have hq := ihq (Γ := Γ)
      simp only [mapVars, depth]
      omega
  | list r ht ih | ref r ht ih =>
      have ht := ih (Γ := Γ)
      simp only [mapVars, depth]
      omega
  | product r hts ih =>
      rw [mapVars_product, depth, depth, Nat.add_right_comm]
      refine Nat.succ_le_succ (depthList_le.2 (List.forall_mem_map.2 fun t ht => ?_))
      exact (ih t ht).trans (Nat.add_le_add_right (depthList_le.1 (Nat.le_refl _) t ht) n)
  | variant m r hts ih =>
      rw [mapVars_variant, depth, depth, Nat.add_right_comm]
      refine Nat.succ_le_succ (depthList_le.2 (List.forall_mem_map.2 fun t ht => ?_))
      exact (ih t ht).trans (Nat.add_le_add_right (depthList_le.1 (Nat.le_refl _) t ht) n)
  | @all v k t r hv hsorted hk ht ihk iht =>
      rw [mapVars, depth, depth, Nat.add_right_comm]
      refine Nat.succ_le_succ (max_le ?_ ?_)
      · rw [depthKind_le, Kind.fields_mapVars]
        refine List.forall_mem_map.2 fun p hp => (ihk p hp).trans (Nat.add_le_add_right ?_ n)
        exact (depthKind_le.1 (Nat.le_refl _) p hp).trans (Nat.le_max_left _ _)
      · exact iht.trans (Nat.add_le_add_right (Nat.le_max_right _ _) n)
  | record r hsorted hfs ih =>
      rw [mapVars_record, depth, depth, Nat.add_right_comm]
      refine Nat.succ_le_succ (depthFields_le.2 (List.forall_mem_map.2 fun p hp => ?_))
      exact (ih p hp).trans (Nat.add_le_add_right (depthFields_le.1 (Nat.le_refl _) p hp) n)

end Formed

mutual

theorem depth_le_size (t : Ty) : t.depth ≤ t.size := by
  match t with
  | base _ _ | var _ _ => exact Nat.zero_le _
  | func p q _ =>
      have hp := depth_le_size p
      have hq := depth_le_size q
      simp only [depth, size]
      omega
  | list t _ | ref t _ => exact Nat.succ_le_succ (depth_le_size t)
  | product ts _ | variant _ ts _ => exact Nat.succ_le_succ (depthList_le_size ts)
  | synonym _ ts t _ =>
      exact Nat.succ_le_succ ((depth_le_size t).trans (Nat.le_add_left _ _))
  | all _ k t _ =>
      have hk := depthKind_le_size k
      have ht := depth_le_size t
      simp only [depth, size]
      omega
  | record fs _ => exact Nat.succ_le_succ (depthFields_le_size fs)

theorem depthKind_le_size (k : Kind) : k.depth ≤ k.size := by
  match k with
  | .universal => exact Nat.zero_le _
  | .record fs => exact Nat.le_succ_of_le (depthFields_le_size fs)

theorem depthList_le_size (ts : List Ty) : depthList ts ≤ sizeList ts := by
  match ts with
  | [] => exact Nat.zero_le _
  | t :: ts =>
      have ht := depth_le_size t
      have hts := depthList_le_size ts
      simp only [depthList, sizeList]
      omega

theorem depthFields_le_size (fs : List (String × Ty)) : depthFields fs ≤ sizeFields fs := by
  match fs with
  | [] => exact Nat.zero_le _
  | (_, t) :: fs =>
      have ht := depth_le_size t
      have hfs := depthFields_le_size fs
      simp only [depthFields, sizeFields]
      omega

end

end Ty

namespace Substitution

variable {B : TypeVar → Prop} {s : Substitution} {t : Ty} {v : TypeVar}

theorem le_foldl_size {α : Type} (l : List α) (g : α → Nat) (init : Nat) :
    init + l.length ≤ l.foldl (fun n x => n + g x + 1) init ∧
      ∀ x ∈ l, init + g x ≤ l.foldl (fun n x => n + g x + 1) init := by
  induction l generalizing init with
  | nil => simp
  | cons y l ih =>
      obtain ⟨hlength, hmem⟩ := ih (init + g y + 1)
      simp only [List.foldl_cons, List.length_cons, List.forall_mem_cons]
      refine ⟨by omega, by omega, fun x hx => ?_⟩
      have := hmem x hx
      omega

theorem size_le_weight (s : Substitution) : s.size ≤ s.weight := by
  have h := (le_foldl_size s.bindings.toList (fun p : TypeVar × Ty => p.2.size) 0).1
  rw [Std.TreeMap.length_toList] at h
  rw [weight, Std.TreeMap.foldl_eq_foldl_toList]
  exact (Nat.zero_add _).ge.trans h

theorem size_le_weight_of_find? (h : s.find? v = some t) : t.size ≤ s.weight := by
  have hmem : (v, t) ∈ s.bindings.toList := Std.TreeMap.mem_toList_iff_getElem?_eq_some.2 h
  have h := (le_foldl_size s.bindings.toList (fun p : TypeVar × Ty => p.2.size) 0).2 _ hmem
  rw [weight, Std.TreeMap.foldl_eq_foldl_toList]
  exact (Nat.zero_add _).ge.trans h

theorem Acyclic.depth_apply_le (hs : s.Acyclic B) (ht : t.Formed B) :
    (s.apply t).depth ≤ t.size + s.weight * s.weight := by
  have hfollow : ∀ n bound v r, (s.follow n bound v r).depth ≤ n * s.weight := by
    intro n
    induction n with
    | zero => exact fun bound v r => Nat.zero_le _
    | succ n ih =>
        intro bound v r
        by_cases hv : v ∈ bound
        · rw [follow_of_mem hv]
          exact Nat.zero_le _
        · cases hfind : s.find? v with
          | none =>
              rw [follow_of_find?_none hfind]
              exact Nat.zero_le _
          | some t =>
              rw [follow_of_find?_some hfind hv, Nat.succ_mul, Nat.add_comm]
              exact ((hs.formed v t hfind).depth_mapVars_le ih).trans (Nat.add_le_add_right
                (t.depth_le_size.trans (size_le_weight_of_find? hfind)) _)
  calc
    (s.apply t).depth ≤ t.depth + s.size * s.weight := ht.depth_mapVars_le (hfollow _)
    _ ≤ t.size + s.weight * s.weight :=
      Nat.add_le_add t.depth_le_size (Nat.mul_le_mul_right _ s.size_le_weight)

end Substitution

/-- The fuel of a comparison is more than the depth of the types that it starts with. -/
theorem Solver.depth_lt_fuel {B : TypeVar → Prop} {s : Solver} {a : Ty} (b : Ty)
    (hs : s.subst.Acyclic B) (ha : a.Formed B) :
    (s.subst.apply a).depth < s.fuel (a.size + b.size) := by
  have hdepth := hs.depth_apply_le ha
  unfold fuel
  generalize s.subst.weight = m at hdepth ⊢
  have hpow : 1 ≤ Nat.pow 4 (m + s.kinds.weight + (a.size + b.size) + 2) :=
    Nat.one_le_pow _ _ (by norm_num)
  have hle : m + a.size + 2 ≤ m + s.kinds.weight + (a.size + b.size) + 2 := by omega
  calc
    (s.subst.apply a).depth ≤ a.size + m * m := hdepth
    _ < (m + a.size + 2) * (m + a.size + 2) := by nlinarith
    _ ≤ _ := Nat.mul_le_mul hle hle
    _ ≤ _ := Nat.le_mul_of_pos_right _ hpow

end FieldML
