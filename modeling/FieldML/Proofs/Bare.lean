import FieldML.Proofs.Substitution

/-!
# Bare types

The bare form of a type has no synonyms and no ranges left. Two types are alike if they have the
same bare form, which is what it means for types to be equal once all synonyms are expanded.
-/

namespace FieldML

mutual

/-- The type with all synonyms expanded and all ranges erased. -/
def Ty.bare : Ty → Ty
  | .base b _ => .base b .erased
  | .var v _ => .var v .erased
  | .func p q _ => .func p.bare q.bare .erased
  | .list t _ => .list t.bare .erased
  | .ref t _ => .ref t.bare .erased
  | .product ts _ => .product (Ty.bareList ts) .erased
  | .variant n ts _ => .variant n (Ty.bareList ts) .erased
  | .synonym _ _ t _ => t.bare
  | .all v k t _ => .all v k.bare t.bare .erased
  | .record fs _ => .record (Ty.bareFields fs) .erased

def Kind.bare : Kind → Kind
  | .universal => .universal
  | .record fs => .record (Ty.bareFields fs)

def Ty.bareList : List Ty → List Ty
  | [] => []
  | t :: ts => t.bare :: Ty.bareList ts

def Ty.bareFields : List (String × Ty) → List (String × Ty)
  | [] => []
  | (n, t) :: fs => (n, t.bare) :: Ty.bareFields fs

end

namespace Ty

variable {syn : Prop} {f : Replacement} {bound : List TypeVar} {t u : Ty}

theorem bareList_eq_map (ts : List Ty) : bareList ts = ts.map bare := by
  induction ts with
  | nil => rfl
  | cons t ts ih => simp [bareList, ih]

theorem bareFields_eq_map (fs : List (String × Ty)) :
    bareFields fs = fs.map fun p => (p.1, p.2.bare) := by
  induction fs with
  | nil => rfl
  | cons p fs ih => simp [bareFields, ih]

@[simp] theorem bare_product (ts : List Ty) (r : Range) :
    (product ts r).bare = .product (ts.map bare) .erased := by
  rw [bare, bareList_eq_map]

@[simp] theorem bare_variant (n : String) (ts : List Ty) (r : Range) :
    (variant n ts r).bare = .variant n (ts.map bare) .erased := by
  rw [bare, bareList_eq_map]

@[simp] theorem bare_record (fs : List (String × Ty)) (r : Range) :
    (record fs r).bare = .record (fs.map fun p => (p.1, p.2.bare)) .erased := by
  rw [bare, bareFields_eq_map]

@[simp] theorem bare_expand (t : Ty) : t.expand.bare = t.bare := by
  match t with
  | synonym _ _ body _ => simpa only [expand, bare] using bare_expand body
  | base _ _ | var _ _ | func _ _ _ | list _ _ | ref _ _ | product _ _ | variant _ _ _
  | all _ _ _ _ | record _ _ => rfl

namespace Simple

protected theorem bare (ht : t.Simple syn) : t.bare.Simple False := by
  induction ht with
  | base b r => exact .base b _
  | var v r => exact .var v _
  | func r hp hq ihp ihq => exact .func _ ihp ihq
  | list r ht ih => exact .list _ ih
  | ref r ht ih => exact .ref _ ih
  | product r hts ih =>
      rw [bare_product]
      refine .product _ fun _ hmem => ?_
      obtain ⟨t, ht, rfl⟩ := List.mem_map.1 hmem
      exact ih t ht
  | variant n r hts ih =>
      rw [bare_variant]
      refine .variant n _ fun _ hmem => ?_
      obtain ⟨t, ht, rfl⟩ := List.mem_map.1 hmem
      exact ih t ht
  | synonym n r hsyn hts ht hvars ihts iht => exact iht
  | @record fs r hsorted hfs ih =>
      rw [bare_record]
      refine .record _ ?_ fun _ hmem => ?_
      · exact (Fields.sorted_congr (Fields.names_map _ fs)).2 hsorted
      · obtain ⟨p, hp, rfl⟩ := List.mem_map.1 hmem
        exact ih p hp

theorem bare_bare (ht : t.Simple syn) : t.bare.bare = t.bare := by
  induction ht with
  | base b r => rfl
  | var v r => rfl
  | func r hp hq ihp ihq => simp only [bare, ihp, ihq]
  | list r ht ih => simp only [bare, ih]
  | ref r ht ih => simp only [bare, ih]
  | product r hts ih =>
      simp only [bare_product, List.map_map]
      congr 1
      exact List.map_congr_left ih
  | variant n r hts ih =>
      simp only [bare_variant, List.map_map]
      congr 1
      exact List.map_congr_left ih
  | synonym n r hsyn hts ht hvars ihts iht => exact iht
  | record r hsorted hfs ih =>
      simp only [bare_record, List.map_map]
      congr 1
      exact List.map_congr_left fun p hp => by simp [ih p hp]

theorem mem_freeVars_of_bare (ht : t.Simple syn) {v : TypeVar} (hv : v ∈ t.bare.freeVars) :
    v ∈ t.freeVars := by
  induction ht with
  | base b r => exact hv
  | var w r => exact hv
  | func r hp hq ihp ihq => exact mem_freeVars_func.2 ((mem_freeVars_func.1 hv).imp ihp ihq)
  | list r ht ih => exact ih hv
  | ref r ht ih => exact ih hv
  | product r hts ih =>
      rw [bare_product, mem_freeVars_product] at hv
      obtain ⟨_, hmem, hv⟩ := hv
      obtain ⟨t, ht, rfl⟩ := List.mem_map.1 hmem
      exact mem_freeVars_product.2 ⟨t, ht, ih t ht hv⟩
  | variant n r hts ih =>
      rw [bare_variant, mem_freeVars_variant] at hv
      obtain ⟨_, hmem, hv⟩ := hv
      obtain ⟨t, ht, rfl⟩ := List.mem_map.1 hmem
      exact mem_freeVars_variant.2 ⟨t, ht, ih t ht hv⟩
  | synonym n r hsyn hts ht hvars ihts iht => exact hvars v (iht hv)
  | record r hsorted hfs ih =>
      rw [bare_record, mem_freeVars_record] at hv
      obtain ⟨_, hmem, hv⟩ := hv
      obtain ⟨p, hp, rfl⟩ := List.mem_map.1 hmem
      exact mem_freeVars_record.2 ⟨p, hp, ih p hp hv⟩

/-- The bare form of a type with its variables replaced depends on its own bare form only. -/
theorem bare_mapVars (ht : t.Simple syn) {g : TypeVar → Ty}
    (hf : ∀ v ∈ t.freeVars, ∀ r, (f bound v r).bare = g v) :
    (t.mapVars f bound).bare = t.bare.mapVars (fun _ v _ => g v) [] := by
  induction ht with
  | base b r => rfl
  | var v r => exact hf v (by simp) r
  | func r hp hq ihp ihq =>
      simp only [mapVars, bare]
      rw [ihp fun v hv => hf v (by simp [hv]), ihq fun v hv => hf v (by simp [hv])]
  | list r ht ih => simp only [mapVars, bare, ih hf]
  | ref r ht ih => simp only [mapVars, bare, ih hf]
  | product r hts ih =>
      simp only [mapVars_product, bare_product, List.map_map]
      congr 1
      exact List.map_congr_left fun t ht =>
        ih t ht fun v hv => hf v (mem_freeVars_product.2 ⟨t, ht, hv⟩)
  | variant n r hts ih =>
      simp only [mapVars_variant, bare_variant, List.map_map]
      congr 1
      exact List.map_congr_left fun t ht =>
        ih t ht fun v hv => hf v (mem_freeVars_variant.2 ⟨t, ht, hv⟩)
  | synonym n r hsyn hts ht hvars ihts iht =>
      simp only [mapVars_synonym, bare]
      exact iht fun v hv => hf v (hvars v hv)
  | record r hsorted hfs ih =>
      simp only [mapVars_record, bare_record, List.map_map]
      congr 1
      refine List.map_congr_left fun p hp => ?_
      simp only [Function.comp_apply, Prod.mk.injEq, true_and]
      exact ih p hp fun v hv => hf v (mem_freeVars_record.2 ⟨p, hp, hv⟩)

end Simple

/-- The types are equal once all synonyms are expanded and all ranges are forgotten. -/
def Alike (t u : Ty) : Prop := t.bare = u.bare

/-- Records in order are alike if they have the same names and alike types under each. -/
theorem alike_record {fs gs : List (String × Ty)} {r r' : Range} (hfs : Fields.Sorted fs)
    (hgs : Fields.Sorted gs) (hnames : ∀ n, n ∈ Fields.names fs ↔ n ∈ Fields.names gs)
    (hfields : ∀ n t u, (n, t) ∈ fs → (n, u) ∈ gs → t.Alike u) :
    (record fs r).Alike (record gs r') := by
  unfold Alike
  rw [bare_record, bare_record]
  congr 1
  have hperm : Fields.names fs = Fields.names gs :=
    List.Perm.eq_of_pairwise (fun _ _ _ _ h h' => absurd h' (String.lt_asymm h)) hfs hgs
      ((List.perm_ext_iff_of_nodup (hfs.imp fun h => String.ne_of_lt h)
        (hgs.imp fun h => String.ne_of_lt h)).2 hnames)
  clear hfs hgs hnames
  induction fs generalizing gs with
  | nil =>
      cases gs with
      | nil => rfl
      | cons q gs => simp [Fields.names] at hperm
  | cons p fs ih =>
      cases gs with
      | nil => simp [Fields.names] at hperm
      | cons q gs =>
          obtain ⟨n, t⟩ := p
          obtain ⟨m, u⟩ := q
          obtain ⟨rfl, hrest⟩ := List.cons.inj hperm
          have hhead : t.bare = u.bare := hfields n t u List.mem_cons_self List.mem_cons_self
          have htail := ih (fun k x y hx hy =>
            hfields k x y (List.mem_cons_of_mem _ hx) (List.mem_cons_of_mem _ hy)) hrest
          simp only [List.map_cons, hhead, htail]

end Ty

namespace Substitution

variable {syn : Prop} {s s' : Substitution} {v : TypeVar} {t u : Ty} {r r' : Range}

theorem bare_follow (n : Nat) : (s.follow n [] v r).bare = (s.follow n [] v r').bare := by
  cases n with
  | zero => rfl
  | succ n =>
      cases hv : s.find? v with
      | none => rw [follow_of_none _ hv, follow_of_none _ hv]; rfl
      | some t => rw [follow_of_some _ hv, follow_of_some _ hv]

/-- What a type is once the substitution is applied and all synonyms are expanded. -/
def bare (s : Substitution) (t : Ty) : Ty := (s.apply t).bare

theorem bare_eq_mapVars (ht : t.Simple syn) :
    s.bare t = t.bare.mapVars (fun _ v _ => s.bare (.var v .erased)) [] :=
  ht.bare_mapVars fun _ _ _ => bare_follow _

theorem bare_congr {syn' : Prop} (ht : t.Simple syn) (hu : u.Simple syn') (h : t.Alike u) :
    s.bare t = s.bare u := by
  rw [bare_eq_mapVars ht, bare_eq_mapVars hu, h]

theorem bare_expand (ht : t.Simple syn) : s.bare t.expand = s.bare t :=
  bare_congr ht.expand ht (Ty.bare_expand t)

theorem Triangular.bare_apply (h : s.Triangular syn) (h' : s'.Triangular syn)
    (hext : s.ExtendedBy s') (ht : t.Simple syn) : s'.bare (s.apply t) = s'.bare t := by
  unfold bare
  rw [h.apply_apply h' hext ht]

theorem Triangular.bare_bare (h : s.Triangular syn) (h' : s'.Triangular syn)
    (hext : s.ExtendedBy s') (ht : t.Simple syn) : s'.bare (s.bare t) = s'.bare t := by
  rw [← h.bare_apply h' hext ht]
  exact bare_congr (h.simple.apply ht).bare (h.simple.apply ht) (h.simple.apply ht).bare_bare

/-- Types that are equal under a substitution are equal under all that extend it. -/
theorem Triangular.bare_extend (h : s.Triangular syn) (h' : s'.Triangular syn)
    (hext : s.ExtendedBy s') (ht : t.Simple syn) (hu : u.Simple syn) (heq : s.bare t = s.bare u) :
    s'.bare t = s'.bare u := by
  rw [← h.bare_apply h' hext ht, ← h.bare_apply h' hext hu]
  exact bare_congr (h.simple.apply ht) (h.simple.apply hu) heq

end Substitution

end FieldML
