import FieldML.Proofs.Fields
import FieldML.Ty.Vars

/-!
# Types without quantifiers

Only types without quantifiers are compared while a program is checked. Replacing variables in such
a type depends on nothing but its free variables. Synonyms are allowed where `syn` holds.
-/

namespace FieldML

variable {syn : Prop} {f g : Replacement} {bound bound' : List TypeVar}

/-- A type without quantifiers and, unless `syn`, without synonyms. The body of a synonym mentions
no more variables than its arguments, and fields are in order. -/
inductive Ty.Simple (syn : Prop) : Ty → Prop
  | base (b : BaseTy) (r : Range) : Simple syn (.base b r)
  | var (v : TypeVar) (r : Range) : Simple syn (.var v r)
  | func {p q : Ty} (r : Range) (hp : Simple syn p) (hq : Simple syn q) :
      Simple syn (.func p q r)
  | list {t : Ty} (r : Range) (ht : Simple syn t) : Simple syn (.list t r)
  | ref {t : Ty} (r : Range) (ht : Simple syn t) : Simple syn (.ref t r)
  | product {ts : List Ty} (r : Range) (hts : ∀ t ∈ ts, Simple syn t) :
      Simple syn (.product ts r)
  | variant {ts : List Ty} (n : String) (r : Range) (hts : ∀ t ∈ ts, Simple syn t) :
      Simple syn (.variant n ts r)
  | synonym {ts : List Ty} {t : Ty} (n : String) (r : Range) (hsyn : syn)
      (hts : ∀ t ∈ ts, Simple syn t) (ht : Simple syn t)
      (hvars : ∀ v ∈ t.freeVars, v ∈ Ty.freeVarsOfList [] ts) : Simple syn (.synonym n ts t r)
  | record {fs : List (String × Ty)} (r : Range) (hsorted : Fields.Sorted fs)
      (hfs : ∀ p ∈ fs, Simple syn p.2) : Simple syn (.record fs r)

/-- A kind whose fields are in order and have simple types. -/
def Kind.Simple (syn : Prop) (k : Kind) : Prop :=
  Fields.Sorted k.fields ∧ ∀ p ∈ k.fields, p.2.Simple syn

theorem Kind.simple_universal {syn : Prop} : Kind.universal.Simple syn :=
  ⟨Fields.sorted_nil, List.forall_mem_nil _⟩

namespace Ty

attribute [local simp] mapVars mapVarsList mapVarsFields
attribute [local simp] freeVarsUnder freeVarsOfList freeVarsOfFields

theorem mem_freeVarsOfList {ts : List Ty} {v : TypeVar} :
    v ∈ freeVarsOfList bound ts ↔ ∃ t ∈ ts, v ∈ t.freeVarsUnder bound := by
  induction ts with
  | nil => simp
  | cons t ts ih => simp [ih]

theorem mem_freeVarsOfFields {fs : List (String × Ty)} {v : TypeVar} :
    v ∈ freeVarsOfFields bound fs ↔ ∃ p ∈ fs, v ∈ p.2.freeVarsUnder bound := by
  induction fs with
  | nil => simp
  | cons p fs ih => simp [ih]

theorem mem_freeVarsUnder_var {w : TypeVar} {r : Range} {v : TypeVar} :
    v ∈ (var w r).freeVarsUnder bound ↔ w = v ∧ v ∉ bound := by
  rw [freeVarsUnder]
  split
  · next hw => simpa using fun h => h ▸ hw
  · next hw => simpa [eq_comm] using fun h => h ▸ hw

@[simp] theorem mem_freeVars_base {b : BaseTy} {r : Range} {v : TypeVar} :
    v ∈ (base b r).freeVars ↔ False := by
  simp [freeVars]

@[simp] theorem mem_freeVars_var {w : TypeVar} {r : Range} {v : TypeVar} :
    v ∈ (var w r).freeVars ↔ v = w := by
  simp [freeVars]

@[simp] theorem mem_freeVars_func {p q : Ty} {r : Range} {v : TypeVar} :
    v ∈ (func p q r).freeVars ↔ v ∈ p.freeVars ∨ v ∈ q.freeVars := by
  simp [freeVars]

@[simp] theorem mem_freeVars_list {t : Ty} {r : Range} {v : TypeVar} :
    v ∈ (list t r).freeVars ↔ v ∈ t.freeVars := Iff.rfl

@[simp] theorem mem_freeVars_ref {t : Ty} {r : Range} {v : TypeVar} :
    v ∈ (ref t r).freeVars ↔ v ∈ t.freeVars := Iff.rfl

@[simp] theorem mem_freeVars_product {ts : List Ty} {r : Range} {v : TypeVar} :
    v ∈ (product ts r).freeVars ↔ ∃ t ∈ ts, v ∈ t.freeVars := mem_freeVarsOfList

@[simp] theorem mem_freeVars_variant {n : String} {ts : List Ty} {r : Range} {v : TypeVar} :
    v ∈ (variant n ts r).freeVars ↔ ∃ t ∈ ts, v ∈ t.freeVars := mem_freeVarsOfList

@[simp] theorem mem_freeVars_synonym {n : String} {ts : List Ty} {t : Ty} {r : Range}
    {v : TypeVar} : v ∈ (synonym n ts t r).freeVars ↔ ∃ t ∈ ts, v ∈ t.freeVars :=
  mem_freeVarsOfList

@[simp] theorem mem_freeVars_record {fs : List (String × Ty)} {r : Range} {v : TypeVar} :
    v ∈ (record fs r).freeVars ↔ ∃ p ∈ fs, v ∈ p.2.freeVars := mem_freeVarsOfFields

@[simp] theorem freeVars_withRange (t : Ty) (r : Range) :
    (t.withRange r).freeVars = t.freeVars := by
  cases t <;> rfl

@[simp] theorem mentions_eq_true {t : Ty} {v : TypeVar} : t.mentions v = true ↔ v ∈ t.freeVars := by
  simp [mentions]

@[simp] theorem mapVars_product (ts : List Ty) (r : Range) :
    (product ts r).mapVars f bound = .product (ts.map (mapVars f bound)) r := by
  rw [mapVars, mapVarsList_eq_map]

@[simp] theorem mapVars_variant (n : String) (ts : List Ty) (r : Range) :
    (variant n ts r).mapVars f bound = .variant n (ts.map (mapVars f bound)) r := by
  rw [mapVars, mapVarsList_eq_map]

@[simp] theorem mapVars_synonym (n : String) (ts : List Ty) (t : Ty) (r : Range) :
    (synonym n ts t r).mapVars f bound =
      .synonym n (ts.map (mapVars f bound)) (t.mapVars f bound) r := by
  rw [mapVars, mapVarsList_eq_map]

@[simp] theorem mapVars_record (fs : List (String × Ty)) (r : Range) :
    (record fs r).mapVars f bound = .record (fs.map fun p => (p.1, p.2.mapVars f bound)) r := by
  rw [mapVars, mapVarsFields_eq_map]

/-- The types right inside a type, where a synonym or a quantified type counts as a whole. -/
def items : Ty → List Ty
  | .func p q _ => [p, q]
  | .list t _ | .ref t _ => [t]
  | .product ts _ | .variant _ ts _ => ts
  | .record fs _ => fs.map (·.2)
  | .base _ _ | .var _ _ | .synonym _ _ _ _ | .all _ _ _ _ => []

theorem mem_freeVars_of_mem_items {t u : Ty} {v : TypeVar} (hu : u ∈ t.items)
    (hv : v ∈ u.freeVars) : v ∈ t.freeVars := by
  cases t with
  | base | var | synonym | all => exact absurd hu List.not_mem_nil
  | func p q r =>
      simp only [items, List.mem_cons, List.not_mem_nil, or_false] at hu
      rcases hu with rfl | rfl
      · exact mem_freeVars_func.2 (Or.inl hv)
      · exact mem_freeVars_func.2 (Or.inr hv)
  | list t r | ref t r =>
      obtain rfl := List.mem_singleton.1 hu
      exact hv
  | product ts r => exact mem_freeVars_product.2 ⟨u, hu, hv⟩
  | variant n ts r => exact mem_freeVars_variant.2 ⟨u, hu, hv⟩
  | record fs r =>
      obtain ⟨p, hp, rfl⟩ := List.mem_map.1 hu
      exact mem_freeVars_record.2 ⟨p, hp, hv⟩

namespace Simple

theorem of_mem_items {t u : Ty} (ht : t.Simple syn) (hu : u ∈ t.items) : u.Simple syn := by
  cases ht with
  | base | var | synonym => exact absurd hu List.not_mem_nil
  | func r hp hq =>
      simp only [items, List.mem_cons, List.not_mem_nil, or_false] at hu
      rcases hu with rfl | rfl
      · exact hp
      · exact hq
  | list r ht | ref r ht => exact List.mem_singleton.1 hu ▸ ht
  | product r hts | variant n r hts => exact hts u hu
  | record r hsorted hfs =>
      obtain ⟨p, hp, rfl⟩ := List.mem_map.1 hu
      exact hfs p hp

theorem exists_mem_items {t : Ty} (ht : t.Simple False) {v : TypeVar} (hv : v ∈ t.freeVars) :
    (∃ r, t = .var v r) ∨ ∃ u ∈ t.items, v ∈ u.freeVars := by
  cases ht with
  | base b r => simp at hv
  | var w r => exact Or.inl ⟨r, by rw [mem_freeVars_var.1 hv]⟩
  | func r hp hq =>
      rcases mem_freeVars_func.1 hv with hv | hv
      · exact Or.inr ⟨_, List.mem_cons_self, hv⟩
      · exact Or.inr ⟨_, List.mem_cons_of_mem _ List.mem_cons_self, hv⟩
  | list r ht | ref r ht => exact Or.inr ⟨_, List.mem_cons_self, hv⟩
  | product r hts => exact Or.inr (mem_freeVars_product.1 hv)
  | variant n r hts => exact Or.inr (mem_freeVars_variant.1 hv)
  | synonym n r hsyn => exact hsyn.elim
  | record r hsorted hfs =>
      obtain ⟨p, hp, hv⟩ := mem_freeVars_record.1 hv
      exact Or.inr ⟨_, List.mem_map_of_mem hp, hv⟩

/-- The rest of a simple type after its synonyms at the head is simple. -/
theorem expand {t : Ty} (ht : t.Simple syn) : t.expand.Simple syn := by
  induction ht with
  | synonym n r hsyn hts ht hvars ihts iht => simpa only [Ty.expand] using iht
  | base | var | func | list | ref | product | variant | record =>
      simp only [Ty.expand]
      constructor <;> assumption

protected theorem withRange {t : Ty} (ht : t.Simple syn) (r : Range) :
    (t.withRange r).Simple syn := by
  cases ht with
  | synonym n _ hsyn hts ht hvars => exact .synonym n r hsyn hts ht hvars
  | _ => constructor <;> assumption

theorem mem_freeVars_of_expand {t : Ty} (ht : t.Simple syn) {v : TypeVar}
    (hv : v ∈ t.expand.freeVars) : v ∈ t.freeVars := by
  induction ht with
  | synonym n r hsyn hts ht hvars ihts iht => exact hvars v (iht hv)
  | base | var | func | list | ref | product | variant | record => exact hv

/-- A simple type keeps its form where the replacements agree. -/
theorem mapVars_congr {t : Ty} (ht : t.Simple syn)
    (hfg : ∀ v ∈ t.freeVars, ∀ r, f bound v r = g bound' v r) :
    t.mapVars f bound = t.mapVars g bound' := by
  induction ht with
  | base b r => rfl
  | var v r => exact hfg v (by simp) r
  | func r hp hq ihp ihq =>
      simp only [mapVars]
      rw [ihp fun v hv => hfg v (by simp [hv]), ihq fun v hv => hfg v (by simp [hv])]
  | list r ht ih => simp only [mapVars, ih hfg]
  | ref r ht ih => simp only [mapVars, ih hfg]
  | product r hts ih =>
      simp only [mapVars_product]
      congr 1
      exact List.map_congr_left fun t ht =>
        ih t ht fun v hv => hfg v (mem_freeVars_product.2 ⟨t, ht, hv⟩)
  | variant n r hts ih =>
      simp only [mapVars_variant]
      congr 1
      exact List.map_congr_left fun t ht =>
        ih t ht fun v hv => hfg v (mem_freeVars_variant.2 ⟨t, ht, hv⟩)
  | synonym n r hsyn hts ht hvars ihts iht =>
      simp only [mapVars_synonym]
      congr 1
      · exact List.map_congr_left fun t ht =>
          ihts t ht fun v hv => hfg v (mem_freeVars_synonym.2 ⟨t, ht, hv⟩)
      · exact iht fun v hv => hfg v (hvars v hv)
  | record r hsorted hfs ih =>
      simp only [mapVars_record]
      congr 1
      refine List.map_congr_left fun p hp => ?_
      rw [ih p hp fun v hv => hfg v (mem_freeVars_record.2 ⟨p, hp, hv⟩)]

/-- Replacing every variable by itself changes nothing. -/
theorem mapVars_eq_self {t : Ty} (ht : t.Simple syn)
    (hf : ∀ v ∈ t.freeVars, ∀ r, f bound v r = .var v r) : t.mapVars f bound = t := by
  induction ht with
  | base b r => rfl
  | var v r => exact hf v (by simp) r
  | func r hp hq ihp ihq =>
      simp only [mapVars]
      rw [ihp fun v hv => hf v (by simp [hv]), ihq fun v hv => hf v (by simp [hv])]
  | list r ht ih => simp only [mapVars, ih hf]
  | ref r ht ih => simp only [mapVars, ih hf]
  | product r hts ih =>
      simp only [mapVars_product]
      congr 1
      refine (List.map_congr_left fun t ht => ?_).trans (List.map_id _)
      exact ih t ht fun v hv => hf v (mem_freeVars_product.2 ⟨t, ht, hv⟩)
  | variant n r hts ih =>
      simp only [mapVars_variant]
      congr 1
      refine (List.map_congr_left fun t ht => ?_).trans (List.map_id _)
      exact ih t ht fun v hv => hf v (mem_freeVars_variant.2 ⟨t, ht, hv⟩)
  | synonym n r hsyn hts ht hvars ihts iht =>
      simp only [mapVars_synonym]
      congr 1
      · refine (List.map_congr_left fun t ht => ?_).trans (List.map_id _)
        exact ihts t ht fun v hv => hf v (mem_freeVars_synonym.2 ⟨t, ht, hv⟩)
      · exact iht fun v hv => hf v (hvars v hv)
  | record r hsorted hfs ih =>
      simp only [mapVars_record]
      congr 1
      refine (List.map_congr_left fun p hp => ?_).trans (List.map_id _)
      rw [ih p hp fun v hv => hf v (mem_freeVars_record.2 ⟨p, hp, hv⟩)]
      rfl

/-- Two replacements in a row are one. -/
theorem mapVars_mapVars {t : Ty} (ht : t.Simple syn) :
    (t.mapVars f bound).mapVars g bound' =
      t.mapVars (fun _ v r => (f bound v r).mapVars g bound') [] := by
  induction ht with
  | base b r => rfl
  | var v r => rfl
  | func r hp hq ihp ihq => simp only [mapVars, ihp, ihq]
  | list r ht ih => simp only [mapVars, ih]
  | ref r ht ih => simp only [mapVars, ih]
  | product r hts ih =>
      simp only [mapVars_product, List.map_map]
      congr 1
      exact List.map_congr_left ih
  | variant n r hts ih =>
      simp only [mapVars_variant, List.map_map]
      congr 1
      exact List.map_congr_left ih
  | synonym n r hsyn hts ht hvars ihts iht =>
      simp only [mapVars_synonym, List.map_map, iht]
      congr 1
      exact List.map_congr_left ihts
  | record r hsorted hfs ih =>
      simp only [mapVars_record, List.map_map]
      congr 1
      refine List.map_congr_left fun p hp => ?_
      simp only [Function.comp_apply, ih p hp]

theorem exists_of_mem_freeVars_mapVars {t : Ty} (ht : t.Simple syn) {w : TypeVar}
    (hw : w ∈ (t.mapVars f bound).freeVars) :
    ∃ v ∈ t.freeVars, ∃ r, w ∈ (f bound v r).freeVars := by
  induction ht with
  | base b r => simp at hw
  | var v r => exact ⟨v, by simp, r, hw⟩
  | func r hp hq ihp ihq =>
      rcases mem_freeVars_func.1 hw with hw | hw
      · obtain ⟨v, hv, hr⟩ := ihp hw
        exact ⟨v, by simp [hv], hr⟩
      · obtain ⟨v, hv, hr⟩ := ihq hw
        exact ⟨v, by simp [hv], hr⟩
  | list r ht ih => exact ih hw
  | ref r ht ih => exact ih hw
  | product r hts ih =>
      rw [mapVars_product, mem_freeVars_product] at hw
      obtain ⟨_, hmem, hw⟩ := hw
      obtain ⟨t, ht, rfl⟩ := List.mem_map.1 hmem
      obtain ⟨v, hv, hr⟩ := ih t ht hw
      exact ⟨v, mem_freeVars_product.2 ⟨t, ht, hv⟩, hr⟩
  | variant n r hts ih =>
      rw [mapVars_variant, mem_freeVars_variant] at hw
      obtain ⟨_, hmem, hw⟩ := hw
      obtain ⟨t, ht, rfl⟩ := List.mem_map.1 hmem
      obtain ⟨v, hv, hr⟩ := ih t ht hw
      exact ⟨v, mem_freeVars_variant.2 ⟨t, ht, hv⟩, hr⟩
  | synonym n r hsyn hts ht hvars ihts iht =>
      rw [mapVars_synonym, mem_freeVars_synonym] at hw
      obtain ⟨_, hmem, hw⟩ := hw
      obtain ⟨t, ht, rfl⟩ := List.mem_map.1 hmem
      obtain ⟨v, hv, hr⟩ := ihts t ht hw
      exact ⟨v, mem_freeVars_synonym.2 ⟨t, ht, hv⟩, hr⟩
  | record r hsorted hfs ih =>
      rw [mapVars_record, mem_freeVars_record] at hw
      obtain ⟨_, hmem, hw⟩ := hw
      obtain ⟨p, hp, rfl⟩ := List.mem_map.1 hmem
      obtain ⟨v, hv, hr⟩ := ih p hp hw
      exact ⟨v, mem_freeVars_record.2 ⟨p, hp, hv⟩, hr⟩

theorem mem_freeVars_mapVars {t : Ty} (ht : t.Simple syn) {v w : TypeVar} (hv : v ∈ t.freeVars)
    (hw : ∀ r, w ∈ (f bound v r).freeVars) : w ∈ (t.mapVars f bound).freeVars := by
  induction ht with
  | base b r => simp at hv
  | var u r =>
      obtain rfl := mem_freeVars_var.1 hv
      exact hw r
  | func r hp hq ihp ihq =>
      rcases mem_freeVars_func.1 hv with hv | hv
      · exact mem_freeVars_func.2 (Or.inl (ihp hv))
      · exact mem_freeVars_func.2 (Or.inr (ihq hv))
  | list r ht ih => exact ih hv
  | ref r ht ih => exact ih hv
  | product r hts ih =>
      obtain ⟨t, ht, hv⟩ := mem_freeVars_product.1 hv
      rw [mapVars_product, mem_freeVars_product]
      exact ⟨_, List.mem_map_of_mem ht, ih t ht hv⟩
  | variant n r hts ih =>
      obtain ⟨t, ht, hv⟩ := mem_freeVars_variant.1 hv
      rw [mapVars_variant, mem_freeVars_variant]
      exact ⟨_, List.mem_map_of_mem ht, ih t ht hv⟩
  | synonym n r hsyn hts ht hvars ihts iht =>
      obtain ⟨t, ht, hv⟩ := mem_freeVars_synonym.1 hv
      rw [mapVars_synonym, mem_freeVars_synonym]
      exact ⟨_, List.mem_map_of_mem ht, ihts t ht hv⟩
  | record r hsorted hfs ih =>
      obtain ⟨p, hp, hv⟩ := mem_freeVars_record.1 hv
      rw [mapVars_record, mem_freeVars_record]
      exact ⟨_, List.mem_map_of_mem (f := fun p => (p.1, p.2.mapVars f bound)) hp, ih p hp hv⟩

/-- Simple types in place of the variables make a simple type, if the place where a variable stands
does not decide which variables take it. -/
protected theorem mapVars {t : Ty} (ht : t.Simple syn)
    (hf : ∀ v ∈ t.freeVars, ∀ r, (f bound v r).Simple syn)
    (hplace : ∀ v r r' w, w ∈ (f bound v r).freeVars → w ∈ (f bound v r').freeVars) :
    (t.mapVars f bound).Simple syn := by
  induction ht with
  | base b r => exact .base b r
  | var v r => exact hf v (by simp) r
  | func r hp hq ihp ihq =>
      exact .func r (ihp fun v hv => hf v (by simp [hv])) (ihq fun v hv => hf v (by simp [hv]))
  | list r ht ih => exact .list r (ih hf)
  | ref r ht ih => exact .ref r (ih hf)
  | product r hts ih =>
      rw [mapVars_product]
      refine .product r fun _ hmem => ?_
      obtain ⟨t, ht, rfl⟩ := List.mem_map.1 hmem
      exact ih t ht fun v hv => hf v (mem_freeVars_product.2 ⟨t, ht, hv⟩)
  | variant n r hts ih =>
      rw [mapVars_variant]
      refine .variant n r fun _ hmem => ?_
      obtain ⟨t, ht, rfl⟩ := List.mem_map.1 hmem
      exact ih t ht fun v hv => hf v (mem_freeVars_variant.2 ⟨t, ht, hv⟩)
  | @synonym ts t n r hsyn hts ht hvars ihts iht =>
      rw [mapVars_synonym]
      refine .synonym n r hsyn (fun _ hmem => ?_) (iht fun v hv => hf v (hvars v hv)) ?_
      · obtain ⟨t, ht, rfl⟩ := List.mem_map.1 hmem
        exact ihts t ht fun v hv => hf v (mem_freeVars_synonym.2 ⟨t, ht, hv⟩)
      · intro w hw
        obtain ⟨v, hv, r', hw⟩ := ht.exists_of_mem_freeVars_mapVars hw
        obtain ⟨u, hu, hv⟩ := mem_freeVarsOfList.1 (hvars v hv)
        refine mem_freeVarsOfList.2 ⟨_, List.mem_map_of_mem hu, ?_⟩
        exact (hts u hu).mem_freeVars_mapVars hv fun r => hplace v r' r w hw
  | @record fs r hsorted hfs ih =>
      rw [mapVars_record]
      refine .record r ?_ fun _ hmem => ?_
      · exact (Fields.sorted_congr (Fields.names_map _ fs)).2 hsorted
      · obtain ⟨p, hp, rfl⟩ := List.mem_map.1 hmem
        exact ih p hp fun v hv => hf v (mem_freeVars_record.2 ⟨p, hp, hv⟩)

end Simple

/-- The type with other variables in place of its own. -/
def rename (ρ : TypeVar → TypeVar) (t : Ty) : Ty := t.mapVars (fun _ v r => .var (ρ v) r) []

namespace Simple

variable {ρ σ : TypeVar → TypeVar} {t : Ty}

theorem rename (ht : t.Simple syn) (ρ : TypeVar → TypeVar) : (t.rename ρ).Simple syn :=
  ht.mapVars (fun _ _ r => .var _ r) fun _ _ _ _ hw => hw

theorem rename_rename (ht : t.Simple syn) :
    (t.rename ρ).rename σ = t.rename fun v => σ (ρ v) := ht.mapVars_mapVars

theorem exists_of_mem_freeVars_rename (ht : t.Simple syn) {w : TypeVar}
    (hw : w ∈ (t.rename ρ).freeVars) : ∃ v ∈ t.freeVars, w = ρ v := by
  obtain ⟨v, hv, r, hw⟩ := ht.exists_of_mem_freeVars_mapVars hw
  exact ⟨v, hv, mem_freeVars_var.1 hw⟩

theorem mem_freeVars_rename (ht : t.Simple syn) {v : TypeVar} (hv : v ∈ t.freeVars) :
    ρ v ∈ (t.rename ρ).freeVars :=
  ht.mem_freeVars_mapVars hv fun _ => mem_freeVars_var.2 rfl

end Simple

end Ty

namespace Kind

variable {k : Kind} {v : TypeVar}

theorem mem_freeVars : v ∈ k.freeVars ↔ ∃ p ∈ k.fields, v ∈ p.2.freeVars := by
  cases k with
  | universal => simp [freeVars, freeVarsUnder, fields]
  | record fs => exact Ty.mem_freeVarsOfFields

@[simp] theorem mapVars_record (fs : List (String × Ty)) :
    (record fs).mapVars f bound = .record (fs.map fun p => (p.1, p.2.mapVars f bound)) := by
  rw [mapVars, Ty.mapVarsFields_eq_map]

theorem fields_mapVars (f : Replacement) (k : Kind) :
    (k.mapVars f bound).fields = k.fields.map fun p => (p.1, p.2.mapVars f bound) := by
  cases k with
  | universal => rfl
  | record fs => rw [mapVars_record, fields, fields]

namespace Simple

theorem mapVars_congr (hk : k.Simple syn)
    (hfg : ∀ v ∈ k.freeVars, ∀ r, f bound v r = g bound' v r) :
    k.mapVars f bound = k.mapVars g bound' := by
  cases k with
  | universal => rfl
  | record fs =>
      simp only [mapVars_record, record.injEq]
      refine List.map_congr_left fun p hp => ?_
      rw [(hk.2 p hp).mapVars_congr fun v hv => hfg v (mem_freeVars.2 ⟨p, hp, hv⟩)]

theorem mapVars_eq_self (hk : k.Simple syn)
    (hf : ∀ v ∈ k.freeVars, ∀ r, f bound v r = .var v r) : k.mapVars f bound = k := by
  cases k with
  | universal => rfl
  | record fs =>
      simp only [mapVars_record, record.injEq]
      refine (List.map_congr_left fun p hp => ?_).trans (List.map_id _)
      rw [(hk.2 p hp).mapVars_eq_self fun v hv => hf v (mem_freeVars.2 ⟨p, hp, hv⟩)]
      rfl

theorem mapVars_mapVars (hk : k.Simple syn) :
    (k.mapVars f bound).mapVars g bound' =
      k.mapVars (fun _ v r => (f bound v r).mapVars g bound') [] := by
  cases k with
  | universal => rfl
  | record fs =>
      simp only [mapVars_record, List.map_map, record.injEq]
      refine List.map_congr_left fun p hp => ?_
      simp only [Function.comp_apply, (hk.2 p hp).mapVars_mapVars]

end Simple

end Kind

end FieldML
