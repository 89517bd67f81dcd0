import FieldML.Proofs.Ground

/-!
# Monomorphic types

A monomorphic type has no quantifiers, and synonyms and ranges are forgotten in it. A type means a
monomorphic one as soon as monomorphic types stand for its variables.
-/

namespace FieldML

/-- A type without quantifiers, synonyms and ranges. -/
inductive MonoTy where
  | var (var : TypeVar)
  | base (base : BaseTy)
  | func (param result : MonoTy)
  | list (elem : MonoTy)
  | ref (target : MonoTy)
  | product (items : List MonoTy)
  | variant (name : String) (args : List MonoTy)
  | record (fields : List (String × MonoTy))

/-- A monomorphic type for every variable. -/
abbrev Instantiation := TypeVar → MonoTy

namespace MonoTy

mutual

/-- The type with other types for its variables. -/
def subst (δ : Instantiation) : MonoTy → MonoTy
  | .var v => δ v
  | .base b => .base b
  | .func p q => .func (p.subst δ) (q.subst δ)
  | .list t => .list (t.subst δ)
  | .ref t => .ref (t.subst δ)
  | .product ts => .product (substList δ ts)
  | .variant n ts => .variant n (substList δ ts)
  | .record fs => .record (substFields δ fs)

/-- Some types with other types for their variables. -/
def substList (δ : Instantiation) : List MonoTy → List MonoTy
  | [] => []
  | t :: ts => t.subst δ :: substList δ ts

/-- The types of some fields with other types for their variables. -/
def substFields (δ : Instantiation) : List (String × MonoTy) → List (String × MonoTy)
  | [] => []
  | (n, t) :: fs => (n, t.subst δ) :: substFields δ fs

end

mutual

/-- The variables of a type. -/
def vars : MonoTy → List TypeVar
  | .var v => [v]
  | .base _ => []
  | .func p q => p.vars ++ q.vars
  | .list t => t.vars
  | .ref t => t.vars
  | .product ts => varsOfList ts
  | .variant _ ts => varsOfList ts
  | .record fs => varsOfFields fs

/-- The variables of some types. -/
def varsOfList : List MonoTy → List TypeVar
  | [] => []
  | t :: ts => t.vars ++ varsOfList ts

/-- The variables of the types of some fields. -/
def varsOfFields : List (String × MonoTy) → List TypeVar
  | [] => []
  | (_, t) :: fs => t.vars ++ varsOfFields fs

end

mutual

/-- What a type means under an assignment. -/
def ground (θ : Assignment) : MonoTy → GroundTy
  | .var v => θ v
  | .base b => .base b
  | .func p q => .func (p.ground θ) (q.ground θ)
  | .list t => .list (t.ground θ)
  | .ref t => .ref (t.ground θ)
  | .product ts => .product (groundList θ ts)
  | .variant n ts => .variant n (groundList θ ts)
  | .record fs => .record (groundFields θ fs)

/-- What some types mean. -/
def groundList (θ : Assignment) : List MonoTy → List GroundTy
  | [] => []
  | t :: ts => t.ground θ :: groundList θ ts

/-- What the types of some fields mean. -/
def groundFields (θ : Assignment) : List (String × MonoTy) → List (String × GroundTy)
  | [] => []
  | (n, t) :: fs => (n, t.ground θ) :: groundFields θ fs

end

/-- What holds of a type if it holds of its parts holds of all types. -/
@[induction_eliminator]
theorem induction {P : MonoTy → Prop} (var : ∀ v, P (.var v)) (base : ∀ b, P (.base b))
    (func : ∀ p q, P p → P q → P (.func p q)) (list : ∀ t, P t → P (.list t))
    (ref : ∀ t, P t → P (.ref t)) (product : ∀ ts, (∀ t ∈ ts, P t) → P (.product ts))
    (variant : ∀ n ts, (∀ t ∈ ts, P t) → P (.variant n ts))
    (record : ∀ fs, (∀ p ∈ fs, P p.2) → P (.record fs)) (τ : MonoTy) : P τ := by
  match τ with
  | .var v => exact var v
  | .base b => exact base b
  | .func p q =>
      exact func p q (induction var base func list ref product variant record p)
        (induction var base func list ref product variant record q)
  | .list t => exact list t (induction var base func list ref product variant record t)
  | .ref t => exact ref t (induction var base func list ref product variant record t)
  | .product ts =>
      exact product ts fun t _ => induction var base func list ref product variant record t
  | .variant n ts =>
      exact variant n ts fun t _ => induction var base func list ref product variant record t
  | .record fs =>
      refine record fs fun (n, t) hp => ?_
      have hlt : sizeOf t < 1 + sizeOf fs := by
        have := List.sizeOf_lt_of_mem hp
        simp only [Prod.mk.sizeOf_spec] at this
        omega
      exact induction var base func list ref product variant record t
termination_by sizeOf τ

variable {δ δ' : Instantiation} {θ : Assignment} {τ τ' : MonoTy} {v w : TypeVar}

section Cases

variable {b : BaseTy} {p q : MonoTy}

@[simp] theorem var_subst : (var v).subst δ = δ v := rfl

@[simp] theorem subst_base : (base b).subst δ = .base b := rfl

@[simp] theorem subst_func : (func p q).subst δ = .func (p.subst δ) (q.subst δ) := rfl

@[simp] theorem subst_list : (list τ).subst δ = .list (τ.subst δ) := rfl

@[simp] theorem subst_ref : (ref τ).subst δ = .ref (τ.subst δ) := rfl

@[simp] theorem ground_var : (var v).ground θ = θ v := rfl

@[simp] theorem ground_base : (base b).ground θ = .base b := rfl

@[simp] theorem ground_func : (func p q).ground θ = .func (p.ground θ) (q.ground θ) := rfl

@[simp] theorem ground_list : (list τ).ground θ = .list (τ.ground θ) := rfl

@[simp] theorem ground_ref : (ref τ).ground θ = .ref (τ.ground θ) := rfl

theorem substList_eq_map (ts : List MonoTy) : substList δ ts = ts.map (subst δ) := by
  induction ts with
  | nil => rfl
  | cons t ts ih => exact congrArg (t.subst δ :: ·) ih

theorem substFields_eq_map (fs : List (String × MonoTy)) :
    substFields δ fs = fs.map fun p => (p.1, p.2.subst δ) := by
  induction fs with
  | nil => rfl
  | cons p fs ih => exact congrArg ((p.1, p.2.subst δ) :: ·) ih

theorem groundList_eq_map (ts : List MonoTy) : groundList θ ts = ts.map (ground θ) := by
  induction ts with
  | nil => rfl
  | cons t ts ih => exact congrArg (t.ground θ :: ·) ih

theorem groundFields_eq_map (fs : List (String × MonoTy)) :
    groundFields θ fs = fs.map fun p => (p.1, p.2.ground θ) := by
  induction fs with
  | nil => rfl
  | cons p fs ih => exact congrArg ((p.1, p.2.ground θ) :: ·) ih

theorem mem_varsOfList {ts : List MonoTy} : v ∈ varsOfList ts ↔ ∃ t ∈ ts, v ∈ t.vars := by
  induction ts with
  | nil => simp [varsOfList]
  | cons t ts ih => simp [varsOfList, ih]

theorem mem_varsOfFields {fs : List (String × MonoTy)} :
    v ∈ varsOfFields fs ↔ ∃ p ∈ fs, v ∈ p.2.vars := by
  induction fs with
  | nil => simp [varsOfFields]
  | cons p fs ih => simp [varsOfFields, ih]

@[simp] theorem subst_product (ts : List MonoTy) :
    (product ts).subst δ = .product (ts.map (subst δ)) :=
  congrArg _ (substList_eq_map ts)

@[simp] theorem subst_variant (n : String) (ts : List MonoTy) :
    (variant n ts).subst δ = .variant n (ts.map (subst δ)) :=
  congrArg _ (substList_eq_map ts)

@[simp] theorem subst_record (fs : List (String × MonoTy)) :
    (record fs).subst δ = .record (fs.map fun p => (p.1, p.2.subst δ)) :=
  congrArg _ (substFields_eq_map fs)

@[simp] theorem ground_product (ts : List MonoTy) :
    (product ts).ground θ = .product (ts.map (ground θ)) :=
  congrArg _ (groundList_eq_map ts)

@[simp] theorem ground_variant (n : String) (ts : List MonoTy) :
    (variant n ts).ground θ = .variant n (ts.map (ground θ)) :=
  congrArg _ (groundList_eq_map ts)

@[simp] theorem ground_record (fs : List (String × MonoTy)) :
    (record fs).ground θ = .record (fs.map fun p => (p.1, p.2.ground θ)) :=
  congrArg _ (groundFields_eq_map fs)

end Cases

@[simp] theorem mem_vars_var : v ∈ (var w).vars ↔ v = w := List.mem_singleton

@[simp] theorem mem_vars_base {b : BaseTy} : v ∈ (base b).vars ↔ False :=
  List.mem_nil_iff v

@[simp] theorem mem_vars_func {p q : MonoTy} : v ∈ (func p q).vars ↔ v ∈ p.vars ∨ v ∈ q.vars :=
  List.mem_append

@[simp] theorem mem_vars_list : v ∈ (list τ).vars ↔ v ∈ τ.vars := Iff.rfl

@[simp] theorem mem_vars_ref : v ∈ (ref τ).vars ↔ v ∈ τ.vars := Iff.rfl

@[simp] theorem mem_vars_product {ts : List MonoTy} :
    v ∈ (product ts).vars ↔ ∃ t ∈ ts, v ∈ t.vars := mem_varsOfList

@[simp] theorem mem_vars_variant {n : String} {ts : List MonoTy} :
    v ∈ (variant n ts).vars ↔ ∃ t ∈ ts, v ∈ t.vars := mem_varsOfList

@[simp] theorem mem_vars_record {fs : List (String × MonoTy)} :
    v ∈ (record fs).vars ↔ ∃ p ∈ fs, v ∈ p.2.vars := mem_varsOfFields

/-- Two replacements of variables give one type exactly if they agree on the variables in it. -/
theorem subst_eq_subst_iff : τ.subst δ = τ.subst δ' ↔ ∀ v ∈ τ.vars, δ v = δ' v := by
  induction τ with
  | var v => simp
  | base b => simp
  | func p q ihp ihq => simp [ihp, ihq, or_imp, forall_and]
  | list t ih => simpa using ih
  | ref t ih => simpa using ih
  | product ts ih =>
      simp only [subst_product, product.injEq, List.map_inj_left, mem_vars_product]
      exact ⟨fun h v ⟨t, ht, hv⟩ => (ih t ht).1 (h t ht) v hv,
        fun h t ht => (ih t ht).2 fun v hv => h v ⟨t, ht, hv⟩⟩
  | variant n ts ih =>
      simp only [subst_variant, variant.injEq, true_and, List.map_inj_left, mem_vars_variant]
      exact ⟨fun h v ⟨t, ht, hv⟩ => (ih t ht).1 (h t ht) v hv,
        fun h t ht => (ih t ht).2 fun v hv => h v ⟨t, ht, hv⟩⟩
  | record fs ih =>
      simp only [subst_record, record.injEq, List.map_inj_left, Prod.mk.injEq, true_and,
        mem_vars_record]
      exact ⟨fun h v ⟨p, hp, hv⟩ => (ih p hp).1 (h p hp) v hv,
        fun h p hp => (ih p hp).2 fun v hv => h v ⟨p, hp, hv⟩⟩

theorem subst_var (τ : MonoTy) : τ.subst .var = τ := by
  induction τ with
  | var v => rfl
  | base b => rfl
  | func p q ihp ihq => simp [ihp, ihq]
  | list t ih => simp [ih]
  | ref t ih => simp [ih]
  | product ts ih => simp [List.map_congr_left ih]
  | variant n ts ih => simp [List.map_congr_left ih]
  | record fs ih =>
      have hfs : ∀ p ∈ fs, (p.1, p.2.subst .var) = p := fun p hp => by rw [ih p hp]
      simp [List.map_congr_left hfs]

/-- A type whose variables are left alone stays as it is. -/
theorem subst_eq_self (h : ∀ v ∈ τ.vars, δ v = .var v) : τ.subst δ = τ :=
  (subst_eq_subst_iff.2 h).trans τ.subst_var

theorem subst_subst (τ : MonoTy) : (τ.subst δ).subst δ' = τ.subst fun v => (δ v).subst δ' := by
  induction τ with
  | var v => rfl
  | base b => rfl
  | func p q ihp ihq => simp [ihp, ihq]
  | list t ih => simp [ih]
  | ref t ih => simp [ih]
  | product ts ih => simpa using ih
  | variant n ts ih => simpa using ih
  | record fs ih => simpa using fun n t hp => ih (n, t) hp

theorem mem_vars_subst : w ∈ (τ.subst δ).vars ↔ ∃ v ∈ τ.vars, w ∈ (δ v).vars := by
  induction τ with
  | var v => simp
  | base b => simp
  | func p q ihp ihq => simp [ihp, ihq, or_and_right, exists_or]
  | list t ih => simpa using ih
  | ref t ih => simpa using ih
  | product ts ih | variant n ts ih =>
      simp only [subst_product, subst_variant, mem_vars_product, mem_vars_variant, List.mem_map,
        exists_exists_and_eq_and]
      constructor
      · rintro ⟨t, ht, hw⟩
        obtain ⟨v, hv, hw⟩ := (ih t ht).1 hw
        exact ⟨v, ⟨t, ht, hv⟩, hw⟩
      · rintro ⟨v, ⟨t, ht, hv⟩, hw⟩
        exact ⟨t, ht, (ih t ht).2 ⟨v, hv, hw⟩⟩
  | record fs ih =>
      simp only [subst_record, mem_vars_record, List.mem_map, exists_exists_and_eq_and]
      constructor
      · rintro ⟨p, hp, hw⟩
        obtain ⟨v, hv, hw⟩ := (ih p hp).1 hw
        exact ⟨v, ⟨p, hp, hv⟩, hw⟩
      · rintro ⟨v, ⟨p, hp, hv⟩, hw⟩
        exact ⟨p, hp, (ih p hp).2 ⟨v, hv, hw⟩⟩

theorem eq_var_of_ground (h : ∀ θ, τ.ground θ = θ v) : τ = .var v := by
  -- No other type is a list and a reference at once.
  have hlist := h fun _ => .list (.base .unit)
  have href := h fun _ => .ref (.base .unit)
  cases τ with
  | var w =>
      by_contra hne
      have hwv : w ≠ v := fun he => hne (he ▸ rfl)
      have hvw := h fun u => if u = v then .base .unit else .base .bool
      simp [hwv] at hvw
  | list t => simp at href
  | _ => simp at hlist

theorem eq_of_map_ground {ts us : List MonoTy}
    (ih : ∀ t ∈ ts, ∀ {u : MonoTy}, (∀ θ, t.ground θ = u.ground θ) → t = u)
    (h : ∀ θ, ts.map (ground θ) = us.map (ground θ)) : ts = us := by
  refine List.ext_getElem (by simpa using congrArg List.length (h fun _ => .base .unit))
    fun i hi hi' => ih _ (List.getElem_mem hi) fun θ => ?_
  have hget := congrArg (·[i]?) (h θ)
  simpa [hi, hi'] using hget

/-- Types that mean the same under every assignment are the same. -/
theorem eq_of_ground (h : ∀ θ, τ.ground θ = τ'.ground θ) : τ = τ' := by
  have hunit := h fun _ => .base .unit
  induction τ generalizing τ' with
  | var v => exact (eq_var_of_ground fun θ => (h θ).symm).symm
  | base b =>
      cases τ' with
      | var w => exact eq_var_of_ground h
      | base c => simpa using hunit
      | _ => simp at hunit
  | func p q ihp ihq =>
      cases τ' with
      | var w => exact eq_var_of_ground h
      | func p' q' =>
          simp only [ground_func, GroundTy.func.injEq, forall_and] at h
          rw [ihp h.1 (h.1 _), ihq h.2 (h.2 _)]
      | _ => simp at hunit
  | list t ih =>
      cases τ' with
      | var w => exact eq_var_of_ground h
      | list u =>
          simp only [ground_list, GroundTy.list.injEq] at h
          rw [ih h (h _)]
      | _ => simp at hunit
  | ref t ih =>
      cases τ' with
      | var w => exact eq_var_of_ground h
      | ref u =>
          simp only [ground_ref, GroundTy.ref.injEq] at h
          rw [ih h (h _)]
      | _ => simp at hunit
  | product ts ih =>
      cases τ' with
      | var w => exact eq_var_of_ground h
      | product us =>
          simp only [ground_product, GroundTy.product.injEq] at h
          rw [eq_of_map_ground (fun t ht _ ht' => ih t ht ht' (ht' _)) h]
      | _ => simp at hunit
  | variant n ts ih =>
      cases τ' with
      | var w => exact eq_var_of_ground h
      | variant m us =>
          simp only [ground_variant, GroundTy.variant.injEq, forall_and] at h
          have hts := eq_of_map_ground (fun t ht _ ht' => ih t ht ht' (ht' _)) h.2
          rw [h.1 fun _ => .base .unit, hts]
      | _ => simp at hunit
  | record fs ih =>
      cases τ' with
      | var w => exact eq_var_of_ground h
      | record gs =>
          simp only [ground_record, GroundTy.record.injEq] at h
          have hnames : fs.map Prod.fst = gs.map Prod.fst := by
            simpa [Function.comp_def] using congrArg (List.map Prod.fst) (h fun _ => .base .unit)
          have htypes : fs.map Prod.snd = gs.map Prod.snd := by
            refine eq_of_map_ground (fun t ht _ ht' => ?_) fun θ => ?_
            · obtain ⟨p, hp, rfl⟩ := List.mem_map.1 ht
              exact ih p hp ht' (ht' _)
            · simpa [Function.comp_def] using congrArg (List.map Prod.snd) (h θ)
          rw [← List.zip_unzip fs, ← List.zip_unzip gs, List.unzip_eq_map, List.unzip_eq_map,
            hnames, htypes]
      | _ => simp at hunit

end MonoTy

end FieldML
