import FieldML.Proofs.Binders

/-!
# Replacing one variable

A type is put in place of a variable without renaming any binder, so nothing may be captured. As
long as no quantifier of a type binds a variable of the type that is put into it, replacing two
variables one after the other gives the same in either order, and the free variables are those to be
expected.
-/

namespace FieldML

/-- A type whose quantifiers bind variables of `B`, in which the body of a synonym mentions no more
variables than its arguments. -/
inductive Ty.Sealed (B : TypeVar → Prop) : Ty → Prop
  | base (b : BaseTy) (r : Range) : Sealed B (.base b r)
  | var (v : TypeVar) (r : Range) : Sealed B (.var v r)
  | func {p q : Ty} (r : Range) (hp : Sealed B p) (hq : Sealed B q) : Sealed B (.func p q r)
  | list {t : Ty} (r : Range) (ht : Sealed B t) : Sealed B (.list t r)
  | ref {t : Ty} (r : Range) (ht : Sealed B t) : Sealed B (.ref t r)
  | product {ts : List Ty} (r : Range) (hts : ∀ t ∈ ts, Sealed B t) : Sealed B (.product ts r)
  | variant {ts : List Ty} (n : String) (r : Range) (hts : ∀ t ∈ ts, Sealed B t) :
      Sealed B (.variant n ts r)
  | synonym {ts : List Ty} {t : Ty} (n : String) (r : Range) (hts : ∀ t ∈ ts, Sealed B t)
      (ht : Sealed B t) (hvars : ∀ v ∈ t.freeVars, v ∈ Ty.freeVarsOfList [] ts) :
      Sealed B (.synonym n ts t r)
  | all {v : TypeVar} {k : Kind} {t : Ty} (r : Range) (hv : B v)
      (hk : ∀ p ∈ k.fields, Sealed B p.2) (ht : Sealed B t) : Sealed B (.all v k t r)
  | record {fs : List (String × Ty)} (r : Range) (hfs : ∀ p ∈ fs, Sealed B p.2) :
      Sealed B (.record fs r)

/-- A kind whose fields have such types. -/
def Kind.Sealed (B : TypeVar → Prop) (k : Kind) : Prop := ∀ p ∈ k.fields, p.2.Sealed B

theorem Kind.mem_freeVarsUnder {k : Kind} {bound : List TypeVar} {w : TypeVar} :
    w ∈ k.freeVarsUnder bound ↔ ∃ p ∈ k.fields, w ∈ p.2.freeVarsUnder bound := by
  cases k with
  | universal => simp [freeVarsUnder, fields]
  | record fs => exact Ty.mem_freeVarsOfFields

theorem Kind.mapVars_eq_mapVars {f g : Replacement} {k : Kind} {Δ Δ' : List TypeVar}
    (h : ∀ p ∈ k.fields, p.2.mapVars f Δ = p.2.mapVars g Δ') : k.mapVars f Δ = k.mapVars g Δ' := by
  cases k with
  | universal => rfl
  | record fs =>
      simp only [mapVars_record, record.injEq]
      exact List.map_congr_left fun p hp => by rw [h p hp]

theorem Kind.mapVars_eq_self {f : Replacement} {k : Kind} {Δ : List TypeVar}
    (h : ∀ p ∈ k.fields, p.2.mapVars f Δ = p.2) : k.mapVars f Δ = k := by
  cases k with
  | universal => rfl
  | record fs =>
      simp only [mapVars_record, record.injEq]
      exact (List.map_congr_left fun p hp => by rw [h p hp]; rfl).trans (List.map_id _)

namespace Ty

variable {B : TypeVar → Prop} {f g : Replacement} {Δ Δ' : List TypeVar} {r s t : Ty}
  {ts : List Ty} {fs : List (String × Ty)} {k : Kind} {v w x y : TypeVar} {ρ : Range}

theorem mem_freeVarsUnder_func : w ∈ (func s t ρ).freeVarsUnder Δ ↔
    w ∈ s.freeVarsUnder Δ ∨ w ∈ t.freeVarsUnder Δ :=
  List.mem_append

theorem mem_freeVarsUnder_all : w ∈ (all v k t ρ).freeVarsUnder Δ ↔
    (∃ p ∈ k.fields, w ∈ p.2.freeVarsUnder (v :: Δ)) ∨ w ∈ t.freeVarsUnder (v :: Δ) :=
  List.mem_append.trans (or_congr_left Kind.mem_freeVarsUnder)

theorem mapVars_all : (all v k t ρ).mapVars f Δ =
    .all v (k.mapVars f (v :: Δ)) (t.mapVars f (v :: Δ)) ρ := by
  rw [mapVars]

theorem exists_mem_iff_and {α : Type} {l : List α} {P Q : α → Prop} {c : Prop}
    (h : ∀ a ∈ l, P a ↔ Q a ∧ c) : (∃ a ∈ l, P a) ↔ (∃ a ∈ l, Q a) ∧ c := by
  constructor
  · rintro ⟨a, ha, hP⟩
    exact ⟨⟨a, ha, ((h a ha).1 hP).1⟩, ((h a ha).1 hP).2⟩
  · rintro ⟨⟨a, ha, hQ⟩, hc⟩
    exact ⟨a, ha, (h a ha).2 ⟨hQ, hc⟩⟩

theorem exists_mem_iff_or {α : Type} {l : List α} {P Q R : α → Prop} {c d : Prop}
    (h : ∀ a ∈ l, P a ↔ Q a ∧ c ∨ R a ∧ d) :
    (∃ a ∈ l, P a) ↔ (∃ a ∈ l, Q a) ∧ c ∨ (∃ a ∈ l, R a) ∧ d := by
  constructor
  · rintro ⟨a, ha, hP⟩
    exact ((h a ha).1 hP).imp (fun hQ => ⟨⟨a, ha, hQ.1⟩, hQ.2⟩) fun hR => ⟨⟨a, ha, hR.1⟩, hR.2⟩
  · rintro (⟨⟨a, ha, hQ⟩, hc⟩ | ⟨⟨a, ha, hR⟩, hd⟩)
    · exact ⟨a, ha, (h a ha).2 (Or.inl ⟨hQ, hc⟩)⟩
    · exact ⟨a, ha, (h a ha).2 (Or.inr ⟨hR, hd⟩)⟩

namespace Sealed

/-- Binders only take variables away. -/
theorem mem_freeVarsUnder_iff (ht : t.Sealed B) :
    w ∈ t.freeVarsUnder Δ ↔ w ∈ t.freeVars ∧ w ∉ Δ := by
  unfold freeVars
  induction ht generalizing Δ with
  | base b r => simp [freeVarsUnder]
  | var v r =>
      rw [mem_freeVarsUnder_var, mem_freeVarsUnder_var]
      simp
  | func r hp hq ihp ihq =>
      rw [mem_freeVarsUnder_func, mem_freeVarsUnder_func, ihp, ihq, or_and_right]
  | list r ht ih => exact ih
  | ref r ht ih => exact ih
  | product r hts ih =>
      simp only [freeVarsUnder, mem_freeVarsOfList]
      exact exists_mem_iff_and fun t ht => ih t ht
  | variant n r hts ih =>
      simp only [freeVarsUnder, mem_freeVarsOfList]
      exact exists_mem_iff_and fun t ht => ih t ht
  | synonym n r hts ht hvars ihts iht =>
      simp only [freeVarsUnder, mem_freeVarsOfList]
      exact exists_mem_iff_and fun t ht => ihts t ht
  | @all v k t r hv hk ht ihk iht =>
      have hmem : ∀ t : Ty, (∀ {Δ}, w ∈ t.freeVarsUnder Δ ↔ w ∈ t.freeVarsUnder [] ∧ w ∉ Δ) →
          (w ∈ t.freeVarsUnder (v :: Δ) ↔ w ∈ t.freeVarsUnder [v] ∧ w ∉ Δ) := by
        intro t ht
        rw [ht (Δ := v :: Δ), ht (Δ := [v])]
        simp [and_assoc]
      rw [mem_freeVarsUnder_all, mem_freeVarsUnder_all, hmem t iht, or_and_right]
      exact or_congr_left (exists_mem_iff_and fun p hp => hmem p.2 (ihk p hp))
  | record r hfs ih =>
      simp only [freeVarsUnder, mem_freeVarsOfFields]
      exact exists_mem_iff_and fun p hp => ih p hp

/-- Replacements that agree on the free variables and on those that are bound on the way, under any
binders that are met, put in the same. -/
theorem mapVars_congr (ht : t.Sealed B) (hfg : ∀ Θ, (∀ v ∈ Θ, B v) → ∀ v, v ∈ t.freeVars ∨ v ∈ Θ →
      ∀ r, f (Θ ++ Δ) v r = g (Θ ++ Δ') v r) : t.mapVars f Δ = t.mapVars g Δ' := by
  induction ht generalizing Δ Δ' with
  | base b r => rfl
  | var v r => exact hfg [] (by simp) v (Or.inl (by simp)) r
  | func r hp hq ihp ihq =>
      simp only [mapVars]
      rw [ihp fun Θ hΘ v hv => hfg Θ hΘ v (hv.imp_left fun hv => mem_freeVars_func.2 (.inl hv)),
        ihq fun Θ hΘ v hv => hfg Θ hΘ v (hv.imp_left fun hv => mem_freeVars_func.2 (.inr hv))]
  | list r ht ih => simp only [mapVars, ih hfg]
  | ref r ht ih => simp only [mapVars, ih hfg]
  | product r hts ih =>
      simp only [mapVars_product, product.injEq, and_true]
      exact List.map_congr_left fun t ht => ih t ht fun Θ hΘ v hv =>
        hfg Θ hΘ v (hv.imp_left fun hv => mem_freeVars_product.2 ⟨t, ht, hv⟩)
  | variant n r hts ih =>
      simp only [mapVars_variant, variant.injEq, true_and, and_true]
      exact List.map_congr_left fun t ht => ih t ht fun Θ hΘ v hv =>
        hfg Θ hΘ v (hv.imp_left fun hv => mem_freeVars_variant.2 ⟨t, ht, hv⟩)
  | synonym n r hts ht hvars ihts iht =>
      simp only [mapVars_synonym, synonym.injEq, true_and, and_true]
      refine ⟨List.map_congr_left fun t ht => ihts t ht fun Θ hΘ v hv =>
        hfg Θ hΘ v (hv.imp_left fun hv => mem_freeVars_synonym.2 ⟨t, ht, hv⟩), ?_⟩
      exact iht fun Θ hΘ v hv => hfg Θ hΘ v (hv.imp_left (hvars v))
  | @all w k t r hw hk ht ihk iht =>
      -- Below the quantifier its variable is one that is bound on the way.
      have hbelow : ∀ u : Ty, u.Sealed B →
          (∀ v ∈ u.freeVarsUnder [w], v ∈ (Ty.all w k t r).freeVars) →
          ∀ Θ, (∀ v ∈ Θ, B v) → ∀ v, v ∈ u.freeVars ∨ v ∈ Θ → ∀ r,
            f (Θ ++ w :: Δ) v r = g (Θ ++ w :: Δ') v r := by
        intro u hu hsub Θ hΘ v hv r
        have hΘw : ∀ v ∈ Θ ++ [w], B v := List.forall_mem_append.2 ⟨hΘ, by simpa using hw⟩
        have hin : v ∈ (Ty.all w k t r).freeVars ∨ v ∈ Θ ++ [w] := by
          by_cases hvw : v = w
          · exact Or.inr (by simp [hvw])
          · refine hv.imp (fun hv => hsub v ?_) (List.mem_append_left _)
            exact hu.mem_freeVarsUnder_iff.2 ⟨hv, by simpa using hvw⟩
        simpa using hfg (Θ ++ [w]) hΘw v hin r
      rw [mapVars_all, mapVars_all, iht (hbelow t ht fun v hv => mem_freeVarsUnder_all.2 (.inr hv)),
        Kind.mapVars_eq_mapVars fun p hp => ihk p hp (hbelow p.2 (hk p hp)
          fun v hv => mem_freeVarsUnder_all.2 (.inl ⟨p, hp, hv⟩))]
  | record r hfs ih =>
      simp only [mapVars_record, record.injEq, and_true]
      refine List.map_congr_left fun p hp => ?_
      rw [ih p hp fun Θ hΘ v hv =>
        hfg Θ hΘ v (hv.imp_left fun hv => mem_freeVars_record.2 ⟨p, hp, hv⟩)]

/-- What replaces every variable by itself changes nothing. -/
theorem mapVars_var (ht : t.Sealed B) : t.mapVars (fun _ v r => .var v r) Δ = t := by
  induction ht generalizing Δ with
  | base b r => rfl
  | var v r => rfl
  | func r hp hq ihp ihq => rw [mapVars, ihp, ihq]
  | list r ht ih => rw [mapVars, ih]
  | ref r ht ih => rw [mapVars, ih]
  | product r hts ih =>
      rw [mapVars_product, (List.map_congr_left fun t ht => ih t ht).trans (List.map_id _)]
  | variant n r hts ih =>
      rw [mapVars_variant, (List.map_congr_left fun t ht => ih t ht).trans (List.map_id _)]
  | synonym n r hts ht hvars ihts iht =>
      rw [mapVars_synonym, (List.map_congr_left fun t ht => ihts t ht).trans (List.map_id _), iht]
  | all r hv hk ht ihk iht => rw [mapVars_all, Kind.mapVars_eq_self fun p hp => ihk p hp, iht]
  | record r hfs ih =>
      rw [mapVars_record,
        (List.map_congr_left fun p hp => by rw [ih p hp]; rfl).trans (List.map_id _)]

/-- A variable that is not free, or that is bound outside, gives way to nothing. -/
theorem mapVars_single_eq_self (ht : t.Sealed B) (hx : x ∈ t.freeVars → x ∈ Δ) :
    t.mapVars (.single x s) Δ = t := by
  have hsame : t.mapVars (.single x s) Δ = t.mapVars (fun _ v r => .var v r) Δ := by
    refine ht.mapVars_congr fun Θ _ v hv r => if_neg ?_
    rintro ⟨rfl, hnot⟩
    exact hnot (hv.elim (fun hfree => List.mem_append_right _ (hx hfree)) (List.mem_append_left _))
  rw [hsame, ht.mapVars_var]

/-- What is put in place of a variable is not changed by binders that do not bind it. -/
theorem mapVars_single_under (ht : t.Sealed B) (hx : x ∉ Δ) :
    t.mapVars (.single x s) Δ = t.substitute x s :=
  ht.mapVars_congr fun Θ _ v _ r => by
    by_cases hv : v = x
    · simp [Replacement.single, hv, hx]
    · simp [Replacement.single, hv]

/-- In one place, below binders that bind no variable of `r`. -/
theorem single_single {Θ : List TypeVar} (hr : r.Sealed B) (hs : s.Sealed B) (hxy : x ≠ y)
    (hx : x ∉ s.freeVars) (hΘ : ∀ v ∈ Θ, v ∉ r.freeVars) :
    (Replacement.single x r Θ v ρ).mapVars (.single y s) Θ =
      (Replacement.single y s Θ v ρ).mapVars (.single x (r.substitute y s)) Θ := by
  by_cases hvx : v = x ∧ x ∉ Θ
  · obtain ⟨rfl, hv⟩ := hvx
    have hother : Replacement.single y s Θ v ρ = .var v ρ := if_neg fun h => hxy h.1
    have hself : Replacement.single v (r.substitute y s) Θ v ρ = r.substitute y s :=
      if_pos ⟨rfl, hv⟩
    rw [hother, mapVars, hself, Replacement.single, if_pos ⟨rfl, hv⟩]
    by_cases hy : y ∈ Θ
    · have hnot : y ∉ r.freeVars := hΘ y hy
      rw [hr.mapVars_single_eq_self fun h => absurd h hnot, substitute,
        hr.mapVars_single_eq_self fun h => absurd h hnot]
    · exact hr.mapVars_single_under hy
  · have hleft : Replacement.single x r Θ v ρ = .var v ρ := if_neg hvx
    rw [hleft, mapVars]
    by_cases hvy : v = y ∧ y ∉ Θ
    · rw [Replacement.single, if_pos hvy]
      exact (hs.mapVars_single_eq_self fun h => absurd h hx).symm
    · have hright : Replacement.single y s Θ v ρ = .var v ρ := if_neg hvy
      rw [hright, mapVars, Replacement.single, if_neg hvx]

/-- Two variables may be replaced in either order. -/
theorem substitute_substitute (ht : t.Sealed (· ∉ r.freeVars)) (hr : r.Sealed B) (hs : s.Sealed B)
    (hxy : x ≠ y) (hx : x ∉ s.freeVars) :
    (t.substitute x r).substitute y s = (t.substitute y s).substitute x (r.substitute y s) := by
  unfold substitute
  rw [mapVars_comp, mapVars_comp]
  exact ht.mapVars_congr fun Θ hΘ v _ ρ =>
    single_single hr hs hxy hx (by simpa only [List.append_nil] using hΘ)

theorem mem_freeVars_single (hr : r.Sealed B) (hΔ : ∀ v ∈ Δ, v ∉ r.freeVars) :
    w ∈ (Replacement.single x r Δ v ρ).freeVarsUnder Δ ↔
      (v = w ∧ w ∉ Δ) ∧ w ≠ x ∨ (v = x ∧ x ∉ Δ) ∧ w ∈ r.freeVars := by
  by_cases hv : v = x ∧ x ∉ Δ
  · rw [Replacement.single, if_pos hv, hr.mem_freeVarsUnder_iff]
    constructor
    · exact fun h => Or.inr ⟨hv, h.1⟩
    · rintro (⟨⟨rfl, -⟩, hne⟩ | ⟨-, hw⟩)
      · exact absurd hv.1 hne
      · exact ⟨hw, fun hmem => hΔ w hmem hw⟩
  · rw [Replacement.single, if_neg hv, mem_freeVarsUnder_var]
    constructor
    · rintro ⟨rfl, hw⟩
      exact Or.inl ⟨⟨rfl, hw⟩, fun heq => hv ⟨heq, heq ▸ hw⟩⟩
    · exact fun h => (h.resolve_right fun h => hv h.1).1

/-- The free variables of a type in which a variable has been replaced. -/
theorem mem_freeVarsUnder_mapVars (ht : t.Sealed (· ∉ r.freeVars)) (hr : r.Sealed B)
    (hΔ : ∀ v ∈ Δ, v ∉ r.freeVars) :
    w ∈ (t.mapVars (.single x r) Δ).freeVarsUnder Δ ↔
      w ∈ t.freeVarsUnder Δ ∧ w ≠ x ∨ x ∈ t.freeVarsUnder Δ ∧ w ∈ r.freeVars := by
  induction ht generalizing Δ with
  | base b ρ => simp [mapVars, freeVarsUnder]
  | var v ρ =>
      rw [mapVars, mem_freeVarsUnder_var, mem_freeVarsUnder_var]
      exact hr.mem_freeVars_single hΔ
  | func ρ hp hq ihp ihq =>
      rw [mapVars, mem_freeVarsUnder_func, mem_freeVarsUnder_func, mem_freeVarsUnder_func, ihp hΔ,
        ihq hΔ, or_and_right, or_and_right]
      exact or_or_or_comm
  | list ρ ht ih => exact ih hΔ
  | ref ρ ht ih => exact ih hΔ
  | product ρ hts ih =>
      simp only [mapVars_product, freeVarsUnder, mem_freeVarsOfList, List.mem_map,
        exists_exists_and_eq_and]
      exact exists_mem_iff_or fun t ht => ih t ht hΔ
  | variant n ρ hts ih =>
      simp only [mapVars_variant, freeVarsUnder, mem_freeVarsOfList, List.mem_map,
        exists_exists_and_eq_and]
      exact exists_mem_iff_or fun t ht => ih t ht hΔ
  | synonym n ρ hts ht hvars ihts iht =>
      simp only [mapVars_synonym, freeVarsUnder, mem_freeVarsOfList, List.mem_map,
        exists_exists_and_eq_and]
      exact exists_mem_iff_or fun t ht => ihts t ht hΔ
  | all ρ hv hk ht ihk iht =>
      have hΔ' : ∀ u ∈ _ :: Δ, u ∉ r.freeVars := List.forall_mem_cons.2 ⟨hv, hΔ⟩
      simp only [mapVars_all, mem_freeVarsUnder_all, Kind.fields_mapVars, List.mem_map,
        exists_exists_and_eq_and, iht hΔ', or_and_right]
      rw [exists_mem_iff_or fun p hp => ihk p hp hΔ']
      exact or_or_or_comm
  | record ρ hfs ih =>
      simp only [mapVars_record, freeVarsUnder, mem_freeVarsOfFields, List.mem_map,
        exists_exists_and_eq_and]
      exact exists_mem_iff_or fun p hp => ih p hp hΔ

theorem mem_freeVars_substitute (ht : t.Sealed (· ∉ r.freeVars)) (hr : r.Sealed B) :
    w ∈ (t.substitute x r).freeVars ↔
      w ∈ t.freeVars ∧ w ≠ x ∨ x ∈ t.freeVars ∧ w ∈ r.freeVars :=
  ht.mem_freeVarsUnder_mapVars hr (List.forall_mem_nil _)

end Sealed

end Ty

namespace Kind.Sealed

variable {B : TypeVar → Prop} {r s : Ty} {k : Kind} {w x y : TypeVar}

theorem substitute_substitute (hk : k.Sealed (· ∉ r.freeVars)) (hr : r.Sealed B) (hs : s.Sealed B)
    (hxy : x ≠ y) (hx : x ∉ s.freeVars) :
    (k.substitute x r).substitute y s = (k.substitute y s).substitute x (r.substitute y s) := by
  cases k with
  | universal => rfl
  | record fs =>
      simp only [substitute, mapVars_record, List.map_map, record.injEq]
      exact List.map_congr_left fun p hp =>
        congrArg (p.1, ·) ((hk p hp).substitute_substitute hr hs hxy hx)

theorem mem_freeVars_substitute (hk : k.Sealed (· ∉ r.freeVars)) (hr : r.Sealed B) :
    w ∈ (k.substitute x r).freeVars ↔
      w ∈ k.freeVars ∧ w ≠ x ∨ x ∈ k.freeVars ∧ w ∈ r.freeVars := by
  simp only [mem_freeVars, substitute, fields_mapVars, List.mem_map, exists_exists_and_eq_and]
  exact Ty.exists_mem_iff_or fun p hp => (hk p hp).mem_freeVars_substitute hr

end Kind.Sealed

/-- Where no quantifier of a type binds a free variable of `r`, replacing `x` by `r` and then `y` by
`s` is replacing `y` by `s` and then `x` by what becomes of `r`, if `x` is not free in `s`. And what
is free after a variable was replaced are the other variables of the type, and those of `r` if there
was something to replace. All this holds of kinds as well. What `r` and `s` bind themselves does not
matter, nor does it matter which variables of `s` the type binds. -/
theorem substitution_lemma {x y : TypeVar} {r s : Ty} (hxy : x ≠ y) (hr : r.Sealed fun _ => True)
    (hs : s.Sealed fun _ => True) (hx : x ∉ s.freeVars) :
    (∀ t : Ty, t.Sealed (· ∉ r.freeVars) →
      (t.substitute x r).substitute y s = (t.substitute y s).substitute x (r.substitute y s) ∧
      ∀ v, v ∈ (t.substitute x r).freeVars ↔
        v ∈ t.freeVars ∧ v ≠ x ∨ x ∈ t.freeVars ∧ v ∈ r.freeVars) ∧
    ∀ k : Kind, k.Sealed (· ∉ r.freeVars) →
      (k.substitute x r).substitute y s = (k.substitute y s).substitute x (r.substitute y s) ∧
      ∀ v, v ∈ (k.substitute x r).freeVars ↔
        v ∈ k.freeVars ∧ v ≠ x ∨ x ∈ k.freeVars ∧ v ∈ r.freeVars :=
  ⟨fun _ ht => ⟨ht.substitute_substitute hr hs hxy hx, fun _ => ht.mem_freeVars_substitute hr⟩,
    fun _ hk => ⟨hk.substitute_substitute hr hs hxy hx, fun _ => hk.mem_freeVars_substitute hr⟩⟩

/-- Here the type quantifies a variable in whose kind the replaced one stands, and below the
quantifier it stands in a synonym. -/
theorem substitution_lemma_quantified :
    let r : Ty := .list (.var 1 .erased) .erased
    let s : Ty := .base .int .erased
    let t : Ty := .all 5 (.record [("key", .var 0 .erased)])
      (.func (.var 5 .erased)
        (.synonym "row" [.var 0 .erased] (.ref (.var 0 .erased) .erased) .erased) .erased) .erased
    (t.substitute 0 r).substitute 1 s = (t.substitute 1 s).substitute 0 (r.substitute 1 s) ∧
      ∀ v, v ∈ (t.substitute 0 r).freeVars ↔
        v ∈ t.freeVars ∧ v ≠ 0 ∨ 0 ∈ t.freeVars ∧ v ∈ r.freeVars := by
  intro r s t
  have hr : r.Sealed fun _ => True := .list _ (.var _ _)
  have ht : t.Sealed (· ∉ r.freeVars) := by
    refine .all _ (by decide) (List.forall_mem_singleton.2 (.var _ _)) (.func _ (.var _ _) ?_)
    exact .synonym _ _ (List.forall_mem_singleton.2 (.var _ _)) (.ref _ (.var _ _))
      fun v hv => hv
  exact (substitution_lemma (by decide) hr (.base _ _) (by decide)).1 t ht

end FieldML
