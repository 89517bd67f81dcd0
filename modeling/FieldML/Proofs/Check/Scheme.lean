import FieldML.Proofs.Check.Basic

/-!
# Opening quantified types

Replacing a variable by a type leaves the other variables alone. So a quantified type that is opened
with new variables has only new variables and its own ones.
-/

namespace FieldML

variable {n : TypeVar} {t u : Ty} {k : Kind} {v w : TypeVar} {bound : List TypeVar}

namespace Ty

theorem Simple.mapVars_single {syn : Prop} (ht : t.Simple syn) (hu : u.Simple syn) :
    (t.mapVars (.single v u) bound).Simple syn := by
  refine ht.mapVars (fun w _ r => ?_) fun w r r' x hx => ?_
  · unfold Replacement.single
    split
    · exact hu
    · exact .var w r
  · unfold Replacement.single at hx ⊢
    split at hx
    · next h => rwa [if_pos h]
    · next h => rwa [if_neg h]

/-- The variables of a type in which one variable gave way to another type. -/
theorem Simple.mem_freeVars_mapVars_single {syn : Prop} (ht : t.Simple syn)
    (hw : w ∈ (t.mapVars (.single v u) bound).freeVars) :
    w ∈ u.freeVars ∨ w ∈ t.freeVars ∧ (w = v → v ∈ bound) := by
  obtain ⟨x, hx, r, hw⟩ := ht.exists_of_mem_freeVars_mapVars hw
  unfold Replacement.single at hw
  split at hw
  · exact Or.inl hw
  · next h =>
      obtain rfl := mem_freeVars_var.1 hw
      exact Or.inr ⟨hx, fun hwv => by tauto⟩

theorem Known.mapVars_single (ht : t.Known n) (hu : u.Known n) :
    (t.mapVars (.single v u) bound).Known n where
  simple := ht.simple.mapVars_single hu.simple
  below w hw := by
    rcases ht.simple.mem_freeVars_mapVars_single hw with hw | ⟨hw, -⟩
    · exact hu.below w hw
    · exact ht.below w hw

end Ty

theorem Kind.Known.mapVars_single (hk : k.Known n) (hu : u.Known n) :
    (k.mapVars (.single v u) bound).Known n := by
  have hfield : ∀ p ∈ (k.mapVars (.single v u) bound).fields, p.2.Known n := by
    intro p hp
    rw [fields_mapVars, List.mem_map] at hp
    obtain ⟨q, hq, rfl⟩ := hp
    exact Ty.Known.mapVars_single ⟨hk.simple.2 q hq, hk.below q hq⟩ hu
  refine ⟨⟨?_, fun p hp => (hfield p hp).simple⟩, fun p hp => (hfield p hp).below⟩
  rw [fields_mapVars]
  exact (Fields.sorted_congr (Fields.names_map _ _)).2 hk.simple.1

theorem Ty.Scheme.mapVars_single (ht : t.Scheme n) (hu : u.Known n) :
    (t.mapVars (.single v u) bound).Scheme n := by
  induction ht generalizing bound with
  | plain ht => exact .plain (ht.mapVars_single hu)
  | all r hv hk ht ih => exact .all r hv (hk.mapVars_single hu) ih

namespace Check

variable {o : CheckOptions} {s : CheckState}

theorem quantifiers_eq_zero {syn : Prop} (ht : t.Simple syn) : quantifiers t = 0 := by
  cases ht <;> rfl

theorem quantifiers_mapVars (ht : t.Scheme n) (hu : u.Known n) :
    quantifiers (t.mapVars (.single v u) bound) = quantifiers t := by
  induction ht generalizing bound with
  | plain ht => rw [quantifiers_eq_zero ht.simple, quantifiers_eq_zero (ht.mapVars_single hu).simple]
  | all r hv hk ht ih => exact congrArg (· + 1) ih

theorem keeps_openQuantifiers (range : Range) (i : Nat) (hi : quantifiers t = i) (hs : s.Wf)
    (ht : t.Scheme s.next) :
    Keeps (openQuantifiers range i t) o s fun t' s' => t'.Known s'.next := by
  induction i generalizing t s with
  | zero =>
      cases ht with
      | plain ht => exact .pure hs ht
      | all r hv hk ht => simp [quantifiers] at hi
  | succ i ih =>
      cases ht with
      | plain ht => simp [quantifiers_eq_zero ht.simple] at hi
      | @all v k t r hv hk ht =>
          refine (keeps_freshKinded hs hk range).bind fun var s₁ hlead hs₁ hvar => ?_
          obtain ⟨rfl, rfl⟩ := hvar
          have ht₁ := ht.mono hlead.next
          have hvar : (Ty.var s.next range).Known (s.give k).next :=
            .var (by rw [CheckState.next_give]; exact Nat.lt_succ_self _) range
          exact ih ((quantifiers_mapVars ht₁ hvar).trans (by simpa [quantifiers] using hi)) hs₁
            (ht₁.mapVars_single hvar)

theorem keeps_instantiate (hs : s.Wf) (ht : t.Scheme s.next) (range : Range) :
    Keeps (instantiate t range) o s fun t' s' => t'.Known s'.next :=
  (keeps_openQuantifiers range _ rfl hs ht).bind fun _ _ _ hs₁ ht₁ =>
    .pure hs₁ (ht₁.withRange range)

end Check

/-- What is known stays known when its variables are followed. -/
theorem CheckState.Wf.apply {s : CheckState} (hs : s.Wf) (ht : t.Known s.next) :
    (s.solver.subst.apply t).Known s.next :=
  ⟨hs.simple.subst.apply ht.simple, hs.closed.apply hs.simple.subst ht.simple ht.below⟩

theorem CheckState.Wf.applyKind {s : CheckState} (hs : s.Wf) (hv : v < s.next) :
    (s.solver.subst.applyKind (s.solver.kindOf v)).Known s.next := by
  have hfield : ∀ p ∈ (s.solver.subst.applyKind (s.solver.kindOf v)).fields, p.2.Known s.next := by
    intro p hp
    rw [Substitution.applyKind, Kind.fields_mapVars, List.mem_map] at hp
    obtain ⟨q, hq, rfl⟩ := hp
    exact hs.apply ⟨(hs.simple.kind v).2 q hq, hs.closed.kind v hv q hq⟩
  refine ⟨⟨?_, fun p hp => (hfield p hp).simple⟩, fun p hp => (hfield p hp).below⟩
  rw [Substitution.applyKind, Kind.fields_mapVars]
  exact (Fields.sorted_congr (Fields.names_map _ _)).2 (hs.simple.kind v).1

/-- The definition of a declared type with types for its parameters. -/
theorem Ty.Simple.instantiateParams {syn : Prop} {V : TypeVar → Prop} {params : List TypeVar}
    {args : List Ty} (ht : t.Simple syn) (hvars : ∀ v ∈ t.freeVars, v ∈ params ∨ V v)
    (hlength : params.length = args.length) (hargs : ∀ u ∈ args, u.Simple syn ∧ u.Inside V) :
    (t.instantiateParams params args).Simple syn ∧ (t.instantiateParams params args).Inside V := by
  unfold Ty.instantiateParams
  induction params generalizing t args with
  | nil => exact ⟨ht, fun v hv => (hvars v hv).resolve_left (by simp)⟩
  | cons p params ih =>
      cases args with
      | nil => simp at hlength
      | cons u args =>
          obtain ⟨hu, huV⟩ := hargs u List.mem_cons_self
          refine ih (ht.mapVars_single hu) (fun v hv => ?_) (by simpa using hlength)
            fun x hx => hargs x (List.mem_cons_of_mem _ hx)
          rcases ht.mem_freeVars_mapVars_single hv with hv | ⟨hv, hne⟩
          · exact Or.inr (huV v hv)
          · refine (hvars v hv).imp_left fun hmem => ?_
            exact (List.mem_cons.1 hmem).resolve_left fun heq => by simpa using hne heq

end FieldML

/-! ## Parameters replaced one after the other

Replacing the parameters of a declaration one after the other puts later arguments into earlier ones.
Where no argument mentions a parameter there is nothing to put in, so that all parameters might as
well be replaced at once. -/

namespace FieldML

variable {syn : Prop} {params : List TypeVar} {args : List Ty} {t : Ty} {v : TypeVar}

/-- The type with all parameters replaced by arguments at once. -/
def Ty.instantiateAll (params : List TypeVar) (args : List Ty) (t : Ty) : Ty :=
  t.mapVars (fun bound v r =>
    if v ∈ bound then .var v r else ((params.zip args).lookup v).getD (.var v r)) []

/-- No argument mentions a parameter, be it free, as a binder or in the body of a synonym. -/
def ApartFrom (params : List TypeVar) (args : List Ty) : Prop :=
  ∀ u ∈ args, ∀ v ∈ params, v ∉ u.allVars

section AllVars

attribute [local simp] Ty.allVars Kind.allVars Ty.allVarsOfList Ty.allVarsOfFields

theorem Ty.mem_allVarsOfList {ts : List Ty} :
    v ∈ Ty.allVarsOfList ts ↔ ∃ t ∈ ts, v ∈ t.allVars := by
  induction ts with
  | nil => simp
  | cons t ts ih => simp [ih]

theorem Ty.mem_allVarsOfFields {fs : List (String × Ty)} :
    v ∈ Ty.allVarsOfFields fs ↔ ∃ p ∈ fs, v ∈ p.2.allVars := by
  induction fs with
  | nil => simp
  | cons p fs ih => simp [ih]

theorem Kind.mem_allVars {k : Kind} : v ∈ k.allVars ↔ ∃ p ∈ k.fields, v ∈ p.2.allVars := by
  cases k with
  | universal => simp [Kind.fields]
  | record fs => exact Ty.mem_allVarsOfFields

/-- Without quantifiers all variables are free; those in the body of a synonym occur in its
arguments. -/
theorem Ty.Simple.mem_allVars (ht : t.Simple syn) : v ∈ t.allVars ↔ v ∈ t.freeVars := by
  induction ht with
  | base | var => simp
  | func r hp hq ihp ihq => simp [ihp, ihq]
  | list r ht ih => simpa using ih
  | ref r ht ih => simpa using ih
  | product r hts ih =>
      rw [Ty.mem_freeVars_product, Ty.allVars, Ty.mem_allVarsOfList]
      exact exists_congr fun t => and_congr_right (ih t)
  | variant n r hts ih =>
      rw [Ty.mem_freeVars_variant, Ty.allVars, Ty.mem_allVarsOfList]
      exact exists_congr fun t => and_congr_right (ih t)
  | @synonym ts t n r hsyn hts ht hvars ihts iht =>
      have hargs : v ∈ Ty.allVarsOfList ts ↔ v ∈ Ty.freeVarsOfList [] ts := by
        rw [Ty.mem_freeVarsOfList, Ty.mem_allVarsOfList]
        exact exists_congr fun t => and_congr_right (ihts t)
      rw [Ty.allVars, List.mem_append, hargs, iht]
      exact or_iff_left_of_imp (hvars v)
  | record r hsorted hfs ih =>
      rw [Ty.mem_freeVars_record, Ty.allVars, Ty.mem_allVarsOfFields]
      exact exists_congr fun p => and_congr_right (ih p)

end AllVars

theorem Ty.Simple.instantiateAll_of_apart {u : Ty} (hu : u.Simple syn)
    (h : ∀ v ∈ params, v ∉ u.allVars) : u.instantiateAll params args = u := by
  refine hu.mapVars_eq_self fun v hv r => ?_
  have hnone : (params.zip args).lookup v = none := by
    refine List.lookup_eq_none_iff.2 fun p hp => ?_
    have hne : v ≠ p.1 := by
      rintro rfl
      exact h _ (List.of_mem_zip hp).1 (hu.mem_allVars.2 hv)
    simpa using hne
  simp [hnone]

/-- One after the other is at once where no argument mentions a parameter. -/
theorem Ty.Simple.instantiateParams_eq (ht : t.Simple syn) (hargs : ∀ u ∈ args, u.Simple syn)
    (hapart : ApartFrom params args) :
    t.instantiateParams params args = t.instantiateAll params args := by
  unfold Ty.instantiateParams
  induction params generalizing t args with
  | nil => exact (ht.mapVars_eq_self fun v _ r => by simp).symm
  | cons p params ih =>
      cases args with
      | nil => exact (ht.mapVars_eq_self fun v _ r => by simp).symm
      | cons u args =>
          obtain ⟨hu, hargs⟩ := List.forall_mem_cons.1 hargs
          obtain ⟨hup, hapart⟩ := List.forall_mem_cons.1 hapart
          have hrest := ih (t := t.substitute p u) (ht.mapVars_single hu) hargs fun x hx v hv =>
            hapart x hx v (List.mem_cons_of_mem _ hv)
          rw [List.zip_cons_cons, List.foldl_cons, hrest]
          refine (ht.mapVars_mapVars (f := .single p u)).trans (ht.mapVars_congr fun v _ r => ?_)
          by_cases hv : v = p
          · subst hv
            simp only [Replacement.single, List.not_mem_nil, not_false_eq_true, and_self, if_true,
              if_false, List.zip_cons_cons, List.lookup_cons_self, Option.getD_some]
            exact hu.instantiateAll_of_apart fun w hw => hup w (List.mem_cons_of_mem _ hw)
          · have hlookup : (v == p) = false := by simpa using hv
            simp [Replacement.single, hv, Ty.mapVars, List.lookup_cons, hlookup]

end FieldML
