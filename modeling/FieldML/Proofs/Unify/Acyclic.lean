import FieldML.Proofs.Unify.Constraint
import Mathlib.Data.Finset.Card
import Mathlib.Data.Finset.Lattice.Fold
import Mathlib.Logic.Relation

/-!
# Kinds that do not lead back to their variables

The kind of a variable asks for fields, and their types mention variables that may have kinds again.
As long as no variable is led back to itself in this way, every type is finite, and what stands
inside a type is never made equal to it. So the comparisons before two variables are joined leave
both of them alone, and a run that does not fail loses nothing that was known.
-/

namespace FieldML

open Relation

namespace Ty

variable {syn : Prop} {h : TypeVar → Nat}

theorem heightList_map {ts : List Ty} {f : Ty → Ty}
    (hf : ∀ t ∈ ts, (f t).height h = t.height h) :
    heightList h (ts.map f) = heightList h ts := by
  induction ts with
  | nil => rfl
  | cons t ts ih =>
      obtain ⟨ht, hts⟩ := List.forall_mem_cons.1 hf
      simp only [List.map_cons, heightList, ht, ih hts]

theorem heightFields_map {fs : List (String × Ty)} {f : Ty → Ty}
    (hf : ∀ p ∈ fs, (f p.2).height h = p.2.height h) :
    heightFields h (fs.map fun p => (p.1, f p.2)) = heightFields h fs := by
  induction fs with
  | nil => rfl
  | cons p fs ih =>
      obtain ⟨hp, hfs⟩ := List.forall_mem_cons.1 hf
      simp only [List.map_cons, heightFields, hp, ih hfs]

theorem Simple.height_bare {t : Ty} (ht : t.Simple syn) : t.bare.height h = t.height h := by
  induction ht with
  | base | var => rfl
  | func r hp hq ihp ihq => simp only [bare, height, ihp, ihq]
  | list r ht ih | ref r ht ih => simp only [bare, height, ih]
  | product r hts ih | variant n r hts ih =>
      simp only [bare_product, bare_variant, height, heightList_map ih]
  | synonym n r hsyn hts ht hvars ihts iht => simpa only [bare, height] using iht
  | record r hsorted hfs ih => simp only [bare_record, height, heightFields_map ih]

theorem heightList_le {ts : List Ty} {n : Nat} (hts : ∀ t ∈ ts, t.height h ≤ n) :
    heightList h ts ≤ n := by
  induction ts with
  | nil => exact Nat.zero_le _
  | cons t ts ih =>
      obtain ⟨ht, hts⟩ := List.forall_mem_cons.1 hts
      exact Nat.max_le.2 ⟨ht, ih hts⟩

theorem heightFields_le {fs : List (String × Ty)} {n : Nat} (hfs : ∀ p ∈ fs, p.2.height h ≤ n) :
    heightFields h fs ≤ n := by
  induction fs with
  | nil => exact Nat.zero_le _
  | cons p fs ih =>
      obtain ⟨hp, hfs⟩ := List.forall_mem_cons.1 hfs
      exact Nat.max_le.2 ⟨hp, ih hfs⟩

/-- A type is no higher than its highest variable on top of its own constructors. -/
theorem Simple.height_le_add {t : Ty} {n : Nat} (ht : t.Simple False)
    (hn : ∀ v ∈ t.freeVars, h v ≤ n) : t.height h ≤ n + t.height fun _ => 0 := by
  induction ht with
  | base => exact Nat.zero_le _
  | var v r => exact hn v (mem_freeVars_var.2 rfl)
  | func r hp hq ihp ihq =>
      have := ihp fun v hv => hn v (mem_freeVars_func.2 (Or.inl hv))
      have := ihq fun v hv => hn v (mem_freeVars_func.2 (Or.inr hv))
      simp only [height]
      omega
  | list r ht ih | ref r ht ih => exact Nat.succ_le_succ (ih hn)
  | product r hts ih =>
      refine Nat.succ_le_succ (heightList_le fun t ht => ?_)
      have := ih t ht fun v hv => hn v (mem_freeVars_product.2 ⟨t, ht, hv⟩)
      exact this.trans (Nat.add_le_add_left (height_le_heightList ht) n)
  | variant m r hts ih =>
      refine Nat.succ_le_succ (heightList_le fun t ht => ?_)
      have := ih t ht fun v hv => hn v (mem_freeVars_variant.2 ⟨t, ht, hv⟩)
      exact this.trans (Nat.add_le_add_left (height_le_heightList ht) n)
  | synonym m r hsyn => exact hsyn.elim
  | record r hsorted hfs ih =>
      refine Nat.succ_le_succ (heightFields_le fun p hp => ?_)
      have := ih p hp fun v hv => hn v (mem_freeVars_record.2 ⟨p, hp, hv⟩)
      exact this.trans (Nat.add_le_add_left (height_le_heightFields hp) n)

end Ty

section Redirect

variable {α : Type} {R R' : α → α → Prop} {x z w : α} {T : α → Prop}

/-- Where the steps to `x` lead to targets instead, a path is an old one, or it comes to where `x`
was and goes on from a target. -/
theorem transGen_of_redirect (hstep : ∀ z w, R' z w → R z w ∨ R z x ∧ T w)
    (htarget : ∀ w, T w → ¬TransGen R w x) (h : TransGen R' z w) :
    TransGen R z w ∨ TransGen R z x ∧ ∃ t, T t ∧ ReflTransGen R t w := by
  induction h with
  | single hzw =>
      rcases hstep _ _ hzw with hzw | ⟨hzx, hw⟩
      · exact Or.inl (.single hzw)
      · exact Or.inr ⟨.single hzx, _, hw, .refl⟩
  | tail _ hwy ih =>
      rcases ih with hzw | ⟨hzx, t, ht, htw⟩
      · rcases hstep _ _ hwy with hwy | ⟨hwx, hy⟩
        · exact Or.inl (hzw.tail hwy)
        · exact Or.inr ⟨hzw.tail hwx, _, hy, .refl⟩
      · rcases hstep _ _ hwy with hwy | ⟨hwx, -⟩
        · exact Or.inr ⟨hzx, t, ht, htw.tail hwy⟩
        · exact absurd (TransGen.tail' htw hwx) (htarget t ht)

/-- Leading the steps to `x` to targets instead closes no cycle if no target leads to `x`. -/
theorem not_transGen_of_redirect (hR : ∀ z, ¬TransGen R z z)
    (hstep : ∀ z w, R' z w → R z w ∨ R z x ∧ T w)
    (htarget : ∀ w, T w → ¬TransGen R w x) (z : α) : ¬TransGen R' z z := by
  intro hcycle
  rcases transGen_of_redirect hstep htarget hcycle with hcycle | ⟨hzx, t, ht, htz⟩
  · exact hR z hcycle
  · exact htarget t ht (TransGen.trans_right htz hzx)

end Redirect

namespace Solver

open Unify

variable {syn : Prop} {h : TypeVar → Nat} {s s' : Solver} {a b t u : Ty} {v w x : TypeVar}
  {r : Range} {k : Kind}

/-- The variable occurs in a field that the kind of `v` asks for, once everything that is known is
applied and synonyms are expanded. -/
def LeadsTo (s : Solver) (v w : TypeVar) : Prop :=
  ∃ p ∈ (s.kindOf v).fields, w ∈ (s.subst.bare p.2).freeVars

/-- No kind leads back to its variable. -/
def Acyclic (s : Solver) : Prop := ∀ v, ¬TransGen s.LeadsTo v v

theorem lt_of_transGen {f : TypeVar → Nat} (hf : ∀ v w, s.LeadsTo v w → f w < f v)
    (hvw : TransGen s.LeadsTo v w) : f w < f v := by
  induction hvw with
  | single hstep => exact hf _ _ hstep
  | tail _ hstep ih => exact (hf _ _ hstep).trans ih

theorem acyclic_of_lt {f : TypeVar → Nat} (hf : ∀ v w, s.LeadsTo v w → f w < f v) : s.Acyclic :=
  fun _ hcycle => Nat.lt_irrefl _ (lt_of_transGen hf hcycle)

section Heights

/-- The fields of every kind lie below its variable. -/
def Graded (h : TypeVar → Nat) (s : Solver) : Prop :=
  ∀ v, ∀ p ∈ (s.kindOf v).fields, (s.subst.bare p.2).height h < h v

theorem Proper.height_bare (hs : s.Proper syn) (ht : t.Simple syn) :
    (s.subst.bare t).height h = (s.subst.apply t).height h :=
  (hs.triangular.simple.apply ht).height_bare

theorem Ranked.graded (hrank : s.Ranked h) (hs : s.Proper syn) : s.Graded h := by
  intro v p hp
  have hsimple := (hs.kind v).2 p hp
  rw [hs.height_bare hsimple]
  exact (hrank.height_apply_le hs.triangular.simple hsimple).trans_lt (hrank.kind v p hp)

/-- What a kind leads to lies below its variable. -/
theorem Graded.lt (hg : s.Graded h) (hs : s.Proper syn) (hvw : s.LeadsTo v w) : h w < h v := by
  obtain ⟨p, hp, hw⟩ := hvw
  have hbare := (hs.triangular.simple.apply ((hs.kind v).2 p hp)).bare
  exact (hbare.height_le_of_mem_freeVars hw).trans_lt (hg v p hp)

theorem Graded.acyclic (hg : s.Graded h) (hs : s.Proper syn) : s.Acyclic :=
  acyclic_of_lt fun _ _ => hg.lt hs

theorem mem_keys_kinds {p : String × Ty} (hp : p ∈ (s.kindOf v).fields) :
    v ∈ s.kinds.kinds.keys := by
  rw [Std.TreeMap.mem_keys]
  by_contra hv
  rw [kindOf, KindEnv.kindOf, Std.TreeMap.getD_eq_fallback hv] at hp
  exact absurd hp List.not_mem_nil

open Classical in
/-- The variables with a kind that `v` leads to. -/
noncomputable def reached (s : Solver) (v : TypeVar) : Finset TypeVar :=
  s.kinds.kinds.keys.toFinset.filter (TransGen s.LeadsTo v)

theorem mem_reached : w ∈ s.reached v ↔ w ∈ s.kinds.kinds.keys ∧ TransGen s.LeadsTo v w := by
  simp [reached]

theorem Acyclic.card_reached_lt (hacyc : s.Acyclic) (hvw : s.LeadsTo v w)
    (hw : w ∈ s.kinds.kinds.keys) : (s.reached w).card < (s.reached v).card := by
  refine Finset.card_lt_card (Finset.ssubset_iff_of_subset (fun y hy => ?_) |>.2 ⟨w, ?_, ?_⟩)
  · obtain ⟨hy, hwy⟩ := mem_reached.1 hy
    exact mem_reached.2 ⟨hy, .head hvw hwy⟩
  · exact mem_reached.2 ⟨hw, .single hvw⟩
  · exact fun hcycle => hacyc w (mem_reached.1 hcycle).2

/-- The types of the fields that kinds ask for are bounded in their own height. -/
theorem exists_depth (s : Solver) : ∃ d, ∀ v, ∀ p ∈ (s.kindOf v).fields,
    ((s.subst.bare p.2).height fun _ => 0) ≤ d := by
  let depth := fun v => Ty.heightFields (fun _ => 0)
    ((s.kindOf v).fields.map fun p => (p.1, s.subst.bare p.2))
  refine ⟨s.kinds.kinds.keys.toFinset.sup depth, fun v p hp => ?_⟩
  calc
    _ ≤ depth v := Ty.height_le_heightFields
      (List.mem_map_of_mem (f := fun p => (p.1, s.subst.bare p.2)) hp)
    _ ≤ _ := Finset.le_sup (List.mem_toFinset.2 (mem_keys_kinds hp))

open Classical in
/-- The height of a variable where fields have at most the height `d` of their own: what counts is
how many variables with kinds it leads to. -/
noncomputable def rank (s : Solver) (d : Nat) (v : TypeVar) : Nat :=
  if v ∈ s.kinds.kinds.keys then ((s.reached v).card + 1) * (d + 1) else 0

theorem Acyclic.rank_le {d : Nat} (hacyc : s.Acyclic) (hvw : s.LeadsTo v w) :
    s.rank d w ≤ (s.reached v).card * (d + 1) := by
  unfold rank
  split
  · next hw => exact Nat.mul_le_mul_right _ (hacyc.card_reached_lt hvw hw)
  · exact Nat.zero_le _

/-- As long as no kind leads back to its variable, the variables have heights that put the fields of
every kind below its variable. -/
theorem Acyclic.exists_graded (hacyc : s.Acyclic) (hs : s.Proper syn) : ∃ h, s.Graded h := by
  obtain ⟨d, hd⟩ := s.exists_depth
  refine ⟨s.rank d, fun v p hp => ?_⟩
  have hbare : (s.subst.bare p.2).Simple False :=
    (hs.triangular.simple.apply ((hs.kind v).2 p hp)).bare
  have hle := hbare.height_le_add (h := s.rank d) fun w hw => hacyc.rank_le ⟨p, hp, hw⟩
  have hown := hd v p hp
  have hv : s.rank d v = (s.reached v).card * (d + 1) + (d + 1) := by
    rw [rank, if_pos (mem_keys_kinds hp), Nat.succ_mul]
  omega

end Heights

section Contains

/-- The types right inside a type whose variables are free: those that it is built from or, for a
variable, those of the fields that its kind asks for. -/
def under (s : Solver) : Ty → List Ty
  | .var v _ => (s.kindOf v).fields.map fun p => s.subst.bare p.2
  | t => t.items

theorem under_of_isRigid (ht : IsRigid t) : s.under t = t.items := by
  cases t <;> first | exact ht.elim | rfl

/-- The second type stands inside the first one. -/
def Contains (s : Solver) : Ty → Ty → Prop := TransGen fun t u => u ∈ s.under t

theorem Graded.height_lt_of_mem_under (hg : s.Graded h) (hu : u ∈ s.under t) :
    u.height h < t.height h := by
  cases t with
  | var v r =>
      obtain ⟨p, hp, rfl⟩ := List.mem_map.1 hu
      exact hg v p hp
  | _ => exact Ty.height_lt_of_mem_items hu

theorem Graded.height_lt (hg : s.Graded h) (hc : s.Contains t u) : u.height h < t.height h := by
  induction hc with
  | single hu => exact hg.height_lt_of_mem_under hu
  | tail _ hu ih => exact (hg.height_lt_of_mem_under hu).trans ih

/-- No type stands inside itself. -/
theorem Acyclic.not_contains_self (hacyc : s.Acyclic) (hs : s.Proper syn) : ¬s.Contains t t := by
  intro hc
  obtain ⟨h, hg⟩ := hacyc.exists_graded hs
  exact Nat.lt_irrefl _ (hg.height_lt hc)

/-- The type has neither synonyms nor variables that are bound. -/
structure Resolved (s : Solver) (t : Ty) : Prop where
  simple : t.Simple False
  free : ∀ v ∈ t.freeVars, s.subst.find? v = none

theorem Resolved.var (hv : s.subst.find? v = none) : s.Resolved (.var v r) :=
  ⟨.var v r, fun w hw => by rwa [Ty.mem_freeVars_var.1 hw]⟩

theorem Proper.resolved_bare (hs : s.Proper syn) (ht : t.Simple syn) :
    s.Resolved (s.subst.bare t) where
  simple := (hs.triangular.simple.apply ht).bare
  free _ hv := hs.triangular.find?_of_mem_freeVars_apply ht
    ((hs.triangular.simple.apply ht).mem_freeVars_of_bare hv)

theorem Resolved.cases (ht : s.Resolved t) :
    (∃ v r, t = .var v r ∧ s.subst.find? v = none) ∨ IsRigid t := by
  cases ht.simple with
  | var => exact Or.inl ⟨_, _, rfl, ht.free _ (Ty.mem_freeVars_var.2 rfl)⟩
  | synonym n r hsyn => exact hsyn.elim
  | base | func | list | ref | product | variant | record => exact Or.inr trivial

theorem Resolved.of_mem_under (ht : s.Resolved t) (hs : s.Proper syn) (hu : u ∈ s.under t) :
    s.Resolved u := by
  rcases ht.cases with ⟨v, r, rfl, -⟩ | hrt
  · obtain ⟨p, hp, rfl⟩ := List.mem_map.1 hu
    exact hs.resolved_bare ((hs.kind v).2 p hp)
  · rw [under_of_isRigid hrt] at hu
    exact ⟨ht.simple.of_mem_items hu, fun v hv => ht.free v (Ty.mem_freeVars_of_mem_items hu hv)⟩

theorem Contains.resolved (hc : s.Contains t u) (hs : s.Proper syn) (ht : s.Resolved t) :
    s.Resolved u := by
  induction hc with
  | single hu => exact ht.of_mem_under hs hu
  | tail _ hu ih => exact ih.of_mem_under hs hu

theorem mem_items_bare {σ : Substitution} (ht : IsRigid t) (hu : u ∈ t.items) :
    σ.bare u ∈ (σ.bare t).items := by
  unfold Substitution.bare
  cases t with
  | var | synonym | all => exact ht.elim
  | base => exact absurd hu List.not_mem_nil
  | func p q r =>
      simp only [Ty.items, List.mem_cons, List.not_mem_nil, or_false] at hu
      rcases hu with rfl | rfl
      · exact List.mem_cons_self
      · exact List.mem_cons_of_mem _ List.mem_cons_self
  | list t r | ref t r =>
      obtain rfl := List.mem_singleton.1 hu
      exact List.mem_cons_self
  | product ts r =>
      rw [Substitution.apply_product, Ty.bare_product]
      exact List.mem_map_of_mem (List.mem_map_of_mem hu)
  | variant n ts r =>
      rw [Substitution.apply_variant, Ty.bare_variant]
      exact List.mem_map_of_mem (List.mem_map_of_mem hu)
  | record fs r =>
      obtain ⟨p, hp, rfl⟩ := List.mem_map.1 hu
      rw [Substitution.apply_record, Ty.bare_record, Ty.items, List.map_map, List.map_map]
      exact List.mem_map.2 ⟨p, hp, rfl⟩

theorem Proper.mem_items_of_head (hs : s.Proper syn) (ht : t.Simple syn) (hrt : IsRigid (s.head t))
    (hu : u ∈ (s.head t).items) : s.subst.bare u ∈ (s.subst.bare t).items := by
  rw [← hs.bare_head hs (.refl _) ht]
  exact mem_items_bare hrt hu

theorem isRigid_bare {σ : Substitution} (ht : IsRigid t) : IsRigid (σ.bare t) := by
  cases t <;> trivial

theorem bare_var_of_none (hv : s.subst.find? v = none) :
    s.subst.bare (.var v r) = .var v .erased := by
  rw [Substitution.bare, Substitution.apply_var_of_none hv]
  rfl

theorem mem_under_of_kind {p : String × Ty} (hp : p ∈ (s.kindOf v).fields) :
    s.subst.bare p.2 ∈ s.under (.var v r) :=
  List.mem_map_of_mem (f := fun p => s.subst.bare p.2) hp

/-- A field that a type is known to have stands inside it. -/
theorem Has.mem_under {l : String} {T : Ty} (hT : s.Has t l T) (hs : s.Proper syn)
    (ht : t.Simple syn) : s.subst.bare T ∈ s.under (s.subst.bare t) := by
  rw [← hs.bare_head hs (.refl _) ht]
  rcases hT.cases with ⟨fs, r, hrecord⟩ | ⟨v, r, hvar⟩
  · obtain ⟨u, hu, heq⟩ := hT
    rw [fieldsOf_of_record hrecord] at hu
    rw [hrecord, under_of_isRigid (isRigid_bare (t := .record fs r) trivial), ← heq]
    exact mem_items_bare trivial (List.mem_map_of_mem (f := (·.2)) (Fields.mem_of_get? hu))
  · obtain ⟨u, hu, heq⟩ := hT
    rw [fieldsOf_of_var hvar] at hu
    rw [hvar, bare_var_of_none (hs.find?_of_head_eq ht hvar), ← heq]
    exact mem_under_of_kind (Fields.mem_of_get? hu)

/-- What stands right inside a type still does in a later state if this is so for the variable that
the type may be. -/
theorem mem_under_bare (hu : u ∈ s.under t) (hs : s.Proper syn) (hs' : s'.Proper syn)
    (hext : s.subst.ExtendedBy s'.subst) (ht : s.Resolved t)
    (hkind : ∀ v, (∃ r, t = .var v r) → ∀ p ∈ (s.kindOf v).fields,
      s'.subst.bare p.2 ∈ s'.under (s'.subst.bare (.var v .erased))) :
    s'.subst.bare u ∈ s'.under (s'.subst.bare t) := by
  rcases ht.cases with ⟨v, r, rfl, -⟩ | hrt
  · obtain ⟨p, hp, rfl⟩ := List.mem_map.1 hu
    rw [hs.triangular.bare_bare hs'.triangular hext ((hs.kind v).2 p hp)]
    have hvar : s'.subst.bare (.var v r) = s'.subst.bare (.var v .erased) :=
      Substitution.bare_follow _
    rw [hvar]
    exact hkind v ⟨r, rfl⟩ p hp
  · rw [under_of_isRigid hrt] at hu
    rw [under_of_isRigid (isRigid_bare hrt)]
    exact mem_items_bare hrt hu

/-- Where no field is lost, what stands inside a type still does. -/
theorem Contains.keeps (hc : s.Contains t u) (hs : s.Proper syn) (hs' : s'.Proper syn)
    (hext : s.subst.ExtendedBy s'.subst) (hkeeps : Keeps syn s s') (ht : s.Resolved t) :
    s'.Contains (s'.subst.bare t) (s'.subst.bare u) := by
  have hstep : ∀ t u, s.Resolved t → u ∈ s.under t →
      s'.subst.bare u ∈ s'.under (s'.subst.bare t) := by
    refine fun t u ht hu => mem_under_bare hu hs hs' hext ht fun v hv p hp => ?_
    obtain ⟨r, rfl⟩ := hv
    have hfree := ht.free v (Ty.mem_freeVars_var.2 rfl)
    have hhas := hkeeps.field _ p.1 p.2 (.var v .erased) ((hs.kind v).2 p hp)
      (has_of_kind hs hfree hp)
    exact hhas.mem_under hs' (.var v _)
  induction hc with
  | single hu => exact .single (hstep _ _ ht hu)
  | tail hc hu ih => exact ih.tail (hstep _ _ (Contains.resolved hc hs ht) hu)

/-- Once a variable is bound, what stands inside a type still does, or it stands inside the
variable. -/
theorem Contains.assign (hc : s.Contains t u) (hs : s.Proper syn)
    (hs' : (s.assign x a).Proper syn) (hx : s.subst.find? x = none) (ht : s.Resolved t) :
    (s.assign x a).Contains ((s.assign x a).subst.bare t) ((s.assign x a).subst.bare u) ∨
      s.Contains (.var x .erased) u := by
  have hstep : ∀ t u, s.Resolved t → u ∈ s.under t → (¬∃ r, t = .var x r) →
      (s.assign x a).subst.bare u ∈ (s.assign x a).under ((s.assign x a).subst.bare t) := by
    refine fun t u ht hu hne =>
      mem_under_bare hu hs hs' (Substitution.extendedBy_bind hx) ht fun v hv p hp => ?_
    obtain ⟨r, rfl⟩ := hv
    have hvx : x ≠ v := by
      rintro rfl
      exact hne ⟨r, rfl⟩
    have hfree : (s.assign x a).subst.find? v = none := by
      rw [subst_assign, Substitution.find?_bind, if_neg hvx]
      exact ht.free v (Ty.mem_freeVars_var.2 rfl)
    rw [bare_var_of_none hfree]
    exact mem_under_of_kind hp
  induction hc with
  | @single u hu =>
      by_cases hvar : ∃ r, t = .var x r
      · obtain ⟨r, rfl⟩ := hvar
        exact Or.inr (.single hu)
      · exact Or.inl (.single (hstep _ _ ht hu hvar))
  | @tail y u hc hu ih =>
      by_cases hvar : ∃ r, y = .var x r
      · obtain ⟨r, rfl⟩ := hvar
        exact Or.inr (.single hu)
      · have hlink := hstep _ _ (Contains.resolved hc hs ht) hu hvar
        refine ih.imp (fun hc' => hc'.tail hlink) fun hc' => ?_
        exact hc'.tail hu

end Contains

end Solver

end FieldML
