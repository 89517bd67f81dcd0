import FieldML.Proofs.Check.Scheme
import FieldML.Proofs.Unify.Plain
import FieldML.Proofs.Unify.Solution
import Mathlib.Data.List.Nodup

/-!
# Comparisons with types that share no variable

Types without synonyms in which no variable occurs twice can be made equal, one after the other, to
types over variables that do not occur in them, if some solution makes them equal. The occurs check
never objects: a variable that is bound gives way to a type over variables from the other side. Such
comparisons also go well where one side holds synonyms.
-/

namespace FieldML

section FreeVars

variable {f : Replacement} {bound : List TypeVar} {g : TypeVar → List TypeVar} {t : Ty}

theorem Ty.freeVarsOfList_eq_flatMap (bound : List TypeVar) (ts : List Ty) :
    freeVarsOfList bound ts = ts.flatMap (freeVarsUnder bound) := by
  induction ts with
  | nil => rfl
  | cons t ts ih => rw [freeVarsOfList, ih, List.flatMap_cons]

theorem Ty.freeVarsOfFields_eq_flatMap (bound : List TypeVar) (fs : List (String × Ty)) :
    freeVarsOfFields bound fs = fs.flatMap fun p => p.2.freeVarsUnder bound := by
  induction fs with
  | nil => rfl
  | cons p fs ih => rw [freeVarsOfFields, ih, List.flatMap_cons]

theorem Ty.freeVars_product (ts : List Ty) (r : Range) :
    (product ts r).freeVars = ts.flatMap freeVars := freeVarsOfList_eq_flatMap [] ts

theorem Ty.freeVars_variant (n : String) (ts : List Ty) (r : Range) :
    (variant n ts r).freeVars = ts.flatMap freeVars := freeVarsOfList_eq_flatMap [] ts

theorem Ty.freeVars_record (fs : List (String × Ty)) (r : Range) :
    (record fs r).freeVars = fs.flatMap fun p => p.2.freeVars := freeVarsOfFields_eq_flatMap [] fs

/-- In a type without synonyms every occurrence of a variable gives way to those of its
replacement. -/
theorem Ty.Simple.freeVars_mapVars (ht : t.Simple False)
    (h : ∀ v ∈ t.freeVars, ∀ r, (f bound v r).freeVars = g v) :
    (t.mapVars f bound).freeVars = t.freeVars.flatMap g := by
  induction ht with
  | base b r => rfl
  | var v r =>
      have hvar : (Ty.var v r).freeVars = [v] := by simp [freeVars, freeVarsUnder]
      rw [hvar, List.flatMap_singleton]
      exact h v (by simp) r
  | @func p q r hp hq ihp ihq =>
      have hparts : (Ty.func p q r).freeVars = p.freeVars ++ q.freeVars := rfl
      rw [hparts, List.flatMap_append, ← ihp fun v hv => h v (by simp [hv]),
        ← ihq fun v hv => h v (by simp [hv])]
      rfl
  | list r ht ih => exact ih h
  | ref r ht ih => exact ih h
  | product r hts ih =>
      rw [mapVars_product, freeVars_product, freeVars_product, List.flatMap_map, List.flatMap_assoc]
      exact List.flatMap_congr fun t ht =>
        ih t ht fun v hv => h v (mem_freeVars_product.2 ⟨t, ht, hv⟩)
  | variant n r hts ih =>
      rw [mapVars_variant, freeVars_variant, freeVars_variant, List.flatMap_map, List.flatMap_assoc]
      exact List.flatMap_congr fun t ht =>
        ih t ht fun v hv => h v (mem_freeVars_variant.2 ⟨t, ht, hv⟩)
  | synonym n r hsyn => exact hsyn.elim
  | record r hsorted hfs ih =>
      rw [mapVars_record, freeVars_record, freeVars_record, List.flatMap_map, List.flatMap_assoc]
      exact List.flatMap_congr fun p hp =>
        ih p hp fun v hv => h v (mem_freeVars_record.2 ⟨p, hp, hv⟩)

theorem Ty.Simple.expand_eq (ht : t.Simple False) : t.expand = t := by
  cases ht with
  | synonym n r hsyn => exact hsyn.elim
  | _ => rfl

/-- Variables that give way to variables from elsewhere stay different. -/
theorem nodup_flatMap_replace {l m : List TypeVar} (h : (l ++ m).Nodup) (v : TypeVar) :
    (l.flatMap fun w => if w = v then m else [w]).Nodup := by
  obtain ⟨hl, hm, hdisjoint⟩ := List.nodup_append.1 h
  refine List.nodup_flatMap.2 ⟨fun w _ => ?_, ?_⟩
  · split
    · exact hm
    · exact List.nodup_singleton w
  · refine hl.imp_of_mem fun {x y} hx hy hne u hux huy => ?_
    simp only at hux huy
    split_ifs at hux huy with hxv hyv hyv
    · exact hne (hxv.trans hyv.symm)
    · exact hdisjoint y hy u hux (List.mem_singleton.1 huy).symm
    · exact hdisjoint x hx u huy (List.mem_singleton.1 hux).symm
    · exact hne ((List.mem_singleton.1 hux).symm.trans (List.mem_singleton.1 huy))

end FreeVars

namespace Substitution

variable {syn : Prop} {s : Substitution} {t u : Ty} {v : TypeVar}

/-- A type without bound variables stands for itself. -/
theorem apply_of_free (ht : t.Simple syn) (hfree : ∀ w ∈ t.freeVars, s.find? w = none) :
    s.apply t = t :=
  ht.mapVars_eq_self fun w hw _ => follow_of_none s.size (hfree w hw)

/-- Once a variable is bound, its type takes its place. -/
theorem Triangular.apply_bind (h : s.Triangular syn) (ht : t.Simple syn)
    (hfree : ∀ w ∈ t.freeVars, s.find? w = none) (hvt : v ∉ t.freeVars) (hv : s.find? v = none)
    (hu : u.Simple syn) : (s.bind v t).apply u = (s.apply u).substitute v t := by
  have htri := h.bind ht hfree hvt
  have hself : (s.bind v t).apply t = t := by
    refine apply_of_free ht fun w hw => ?_
    rw [find?_bind, if_neg fun heq => hvt (by rwa [heq]), hfree w hw]
  rw [← h.apply_apply htri (extendedBy_bind hv) hu]
  refine (h.simple.apply hu).mapVars_congr fun w hw r => ?_
  by_cases hwv : w = v
  · subst hwv
    have hbound : (s.bind w t).find? w = some t := by rw [find?_bind, if_pos rfl]
    have hvar := htri.apply_var_of_some (r := r) hbound
    rw [hself] at hvar
    exact hvar.trans (by simp [Replacement.single])
  · have hnone : (s.bind v t).find? w = none := by
      rw [find?_bind, if_neg (Ne.symm hwv)]
      exact h.find?_of_mem_freeVars_apply hu hw
    simpa [Replacement.single, hwv] using follow_of_none (r := r) (s.bind v t).size hnone

end Substitution

namespace Solver

variable {s s' : Solver} {ts us : List Ty} {t : Ty} {v : TypeVar}

/-- The variables that some types lead to, as often as they do. -/
def varsOf (s : Solver) (ts : List Ty) : List TypeVar :=
  ts.flatMap fun t => (s.subst.apply t).freeVars

/-- Resolved, the types hold no synonym, and no variable occurs twice in them. -/
structure Apart (s : Solver) (ts : List Ty) : Prop where
  flat : ∀ t ∈ ts, (s.subst.apply t).Simple False
  nodup : (s.varsOf ts).Nodup

theorem varsOf_append (s : Solver) (ts us : List Ty) :
    s.varsOf (ts ++ us) = s.varsOf ts ++ s.varsOf us := List.flatMap_append

theorem varsOf_singleton (s : Solver) (t : Ty) : s.varsOf [t] = (s.subst.apply t).freeVars := by
  rw [varsOf, List.flatMap_singleton]

theorem mem_varsOf : v ∈ s.varsOf ts ↔ ∃ t ∈ ts, v ∈ (s.subst.apply t).freeVars := List.mem_flatMap

theorem Apart.left (h : s.Apart (ts ++ us)) : s.Apart ts := by
  have hnodup := h.nodup
  rw [varsOf_append] at hnodup
  exact ⟨fun t ht => h.flat t (List.mem_append_left _ ht), (List.nodup_append.1 hnodup).1⟩

theorem Apart.perm (h : s.Apart ts) (hperm : ts.Perm us) : s.Apart us :=
  ⟨fun t ht => h.flat t (hperm.mem_iff.2 ht), (hperm.flatMap_right _).nodup_iff.1 h.nodup⟩

theorem Apart.congr (h : s.Apart ts) (hsame : ∀ t ∈ ts, s'.subst.apply t = s.subst.apply t) :
    s'.Apart ts := by
  have hvars : s'.varsOf ts = s.varsOf ts := List.flatMap_congr fun t ht => by rw [hsame t ht]
  exact ⟨fun t ht => (hsame t ht).symm ▸ h.flat t ht, hvars ▸ h.nodup⟩

/-- Where types are apart, some of their variables may be replaced by those of another one. -/
theorem Apart.assign (h : s.Apart (ts ++ [t])) (hs : s.Proper True) (ht : t.Simple True)
    (hts : ∀ u ∈ ts, u.Simple True) (hv : s.subst.find? v = none)
    (hvt : v ∉ (s.subst.apply t).freeVars) : (s.assign v (s.subst.apply t)).Apart ts := by
  have happly : ∀ u ∈ ts, (s.assign v (s.subst.apply t)).subst.apply u =
      (s.subst.apply u).substitute v (s.subst.apply t) := fun u hu =>
    hs.triangular.apply_bind (hs.triangular.simple.apply ht)
      (fun w => hs.triangular.find?_of_mem_freeVars_apply ht) hvt hv (hts u hu)
  have hflat : (s.subst.apply t).Simple False := h.flat t (by simp)
  have hvars : (s.assign v (s.subst.apply t)).varsOf ts =
      (s.varsOf ts).flatMap fun w => if w = v then (s.subst.apply t).freeVars else [w] := by
    rw [varsOf, varsOf, List.flatMap_assoc]
    refine List.flatMap_congr fun u hu => ?_
    rw [happly u hu]
    refine (h.flat u (List.mem_append_left _ hu)).freeVars_mapVars fun w _ r => ?_
    by_cases hwv : w = v <;> simp [Replacement.single, hwv, Ty.freeVars, Ty.freeVarsUnder]
  refine ⟨fun u hu => ?_, ?_⟩
  · rw [happly u hu]
    exact (h.flat u (List.mem_append_left _ hu)).mapVars_single hflat
  · have hnodup := h.nodup
    rw [varsOf_append, varsOf_singleton] at hnodup
    rw [hvars]
    exact nodup_flatMap_replace hnodup v

/-- Binding a variable that types do not lead to changes nothing for them. -/
theorem Apart.assign_other (h : s.Apart ts) (hs : s.Proper True) (ht : t.Simple True)
    (hfree : ∀ w ∈ t.freeVars, s.subst.find? w = none) (hvt : v ∉ t.freeVars)
    (hts : ∀ u ∈ ts, u.Simple True) (hv : s.subst.find? v = none) (hvts : v ∉ s.varsOf ts) :
    (s.assign v t).Apart ts := by
  refine h.congr fun u hu => ?_
  rw [subst_assign, hs.triangular.apply_bind ht hfree hvt hv (hts u hu)]
  refine (hs.triangular.simple.apply (hts u hu)).mapVars_eq_self fun w hw r => ?_
  have hwv : w ≠ v := by
    rintro rfl
    exact hvts (mem_varsOf.2 ⟨u, hu, hw⟩)
  simp [Replacement.single, hwv]

/-- The right types of the pairs are apart from some types and from each other, and the left types
lead to nothing that those types do not lead to. -/
structure Fits (s : Solver) (ts : List Ty) (ps : List (Ty × Ty)) : Prop where
  apart : s.Apart (ts ++ ps.map Prod.snd)
  within : ∀ p ∈ ps, ∀ v ∈ (s.subst.apply p.1).freeVars, v ∈ s.varsOf ts

/-- What leads to nothing else in one state does not do so in a later one. -/
theorem Binds.within (h : Binds True s s') (hs : s.Proper True) (ht : t.Simple True)
    (hts : ∀ u ∈ ts, u.Simple True) (hin : ∀ v ∈ (s.subst.apply t).freeVars, v ∈ s.varsOf ts) :
    ∀ v ∈ (s'.subst.apply t).freeVars, v ∈ s'.varsOf ts := by
  intro v hv
  rw [← hs.triangular.apply_apply h.proper.triangular h.extended ht,
    Substitution.mem_freeVars_apply (hs.triangular.simple.apply ht)] at hv
  obtain ⟨w, hw, hv⟩ := hv
  obtain ⟨u, hu, hwu⟩ := mem_varsOf.1 (hin w hw)
  refine mem_varsOf.2 ⟨u, hu, ?_⟩
  rw [← hs.triangular.apply_apply h.proper.triangular h.extended (hts u hu)]
  exact (Substitution.mem_freeVars_apply (hs.triangular.simple.apply (hts u hu))).2 ⟨w, hwu, hv⟩

end Solver

namespace Unify

open Solver

variable {θ : Assignment} {s s' : Solver} {a b t u : Ty} {v : TypeVar} {n : Nat}
  {ps : List (Ty × Ty)} {ts : List Ty} {r : Option Reason}

section Parts

/-- The right types of the parts are those that the right type consists of, in their order. -/
theorem flatMap_snd_parts (hrt : IsRigid t) (hru : IsRigid u) (ht : t.Simple True)
    (hu : u.Simple False) (heq : t.ground θ = u.ground θ) :
    (∀ p ∈ (parts t u).1, p.2.Simple False) ∧
      ((parts t u).1.map Prod.snd).flatMap Ty.freeVars = u.freeVars := by
  have hcomponents : ∀ {ts us : List Ty}, ts.map (Ty.ground θ) = us.map (Ty.ground θ) →
      (componentPairs ts us).1.map Prod.snd = us := by
    intro ts us heq
    have hlength : ts.length = us.length := by simpa using congrArg List.length heq
    rw [componentPairs, if_pos hlength, List.map_snd_zip (Nat.le_of_eq hlength.symm)]
  have hall : ∀ {ps : List (Ty × Ty)} {us : List Ty}, ps.map Prod.snd = us →
      (∀ u ∈ us, u.Simple False) → ∀ p ∈ ps, p.2.Simple False := by
    rintro ps _ rfl h p hp
    exact h p.2 (List.mem_map_of_mem hp)
  cases hu with
  | var | synonym => exact hru.elim
  | base =>
      cases t <;> first | exact hrt.elim | simp_all [parts, Ty.ground, Ty.freeVars, Ty.freeVarsUnder]
  | func r hp hq =>
      cases t <;> first | exact hrt.elim | simp_all [parts, Ty.ground, Ty.freeVars, Ty.freeVarsUnder]
  | list r ht =>
      cases t <;> first | exact hrt.elim | simp_all [parts, Ty.ground, Ty.freeVars, Ty.freeVarsUnder]
  | ref r ht =>
      cases t <;> first | exact hrt.elim | simp_all [parts, Ty.ground, Ty.freeVars, Ty.freeVarsUnder]
  | product r hts =>
      cases t <;> first | exact hrt.elim | skip
      case product =>
        have hsnd := hcomponents (GroundTy.product.inj (by simpa using heq))
        exact ⟨hall hsnd hts, by rw [Ty.freeVars_product, parts, hsnd]⟩
      all_goals simp [Ty.ground] at heq
  | variant n r hts =>
      cases t <;> first | exact hrt.elim | skip
      case variant =>
        simp only [Ty.ground_variant, GroundTy.variant.injEq] at heq
        obtain ⟨rfl, heq⟩ := heq
        have hsnd := hcomponents heq
        rw [parts, if_pos rfl]
        exact ⟨hall hsnd hts, by rw [Ty.freeVars_variant, hsnd]⟩
      all_goals simp [Ty.ground] at heq
  | record r hsorted hfs =>
      cases t <;> first | exact hrt.elim | skip
      case record fs _ =>
        have hfields := GroundTy.record.inj heq
        have hnames := congrArg Fields.names hfields
        rw [Ty.names_groundFields, Ty.names_groundFields] at hnames
        have hlength := congrArg List.length hnames
        simp only [Fields.names, List.length_map] at hlength
        have hsnd : (recordPairs fs _).1.map Prod.snd = _ :=
          (congrArg (fun ps => ps.1.map Prod.snd) (recordPairs_eq_zip hsorted hnames)).trans
            (List.map_snd_zip (by simp [hlength]))
        refine ⟨hall hsnd fun u hu => ?_, ?_⟩
        · obtain ⟨p, hp, rfl⟩ := List.mem_map.1 hu
          exact hfs p hp
        · rw [Ty.freeVars_record, parts, hsnd, List.flatMap_map]
      all_goals simp [Ty.ground] at heq

end Parts

end Unify

namespace Solver.Fits

open Unify

variable {s : Solver} {a b t : Ty} {v : TypeVar} {ps : List (Ty × Ty)} {ts : List Ty}

theorem single {p : Ty × Ty} (h : s.Fits ts (p :: ps)) : s.Fits (ts ++ ps.map Prod.snd) [p] := by
  refine ⟨?_, fun q hq v hv => ?_⟩
  · have hperm : (ts ++ (p :: ps).map Prod.snd).Perm (ts ++ ps.map Prod.snd ++ [p].map Prod.snd) := by
      rw [List.append_assoc]
      exact (List.perm_append_singleton _ _).symm.append_left ts
    exact h.apart.perm hperm
  · obtain rfl := List.mem_singleton.1 hq
    rw [varsOf_append]
    exact List.mem_append_left _ (h.within q List.mem_cons_self v hv)

theorem right_apart (h : s.Fits ts [(a, b)]) (hv : v ∈ (s.subst.apply b).freeVars) :
    v ∉ s.varsOf ts := by
  have hnodup := h.apart.nodup
  rw [List.map_singleton, varsOf_append, varsOf_singleton] at hnodup
  exact fun hmem => (List.nodup_append.1 hnodup).2.2 v hmem v hv rfl

theorem head_right (h : s.Fits ts [(a, b)]) : s.head b = s.subst.apply b :=
  (h.apart.flat b (by simp)).expand_eq

theorem head_left (h : s.Fits ts [(a, b)]) (hs : s.Proper True) (ha : a.Simple True)
    (hv : v ∈ (s.head a).freeVars) : v ∈ s.varsOf ts :=
  h.within _ List.mem_cons_self v ((hs.simple.subst.apply ha).mem_freeVars_of_expand hv)

/-- The variable that meets a type does not occur in it. -/
theorem notMem (h : s.Fits ts [(a, b)]) (hs : s.Proper True) (ha : a.Simple True)
    (hm : Meet s a b v t) : v ∉ t.freeVars := by
  intro hv
  obtain ⟨r, ⟨hvar, rfl⟩ | ⟨hvar, rfl⟩⟩ := hm
  · rw [h.head_right] at hv
    exact h.right_apart hv (h.head_left hs ha (by simp [hvar]))
  · refine h.right_apart (v := v) ?_ (h.head_left hs ha hv)
    rw [← h.head_right, hvar]
    simp

/-- The types stay apart whatever variable is bound where a pair meets. -/
theorem assign (h : s.Fits ts [(a, b)]) (hs : s.Proper True) (ha : a.Simple True)
    (hb : b.Simple True) (hts : ∀ t ∈ ts, t.Simple True) (hm : Meet s a b v t) :
    (s.assign v t).Apart ts := by
  have hvt := h.notMem hs ha hm
  obtain ⟨hv, hfree⟩ := hm.free hs ha hb
  obtain ⟨r, ⟨hvar, rfl⟩ | ⟨hvar, rfl⟩⟩ := hm
  · rw [h.head_right] at hvt ⊢
    exact h.apart.assign hs hb hts hv hvt
  · refine h.apart.left.assign_other hs (hs.simple.head ha) hfree hvt hts hv (h.right_apart ?_)
    rw [← h.head_right, hvar]
    simp

/-- The parts of a pair fit where the pair does. -/
theorem parts {θ : Assignment} (h : s.Fits ts [(a, b)]) (hs : s.Proper True) (ha : a.Simple True)
    (hb : b.Simple True) (hra : IsRigid (s.head a)) (hrb : IsRigid (s.head b))
    (heq : (s.head a).ground θ = (s.head b).ground θ) :
    s.Fits ts (Unify.parts (s.head a) (s.head b)).1 := by
  have hflat : (s.head b).Simple False := by
    rw [h.head_right]
    exact h.apart.flat b (by simp)
  obtain ⟨hsimple, hvars⟩ := flatMap_snd_parts hra hrb (hs.simple.head ha) hflat heq
  have hinside := parts_inside (V := fun v => v ∈ s.varsOf ts ∧ s.subst.find? v = none)
    (W := fun v => s.subst.find? v = none) (t := s.head a) (u := s.head b)
    (fun v hv => ⟨h.head_left hs ha hv, hs.find?_of_mem_head ha hv⟩)
    (fun v hv => hs.find?_of_mem_head hb hv)
  have hparts := parts_simple (hs.simple.head ha) (hs.simple.head hb)
  -- The heads are resolved, so their parts stand for themselves.
  have hleft : ∀ p ∈ (Unify.parts (s.head a) (s.head b)).1, s.subst.apply p.1 = p.1 := fun p hp =>
    Substitution.apply_of_free (hparts p hp).1 fun v hv => ((hinside p hp).1 v hv).2
  have hright : ∀ p ∈ (Unify.parts (s.head a) (s.head b)).1, s.subst.apply p.2 = p.2 := fun p hp =>
    Substitution.apply_of_free (hparts p hp).2 (hinside p hp).2
  refine ⟨⟨fun t ht => ?_, ?_⟩, fun p hp v hv => ?_⟩
  · rcases List.mem_append.1 ht with ht | ht
    · exact h.apart.flat t (List.mem_append_left _ ht)
    · obtain ⟨p, hp, rfl⟩ := List.mem_map.1 ht
      rw [hright p hp]
      exact hsimple p hp
  · have hsame : s.varsOf ((Unify.parts (s.head a) (s.head b)).1.map Prod.snd) =
        (s.subst.apply b).freeVars := by
      rw [← h.head_right, ← hvars, varsOf]
      refine List.flatMap_congr fun u hu => ?_
      obtain ⟨p, hp, rfl⟩ := List.mem_map.1 hu
      rw [hright p hp]
    have hnodup := h.apart.nodup
    rw [List.map_singleton, varsOf_append, varsOf_singleton] at hnodup
    rwa [varsOf_append, hsame]
  · rw [hleft p hp] at hv
    exact ((hinside p hp).1 v hv).1

end Solver.Fits

namespace Unify

open Solver

variable {θ : Assignment} {s s' : Solver} {a b t u : Ty} {v : TypeVar} {n : Nat}
  {ps : List (Ty × Ty)} {ts : List Ty} {r : Option Reason}

theorem simple_append (hts : ∀ t ∈ ts, t.Simple True) (hps : AllSimple True ps) :
    ∀ t ∈ ts ++ ps.map Prod.snd, t.Simple True := by
  intro t ht
  rcases List.mem_append.1 ht with ht | ht
  · exact hts t ht
  · obtain ⟨p, hp, rfl⟩ := List.mem_map.1 ht
    exact (hps p hp).2

/-- Whatever pairs of types have a common solution are made equal if the right types are apart. -/
theorem Runs.grants_apart (hrun : Runs n s ps r s') (hs : s.Proper True) (hplain : s.Plain)
    (hps : AllSimple True ps) (hts : ∀ t ∈ ts, t.Simple True) (hθ : s.SolvedBy θ)
    (heq : AllEqual θ ps) (hfits : s.Fits ts ps) :
    r = none ∧ s'.SolvedBy θ ∧ s'.Apart ts ∨ r = some .outOfFuel := by
  induction hrun generalizing ts with
  | nil n s => exact Or.inl ⟨rfl, hθ, by simpa using hfits.apart⟩
  | tooDeep s a b => exact Or.inr rfl
  | @cons n s s₁ s₂ p ps r hrun₁ _ ih₁ ih₂ =>
      have hall := simple_append hts hps.tail
      have hbinds := hrun₁.binds hs hps.head hplain
      obtain ⟨-, hθ₁, hapart⟩ | hfuel := ih₁ hs hplain hps.head hall hθ heq.head hfits.single
      · refine ih₂ hbinds.proper hbinds.plain hps.tail hts hθ₁ heq.tail ⟨hapart, fun p hp => ?_⟩
        exact hbinds.within hs (hps.tail p hp).1 hts (hfits.within p (List.mem_cons_of_mem _ hp))
      · cases hfuel
  | @stop n s s₁ p ps e hrun ih =>
      have hall := simple_append hts hps.tail
      obtain ⟨hnone, -⟩ | hfuel := ih hs hplain hps.head hall hθ heq.head hfits.single
      · cases hnone
      · exact Or.inr hfuel
  | same => exact Or.inl ⟨rfl, hθ.log, hfits.apart.left.congr fun _ _ => rfl⟩
  | @rigid n s a b r s₁ hra hrb _ ih =>
      obtain ⟨ha, hb⟩ := hps.pair
      have hground := hθ.ground_heads hs.simple hps heq
      obtain ⟨hequal, hnone⟩ := parts_of_ground_eq hra hrb (hs.simple.head ha) hground
      have hparts := hfits.parts hs ha hb hra hrb hground
      rw [hnone, Option.or_none]
      exact ih hs.log hplain (parts_simple (hs.simple.head ha) (hs.simple.head hb)) hts hθ.log hequal
        ⟨hparts.apart.congr fun _ _ => rfl, hparts.within⟩
  | @occurs n s a b v t hm hrt hmem => exact absurd hmem (hfits.notMem hs hps.pair.1 hm)
  | @bind n s a b v t r s₁ hm _ hvt hrun _ =>
      obtain ⟨hnone, rfl⟩ := hrun.of_kindPairs_plain hplain
      have hground := hm.ground_eq (hθ.ground_heads hs.simple hps heq)
      have hapart := hfits.assign hs hps.pair.1 hps.pair.2 hts hm
      exact Or.inl ⟨hnone, hθ.log.assign hground, hapart.congr fun _ _ => rfl⟩
  | @join n s a b v w r r' s₁ ha hb hvw hrun _ _ =>
      obtain ⟨-, rfl⟩ := hrun.of_sharedPairs_plain hplain
      have hm : Meet s a b v (.var w r') := ⟨r, Or.inl ⟨ha, hb⟩⟩
      have hground := hm.ground_eq (hθ.ground_heads hs.simple hps heq)
      have hapart := hfits.assign hs hps.pair.1 hps.pair.2 hts hm
      rw [strengthen_plain hplain]
      exact Or.inl ⟨rfl, hθ.log.assign hground, hapart.congr fun _ _ => rfl⟩
  | @joinOccurs n s a b v w r r' s₁ _ ha hb hvw hrun hmem _ =>
      rw [hplain v, hplain w] at hmem
      exact absurd hmem List.not_mem_nil
  | joinStop _ _ _ hrun _ =>
      obtain ⟨hnone, -⟩ := hrun.of_sharedPairs_plain hplain
      cases hnone

end Unify

namespace Solver

open Unify

variable {θ : Assignment} {s : Solver} {a b : Ty} {ts : List Ty}

/-- A type over what some types lead to is made equal to one that is apart from these, if both mean
the same under a solution. The solution stays one, and the types stay apart. -/
theorem Plain.unify_apart (hplain : s.Plain) (hs : s.Proper True) (ha : a.Simple True)
    (hb : b.Simple True) (hts : ∀ t ∈ ts, t.Simple True) (hθ : s.SolvedBy θ)
    (heq : a.ground θ = b.ground θ) (hapart : s.Apart (ts ++ [b]))
    (hin : ∀ v ∈ (s.subst.apply a).freeVars, v ∈ s.varsOf ts) :
    ∃ n s', s.unify a b = (.ok (), s') ∧ Runs n s.forget [(a, b)] none s' ∧ Binds True s s' ∧
      s'.SolvedBy θ ∧ s'.Apart ts := by
  have hs₀ : s.forget.Proper True := hs.forget
  have hps : AllSimple True [(a, b)] := by simp [AllSimple, ha, hb]
  have hequal : AllEqual θ [(a, b)] := by simp [AllEqual, heq]
  have hθ₀ : s.forget.SolvedBy θ := ⟨hθ.binding, hθ.kind⟩
  have hfits : s.forget.Fits ts [(a, b)] :=
    ⟨hapart.congr fun _ _ => rfl, fun p hp => by rw [List.mem_singleton.1 hp]; exact hin⟩
  obtain ⟨r, s', hrun, hunify⟩ := unify_runs hs.simple ha hb
  have hfuel := hrun.ne_outOfFuel_of_plain hs₀ ha hb hplain
  have hbinds := hrun.binds hs₀ hps hplain
  obtain ⟨rfl, hθ', hapart'⟩ | hout := hrun.grants_apart hs₀ hplain hps hts hθ₀ hequal hfits
  · exact ⟨_, s', hunify, hrun, hbinds.of_forget, hθ', hapart'⟩
  · exact absurd hout hfuel

end Solver

end FieldML
