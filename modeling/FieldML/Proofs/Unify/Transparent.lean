import FieldML.Proofs.Unify.Plain

/-!
# Synonyms in comparisons

Where no variable has a record kind, comparisons of types that are equal up to synonyms end in the
same way. There is one exception. An argument of a synonym may mention a variable that the body of
the synonym does not mention, and a variable that occurs only there is still refused.
-/

namespace FieldML

namespace Substitution

variable {syn syn' : Prop} {s s' : Substitution} {t t' : Ty} {v : TypeVar}

/-- The same variables are given types that are equal up to synonyms and ranges. -/
def Alike (s s' : Substitution) : Prop :=
  ∀ v, (s.find? v).map Ty.bare = (s'.find? v).map Ty.bare

namespace Alike

protected theorem refl (s : Substitution) : s.Alike s := fun _ => rfl

protected theorem symm (h : s.Alike s') : s'.Alike s := fun v => (h v).symm

protected theorem bind (h : s.Alike s') (ht : t.Alike t') :
    (s.bind v t).Alike (s'.bind v t') := by
  intro w
  rw [find?_bind, find?_bind]
  split
  · exact congrArg some ht
  · exact h w

theorem bare_follow (h : s.Alike s') (hs : s.Simple syn) (hs' : s'.Simple syn') (n : Nat)
    (v : TypeVar) (r r' : Range) : (s.follow n [] v r).bare = (s'.follow n [] v r').bare := by
  induction n generalizing v r r' with
  | zero => rfl
  | succ n ih =>
      have hv := h v
      cases hfind : s.find? v with
      | none =>
          rw [hfind, Option.map_none, eq_comm, Option.map_eq_none_iff] at hv
          rw [follow_of_none _ hfind, follow_of_none _ hv]
          rfl
      | some t =>
          rw [hfind, Option.map_some, eq_comm, Option.map_eq_some_iff] at hv
          obtain ⟨t', hfind', heq⟩ := hv
          rw [follow_of_some _ hfind, follow_of_some _ hfind',
            (hs v t hfind).bare_mapVars (g := fun w => (s.follow n [] w .erased).bare)
              fun w _ r => Substitution.bare_follow n,
            (hs' v t' hfind').bare_mapVars (g := fun w => (s.follow n [] w .erased).bare)
              fun w _ r => (ih w .erased r).symm, heq]

/-- Alike types are alike after alike substitutions. -/
theorem bare_eq (h : s.Alike s') (hs : s.Triangular syn) (hs' : s'.Triangular syn')
    (ht : t.Simple syn) (ht' : t'.Simple syn') (heq : t.Alike t') : s.bare t = s'.bare t' := by
  -- Both are followed equally often.
  let n := max s.size s'.size
  have hleft : s.apply t = t.mapVars (s.follow n) [] := by
    rw [hs.follow_of_size_le (Nat.le_max_left _ _)]
    rfl
  have hright : s'.apply t' = t'.mapVars (s'.follow n) [] := by
    rw [hs'.follow_of_size_le (Nat.le_max_right _ _)]
    rfl
  rw [bare, bare, hleft, hright,
    ht.bare_mapVars (g := fun w => (s.follow n [] w .erased).bare)
      fun w _ r => Substitution.bare_follow n,
    ht'.bare_mapVars (g := fun w => (s.follow n [] w .erased).bare)
      fun w _ r => (h.bare_follow hs.simple hs'.simple n w .erased r).symm, heq]

end Alike

end Substitution

namespace Unify

open Solver

variable {s s' s₁ s₁' : Solver} {a b a' b' t u : Ty} {v : TypeVar} {n m : Nat}
  {ps ps' : List (Ty × Ty)} {r r' : Option Reason} {syn syn' : Prop}

section Parts

/-- A pair of types with all synonyms expanded and all ranges erased. -/
def barePair (p : Ty × Ty) : Ty × Ty := (p.1.bare, p.2.bare)

/-- A map that works on the parts of a type. -/
structure Partwise (F : Ty → Ty) : Prop where
  base : ∀ b r, F (.base b r) = .base b .erased
  func : ∀ p q r, F (.func p q r) = .func (F p) (F q) .erased
  list : ∀ t r, F (.list t r) = .list (F t) .erased
  ref : ∀ t r, F (.ref t r) = .ref (F t) .erased
  product : ∀ ts r, F (.product ts r) = .product (ts.map F) .erased
  variant : ∀ n ts r, F (.variant n ts r) = .variant n (ts.map F) .erased
  record : ∀ fs r, F (.record fs r) = .record (fs.map fun p => (p.1, F p.2)) .erased

theorem partwise_bare : Partwise Ty.bare :=
  ⟨fun _ _ => rfl, fun _ _ _ => rfl, fun _ _ => rfl, fun _ _ => rfl, Ty.bare_product,
    Ty.bare_variant, Ty.bare_record⟩

theorem fieldPairs_map (F : Ty → Ty) (fs gs : List (String × Ty)) :
    fieldPairs (fs.map fun p => (p.1, F p.2)) (gs.map fun p => (p.1, F p.2)) =
      ((fieldPairs fs gs).1.map (Prod.map F F), (fieldPairs fs gs).2) := by
  induction fs with
  | nil => rfl
  | cons f fs ih =>
      obtain ⟨n, t⟩ := f
      have hget : Fields.get? (gs.map fun p => (p.1, F p.2)) n = (Fields.get? gs n).map F :=
        Fields.get?_map F gs n
      cases h : Fields.get? gs n with
      | none => simp [fieldPairs, hget, h]
      | some u => simp [fieldPairs, hget, h, ih]

theorem recordPairs_map (F : Ty → Ty) (fs gs : List (String × Ty)) :
    recordPairs (fs.map fun p => (p.1, F p.2)) (gs.map fun p => (p.1, F p.2)) =
      ((recordPairs fs gs).1.map (Prod.map F F), (recordPairs fs gs).2) := by
  have hmissing : ∀ (fs : List (String × Ty)) (n : String),
      (Fields.get? (fs.map fun p => (p.1, F p.2)) n).isNone = (Fields.get? fs n).isNone := by
    intro fs n
    rw [Fields.get?_map F fs n, Option.isNone_map]
  simp only [recordPairs, Fields.names_map F, hmissing, fieldPairs_map F]
  split <;> rfl

theorem componentPairs_map (F : Ty → Ty) (ts us : List Ty) :
    componentPairs (ts.map F) (us.map F) =
      ((componentPairs ts us).1.map (Prod.map F F), (componentPairs ts us).2) := by
  simp only [componentPairs, List.length_map]
  split
  · rw [List.zip_map]
  · rfl

/-- The parts of two types become those of what the types become. -/
theorem Partwise.parts {F : Ty → Ty} (hF : Partwise F) (ht : IsRigid t) (hu : IsRigid u) :
    parts (F t) (F u) = ((parts t u).1.map (Prod.map F F), (parts t u).2) := by
  cases t <;> first | exact ht.elim | skip
  all_goals cases u <;> first | exact hu.elim | skip
  all_goals
    simp only [hF.base, hF.func, hF.list, hF.ref, hF.product, hF.variant, hF.record, Unify.parts]
  case product.product => exact componentPairs_map F _ _
  case variant.variant =>
    split
    · exact componentPairs_map F _ _
    · rfl
  case record.record => exact recordPairs_map F _ _
  all_goals rfl

theorem Partwise.isRigid {F : Ty → Ty} (hF : Partwise F) (ht : IsRigid t) : IsRigid (F t) := by
  cases t <;> first
    | exact ht.elim
    | simp only [hF.base, hF.func, hF.list, hF.ref, hF.product, hF.variant, hF.record]
      trivial

/-- The parts of two types depend on what their synonyms stand for only. -/
theorem parts_bare (ht : IsRigid t) (hu : IsRigid u) :
    parts t.bare u.bare = ((parts t u).1.map barePair, (parts t u).2) := partwise_bare.parts ht hu

theorem parts_alike (ht : IsRigid a) (hu : IsRigid b) (ht' : IsRigid a') (hu' : IsRigid b')
    (ha : a.Alike a') (hb : b.Alike b') :
    (parts a b).1.map barePair = (parts a' b').1.map barePair ∧
      (parts a b).2 = (parts a' b').2 := by
  have heq := parts_bare ht hu
  rw [ha, hb, parts_bare ht' hu'] at heq
  exact (Prod.mk.inj heq).imp Eq.symm Eq.symm

theorem IsRigid.bare (ht : IsRigid t) : IsRigid t.bare := partwise_bare.isRigid ht

theorem eq_var_of_alike {r : Range} (hu : (∃ v r, u = .var v r) ∨ IsRigid u)
    (h : (Ty.var v r).Alike u) : ∃ r', u = .var v r' := by
  rcases hu with ⟨w, r', rfl⟩ | hu
  · obtain ⟨rfl, -⟩ := Ty.var.inj h
    exact ⟨r', rfl⟩
  · have hbare := hu.bare
    rw [← h] at hbare
    exact hbare.elim

theorem IsRigid.of_alike (ht : IsRigid t) (hu : (∃ v r, u = .var v r) ∨ IsRigid u)
    (h : t.Alike u) : IsRigid u := by
  rcases hu with ⟨w, r', rfl⟩ | hu
  · have hbare := ht.bare
    rw [h] at hbare
    exact hbare.elim
  · exact hu

end Parts

namespace Meet

variable {w w' : TypeVar} {ra rb : Range}

theorem not_vars (hm : Meet s a b v t) (ht : IsRigid t) (ha : s.head a = .var w ra)
    (hb : s.head b = .var w' rb) : False := by
  obtain ⟨r, ⟨-, rfl⟩ | ⟨-, rfl⟩⟩ := hm
  · rwa [hb] at ht
  · rwa [ha] at ht

theorem not_rigid (hm : Meet s a b v t) (hra : IsRigid (s.head a)) (hrb : IsRigid (s.head b)) :
    False := by
  obtain ⟨r, ⟨hv, -⟩ | ⟨hv, -⟩⟩ := hm
  · rwa [hv] at hra
  · rwa [hv] at hrb

theorem unique (hm : Meet s a b v t) (hm' : Meet s a b w u) (ht : IsRigid t) (hu : IsRigid u) :
    v = w ∧ t = u := by
  obtain ⟨r, ⟨hv, rfl⟩ | ⟨hv, rfl⟩⟩ := hm <;> obtain ⟨r', ⟨hw, rfl⟩ | ⟨hw, rfl⟩⟩ := hm'
  · exact ⟨(Ty.var.inj (hv.symm.trans hw)).1, rfl⟩
  · rw [hv] at hu
    exact hu.elim
  · rw [hv] at hu
    exact hu.elim
  · exact ⟨(Ty.var.inj (hv.symm.trans hw)).1, rfl⟩

end Meet

/-- How the comparison of two types can end while no variable has a record kind. -/
inductive PlainEnd (s : Solver) (a b : Ty) : Option Reason → Solver → Prop
  | tooDeep : PlainEnd s a b (some .outOfFuel) s
  | same {v : TypeVar} {ra rb : Range} : s.head a = .var v ra → s.head b = .var v rb →
      PlainEnd s a b none (s.log (s.head a) (s.head b))
  | rigid {n : Nat} {r : Option Reason} {s₁ : Solver} : IsRigid (s.head a) → IsRigid (s.head b) →
      Runs n (s.log (s.head a) (s.head b)) (parts (s.head a) (s.head b)).1 r s₁ →
      PlainEnd s a b (r.or (parts (s.head a) (s.head b)).2) s₁
  | occurs {v : TypeVar} {t : Ty} : Meet s a b v t → IsRigid t → v ∈ t.freeVars →
      PlainEnd s a b (some (.occurs v t)) (s.log (s.head a) (s.head b))
  | bind {v : TypeVar} {t : Ty} : Meet s a b v t → IsRigid t → v ∉ t.freeVars →
      PlainEnd s a b none ((s.log (s.head a) (s.head b)).assign v t)
  | join {v w : TypeVar} {ra rb : Range} : s.head a = .var v ra → s.head b = .var w rb → v ≠ w →
      PlainEnd s a b none ((s.log (s.head a) (s.head b)).assign v (.var w rb))

theorem Runs.plainEnd (hrun : Runs n s [(a, b)] r s') (hplain : s.Plain) :
    PlainEnd s a b r s' := by
  -- By induction only because a single pair may be compared with an empty rest after it.
  generalize hps : [(a, b)] = ps at hrun
  induction hrun with
  | nil => simp at hps
  | cons _ hrun₂ ih₁ _ =>
      obtain ⟨rfl, rfl⟩ := List.cons.inj hps
      obtain ⟨rfl, rfl⟩ := hrun₂.of_nil
      exact ih₁ hplain rfl
  | stop _ ih =>
      obtain ⟨rfl, rfl⟩ := List.cons.inj hps
      exact ih hplain rfl
  | tooDeep =>
      obtain ⟨rfl, rfl⟩ := Prod.mk.inj (List.cons.inj hps).1
      exact .tooDeep
  | same ha hb =>
      obtain ⟨rfl, rfl⟩ := Prod.mk.inj (List.cons.inj hps).1
      exact .same ha hb
  | rigid hra hrb hrun _ =>
      obtain ⟨rfl, rfl⟩ := Prod.mk.inj (List.cons.inj hps).1
      exact .rigid hra hrb hrun
  | occurs hm ht hvt =>
      obtain ⟨rfl, rfl⟩ := Prod.mk.inj (List.cons.inj hps).1
      exact .occurs hm ht hvt
  | bind hm ht hvt hrun _ =>
      obtain ⟨rfl, rfl⟩ := Prod.mk.inj (List.cons.inj hps).1
      obtain ⟨hnone, rfl⟩ := hrun.of_kindPairs_plain hplain
      rw [hnone]
      exact .bind hm ht hvt
  | @join n s a b v w r r' s₁ ha hb hvw hrun _ _ =>
      obtain ⟨rfl, rfl⟩ := Prod.mk.inj (List.cons.inj hps).1
      obtain ⟨-, rfl⟩ := hrun.of_sharedPairs_plain hplain
      rw [strengthen_plain hplain]
      exact .join ha hb hvw
  | @joinOccurs n s a b v w r r' s₁ _ _ _ _ _ hw _ =>
      rw [hplain v, hplain w] at hw
      exact absurd hw List.not_mem_nil
  | joinStop _ _ _ hrun _ =>
      obtain ⟨hnone, -⟩ := hrun.of_sharedPairs_plain hplain
      simp at hnone

namespace PlainEnd

variable {w : TypeVar} {ra rb : Range}

theorem of_vars (h : PlainEnd s a b r s') (ha : s.head a = .var v ra) (hb : s.head b = .var w rb) :
    r = some .outOfFuel ∨ v = w ∧ r = none ∧ s' = s.log (s.head a) (s.head b) ∨
      v ≠ w ∧ r = none ∧ s' = (s.log (s.head a) (s.head b)).assign v (.var w rb) := by
  cases h with
  | tooDeep => exact Or.inl rfl
  | same ha' hb' =>
      obtain ⟨rfl, -⟩ := Ty.var.inj (ha.symm.trans ha')
      exact Or.inr (Or.inl ⟨(Ty.var.inj (hb'.symm.trans hb)).1, rfl, rfl⟩)
  | rigid hra _ _ => exact (ha ▸ hra : IsRigid (.var v ra)).elim
  | occurs hm ht _ => exact (hm.not_vars ht ha hb).elim
  | bind hm ht _ => exact (hm.not_vars ht ha hb).elim
  | join ha' hb' hvw =>
      obtain ⟨rfl, -⟩ := Ty.var.inj (ha.symm.trans ha')
      obtain ⟨rfl, rfl⟩ := Ty.var.inj (hb.symm.trans hb')
      exact Or.inr (Or.inr ⟨hvw, rfl, rfl⟩)

theorem of_rigid (h : PlainEnd s a b r s') (hra : IsRigid (s.head a)) (hrb : IsRigid (s.head b)) :
    r = some .outOfFuel ∨ ∃ n r₀,
      Runs n (s.log (s.head a) (s.head b)) (parts (s.head a) (s.head b)).1 r₀ s' ∧
        r = r₀.or (parts (s.head a) (s.head b)).2 := by
  cases h with
  | tooDeep => exact Or.inl rfl
  | same ha _ => exact (ha ▸ hra : IsRigid (.var _ _)).elim
  | rigid _ _ hrun => exact Or.inr ⟨_, _, hrun, rfl⟩
  | occurs hm _ _ => exact (hm.not_rigid hra hrb).elim
  | bind hm _ _ => exact (hm.not_rigid hra hrb).elim
  | join ha _ _ => exact (ha ▸ hra : IsRigid (.var _ _)).elim

theorem of_meet (h : PlainEnd s a b r s') (hm : Meet s a b v t) (ht : IsRigid t) :
    r = some .outOfFuel ∨ v ∈ t.freeVars ∧ r = some (.occurs v t) ∨
      v ∉ t.freeVars ∧ r = none ∧ s' = (s.log (s.head a) (s.head b)).assign v t := by
  cases h with
  | tooDeep => exact Or.inl rfl
  | same ha hb => exact (hm.not_vars ht ha hb).elim
  | rigid hra hrb _ => exact (hm.not_rigid hra hrb).elim
  | occurs hm' ht' hvt =>
      obtain ⟨rfl, rfl⟩ := hm.unique hm' ht ht'
      exact Or.inr (Or.inl ⟨hvt, rfl⟩)
  | bind hm' ht' hvt =>
      obtain ⟨rfl, rfl⟩ := hm.unique hm' ht ht'
      exact Or.inr (Or.inr ⟨hvt, rfl, rfl⟩)
  | join ha hb _ => exact (hm.not_vars ht ha hb).elim

end PlainEnd

/-- Several pairs are compared one by one, until one fails. -/
theorem Runs.of_cons {p : Ty × Ty} (hrun : Runs n s (p :: ps) r s') :
    (∃ s₁, Runs n s [p] none s₁ ∧ Runs n s₁ ps r s') ∨
      ∃ e, r = some e ∧ Runs n s [p] (some e) s' := by
  cases ps with
  | nil =>
      cases r with
      | none => exact Or.inl ⟨s', hrun, .nil n s'⟩
      | some e => exact Or.inr ⟨e, rfl, hrun⟩
  | cons q ps =>
      cases hrun with
      | cons hrun₁ hrun₂ => exact Or.inl ⟨_, hrun₁, hrun₂⟩
      | stop hrun => exact Or.inr ⟨_, rfl, hrun⟩

/-- The comparison was cut short, or a variable occurs in an argument of a synonym only, which
expanding the synonyms removes. -/
def Spurious : Option Reason → Prop
  | some .outOfFuel => True
  | some (.occurs v t) => v ∈ t.freeVars ∧ v ∉ t.bare.freeVars
  | _ => False

theorem head_alike (hs : s.Proper syn) (hs' : s'.Proper syn') (hss : s.subst.Alike s'.subst)
    (ha : a.Simple syn) (ha' : a'.Simple syn') (heq : a.Alike a') :
    (s.head a).Alike (s'.head a') := by
  rw [Ty.Alike, head, head, Ty.bare_expand, Ty.bare_expand]
  exact hss.bare_eq hs.triangular hs'.triangular ha ha' heq

theorem alike_single {p : Ty × Ty} (h : [p].map barePair = ps'.map barePair) :
    ∃ p', ps' = [p'] ∧ p.1.Alike p'.1 ∧ p.2.Alike p'.2 := by
  obtain ⟨p', ps, rfl, hp, hps⟩ := List.map_eq_cons_iff.1 h.symm
  obtain rfl := List.map_eq_nil_iff.1 hps
  obtain ⟨h₁, h₂⟩ := Prod.mk.inj hp
  exact ⟨p', rfl, h₁.symm, h₂.symm⟩

theorem Meet.alike_meet (hm : Meet s a b v t) (ht : IsRigid t)
    (ha : (s.head a).Alike (s'.head a')) (hb : (s.head b).Alike (s'.head b'))
    (hfa : (∃ v r, s'.head a' = .var v r) ∨ IsRigid (s'.head a'))
    (hfb : (∃ v r, s'.head b' = .var v r) ∨ IsRigid (s'.head b')) :
    ∃ t', Meet s' a' b' v t' ∧ IsRigid t' ∧ t.Alike t' := by
  obtain ⟨r, ⟨hv, rfl⟩ | ⟨hv, rfl⟩⟩ := hm
  · rw [hv] at ha
    obtain ⟨r', hv'⟩ := eq_var_of_alike hfa ha
    exact ⟨_, ⟨r', Or.inl ⟨hv', rfl⟩⟩, ht.of_alike hfb hb, hb⟩
  · rw [hv] at hb
    obtain ⟨r', hv'⟩ := eq_var_of_alike hfb hb
    exact ⟨_, ⟨r', Or.inr ⟨hv', rfl⟩⟩, ht.of_alike hfa ha, ha⟩

/-- A comparison that succeeds also succeeds on alike types in an alike state, with alike results,
unless it meets a spurious obstacle. -/
theorem Runs.transparent (hrun : Runs n s ps r s₁) (hr : r = none)
    (hrun' : Runs m s' ps' r' s₁') (hs : s.Proper syn) (hs' : s'.Proper syn') (hplain : s.Plain)
    (hplain' : s'.Plain) (hps : AllSimple syn ps) (hps' : AllSimple syn' ps')
    (hss : s.subst.Alike s'.subst) (hpairs : ps.map barePair = ps'.map barePair) :
    r' = none ∧ s₁.subst.Alike s₁'.subst ∨ Spurious r' := by
  induction hrun generalizing m s' ps' r' s₁' with
  | nil n s =>
      obtain rfl := List.map_eq_nil_iff.1 hpairs.symm
      obtain ⟨rfl, rfl⟩ := hrun'.of_nil
      exact Or.inl ⟨rfl, hss⟩
  | tooDeep | stop | occurs | joinOccurs | joinStop => simp at hr
  | @cons n s s₁ s₂ p ps r hrun₁ hrun₂ ih₁ ih₂ =>
      obtain ⟨p', ps'', rfl, hp, hpairs⟩ := List.map_eq_cons_iff.1 hpairs.symm
      have h₁ := hrun₁.binds hs hps.head hplain
      have hsingle : [p].map barePair = [p'].map barePair := by simp [hp]
      rcases hrun'.of_cons with ⟨s₁', hrun₁', hrun₂'⟩ | ⟨e, rfl, hrun₁'⟩
      · have h₁' := hrun₁'.binds hs' hps'.head hplain'
        rcases ih₁ rfl hrun₁' hs hs' hplain hplain' hps.head hps'.head hss hsingle with
          ⟨-, hss⟩ | hspurious
        · exact ih₂ hr hrun₂' h₁.proper h₁'.proper h₁.plain h₁'.plain hps.tail hps'.tail hss
            hpairs.symm
        · exact hspurious.elim
      · rcases ih₁ rfl hrun₁' hs hs' hplain hplain' hps.head hps'.head hss hsingle with
          ⟨hnone, -⟩ | hspurious
        · simp at hnone
        · exact Or.inr hspurious
  | @same n s a b v ra rb ha hb =>
      obtain ⟨⟨a', b'⟩, rfl, hxa, hxb⟩ := alike_single hpairs
      obtain ⟨hsa, hsb⟩ := hps.pair
      obtain ⟨hsa', hsb'⟩ := hps'.pair
      have hya := head_alike hs hs' hss hsa hsa' hxa
      have hyb := head_alike hs hs' hss hsb hsb' hxb
      rw [ha] at hya
      rw [hb] at hyb
      obtain ⟨ra', ha'⟩ := eq_var_of_alike (var_or_isRigid_head hs'.simple hsa') hya
      obtain ⟨rb', hb'⟩ := eq_var_of_alike (var_or_isRigid_head hs'.simple hsb') hyb
      rcases (hrun'.plainEnd hplain').of_vars ha' hb' with rfl | ⟨-, rfl, rfl⟩ | ⟨hne, -⟩
      · exact Or.inr trivial
      · exact Or.inl ⟨rfl, hss⟩
      · exact absurd rfl hne
  | @rigid n s a b r s₁ hra hrb hrun ih =>
      obtain ⟨⟨a', b'⟩, rfl, hxa, hxb⟩ := alike_single hpairs
      obtain ⟨hsa, hsb⟩ := hps.pair
      obtain ⟨hsa', hsb'⟩ := hps'.pair
      have hya := head_alike hs hs' hss hsa hsa' hxa
      have hyb := head_alike hs hs' hss hsb hsb' hxb
      have hra' := hra.of_alike (var_or_isRigid_head hs'.simple hsa') hya
      have hrb' := hrb.of_alike (var_or_isRigid_head hs'.simple hsb') hyb
      obtain ⟨hparts, hreason⟩ := parts_alike hra hrb hra' hrb' hya hyb
      obtain ⟨rfl, hnone⟩ := Option.or_eq_none_iff.1 hr
      rw [hnone] at hreason
      rcases (hrun'.plainEnd hplain').of_rigid hra' hrb' with rfl | ⟨m', r₀, hrun₀, rfl⟩
      · exact Or.inr trivial
      · rw [← hreason, Option.or_none]
        exact ih rfl hrun₀ hs.log hs'.log hplain hplain'
          (parts_simple (hs.simple.head hsa) (hs.simple.head hsb))
          (parts_simple (hs'.simple.head hsa') (hs'.simple.head hsb')) hss hparts
  | @bind n s a b v t r s₁ hm ht hvt hrun _ =>
      obtain ⟨⟨a', b'⟩, rfl, hxa, hxb⟩ := alike_single hpairs
      obtain ⟨hsa, hsb⟩ := hps.pair
      obtain ⟨hsa', hsb'⟩ := hps'.pair
      have hya := head_alike hs hs' hss hsa hsa' hxa
      have hyb := head_alike hs hs' hss hsb hsb' hxb
      obtain ⟨-, rfl⟩ := hrun.of_kindPairs_plain hplain
      obtain ⟨t', hm', ht', halike⟩ := hm.alike_meet ht hya hyb
        (var_or_isRigid_head hs'.simple hsa') (var_or_isRigid_head hs'.simple hsb')
      rcases (hrun'.plainEnd hplain').of_meet hm' ht' with rfl | ⟨hvt', rfl⟩ | ⟨-, rfl, rfl⟩
      · exact Or.inr trivial
      · refine Or.inr ⟨hvt', fun hv => hvt ?_⟩
        exact (hm.simple hs.simple hsa hsb).mem_freeVars_of_bare (halike ▸ hv)
      · exact Or.inl ⟨rfl, hss.bind halike⟩
  | @join n s a b v w ra rb s₁ ha hb hvw hrun _ _ =>
      obtain ⟨⟨a', b'⟩, rfl, hxa, hxb⟩ := alike_single hpairs
      obtain ⟨hsa, hsb⟩ := hps.pair
      obtain ⟨hsa', hsb'⟩ := hps'.pair
      have hya := head_alike hs hs' hss hsa hsa' hxa
      have hyb := head_alike hs hs' hss hsb hsb' hxb
      rw [ha] at hya
      rw [hb] at hyb
      obtain ⟨-, rfl⟩ := hrun.of_sharedPairs_plain hplain
      rw [strengthen_plain hplain]
      obtain ⟨ra', ha'⟩ := eq_var_of_alike (var_or_isRigid_head hs'.simple hsa') hya
      obtain ⟨rb', hb'⟩ := eq_var_of_alike (var_or_isRigid_head hs'.simple hsb') hyb
      rcases (hrun'.plainEnd hplain').of_vars ha' hb' with rfl | ⟨heq, -⟩ | ⟨-, rfl, rfl⟩
      · exact Or.inr trivial
      · exact absurd heq hvw
      · exact Or.inl ⟨rfl, hss.bind rfl⟩

end Unify

namespace Solver

open Unify

variable {syn syn' : Prop} {s s' : Solver} {a b a' b' : Ty}

/-- A call that is granted is granted on alike types in an alike state, with alike results, unless
a variable occurs there in an argument of a synonym whose body does not mention it. -/
theorem unify_transparent (hs : s.Proper syn) (hs' : s'.Proper syn') (hplain : s.Plain)
    (hplain' : s'.Plain) (hss : s.subst.Alike s'.subst) (ha : a.Simple syn) (hb : b.Simple syn)
    (ha' : a'.Simple syn') (hb' : b'.Simple syn') (heqa : a.Alike a') (heqb : b.Alike b')
    (hok : (s.unify a b).1 = .ok ()) :
    (s'.unify a' b').1 = .ok () ∧ (s.unify a b).2.subst.Alike (s'.unify a' b').2.subst ∨
      ∃ e v t, (s'.unify a' b').1 = .error e ∧ e.reason = .occurs v t ∧ v ∈ t.freeVars ∧
        v ∉ t.bare.freeVars := by
  have hs₀ : s.forget.Proper syn := hs.forget
  have hs₀' : s'.forget.Proper syn' := hs'.forget
  obtain ⟨r, s₁, hrun, hunify⟩ := unify_runs hs.simple ha hb
  obtain ⟨r', s₁', hrun', hunify'⟩ := unify_runs hs'.simple ha' hb'
  have hfuel := hrun'.ne_outOfFuel_of_plain hs₀' ha' hb' hplain'
  obtain rfl : r = none := by
    rw [hunify] at hok
    cases r with
    | none => rfl
    | some e => simp at hok
  have hpair : [(a, b)].map barePair = [(a', b')].map barePair := by
    simp only [List.map_cons, List.map_nil, barePair]
    rw [heqa, heqb]
  rw [hunify, hunify']
  rcases hrun.transparent rfl hrun' hs₀ hs₀' hplain hplain' (by simp [AllSimple, ha, hb])
    (by simp [AllSimple, ha', hb']) hss hpair with ⟨rfl, halike⟩ | hspurious
  · exact Or.inl ⟨rfl, halike⟩
  · rcases r' with - | reason
    · exact hspurious.elim
    · cases reason with
      | outOfFuel => exact absurd rfl hfuel
      | occurs v t => exact Or.inr ⟨_, v, t, rfl, rfl, hspurious⟩
      | _ => exact hspurious.elim

end Solver

end FieldML
