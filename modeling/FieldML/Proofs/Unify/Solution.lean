import FieldML.Proofs.Unify.Fuel
import FieldML.Proofs.Unify.Rank

/-!
# Solutions

An assignment solves a solver if it agrees with the substitution and meets every kind. Comparing
types that mean the same under a solution cannot fail, and keeps the solution.
-/

namespace FieldML

theorem GroundTy.hasFields_groundFields {θ : Assignment} {τ : GroundTy} {fs : List (String × Ty)} :
    τ.HasFields (Ty.groundFields θ fs) ↔
      ∃ gs, τ = .record gs ∧ ∀ p ∈ fs, Fields.get? gs p.1 = some (p.2.ground θ) := by
  simp only [HasFields, Ty.groundFields_eq_map, List.mem_map, forall_exists_index, and_imp,
    forall_apply_eq_imp_iff₂]

namespace Ty

variable {syn : Prop} {θ : Assignment} {t u : Ty}

theorem Simple.ground_bare (ht : t.Simple syn) : t.bare.ground θ = t.ground θ := by
  induction ht with
  | base b r => rfl
  | var v r => rfl
  | func r hp hq ihp ihq => simp only [bare, ground, ihp, ihq]
  | list r ht ih => simp only [bare, ground, ih]
  | ref r ht ih => simp only [bare, ground, ih]
  | product r hts ih =>
      simp only [bare_product, ground_product, List.map_map, GroundTy.product.injEq]
      exact List.map_congr_left ih
  | variant n r hts ih =>
      simp only [bare_variant, ground_variant, List.map_map, GroundTy.variant.injEq, true_and]
      exact List.map_congr_left ih
  | synonym n r hsyn hts ht hvars ihts iht => simpa only [bare, ground] using iht
  | record r hsorted hfs ih =>
      simp only [bare_record, ground_record, List.map_map, GroundTy.record.injEq]
      exact List.map_congr_left fun p hp => by simp [ih p hp]

end Ty

namespace Substitution

variable {syn : Prop} {s : Substitution} {θ : Assignment} {t u : Ty}

theorem SolvedBy.ground_eq (h : s.SolvedBy θ) (hs : s.Simple syn) (ht : t.Simple syn)
    (hu : u.Simple syn) (heq : s.bare t = s.bare u) : t.ground θ = u.ground θ :=
  calc
    t.ground θ = (s.bare t).ground θ := by
      rw [bare, (hs.apply ht).ground_bare, h.ground_apply hs ht]
    _ = (s.bare u).ground θ := by rw [heq]
    _ = u.ground θ := by rw [bare, (hs.apply hu).ground_bare, h.ground_apply hs hu]

/-- What the variables mean once each is followed to its end, where those that stay free mean the
unit type. -/
def solution (s : Substitution) : Assignment := fun v =>
  (s.apply (.var v .erased)).ground fun _ => .base .unit

theorem Triangular.solvedBy_solution (h : s.Triangular syn) : s.SolvedBy s.solution := by
  intro v t hv
  rw [solution, h.apply_var_of_some hv]
  refine (h.simple v t hv).ground_mapVars fun w _ r => ?_
  have hfollow : (s.apply (.var w r)).bare = (s.apply (.var w .erased)).bare := bare_follow _
  have hw : ∀ r, (s.apply (.var w r)).Simple syn := fun r => h.simple.apply (.var w r)
  change (s.apply (.var w r)).ground _ = (s.apply (.var w .erased)).ground _
  rw [← (hw r).ground_bare, hfollow, (hw .erased).ground_bare]

end Substitution

/-- The assignment agrees with all that is known: every variable means what its type means, and has
the fields that its kind asks for. -/
structure Solver.SolvedBy (θ : Assignment) (s : Solver) : Prop where
  binding : s.subst.SolvedBy θ
  kind : ∀ v, (s.kindOf v).Admits θ (θ v)

namespace Unify

variable {syn : Prop} {θ : Assignment} {s s' : Solver} {t u : Ty} {k l : Kind} {v w : TypeVar}
  {n : Nat} {ps : List (Ty × Ty)} {r : Option Reason}

/-- Both types of every pair mean the same. -/
def AllEqual (θ : Assignment) (ps : List (Ty × Ty)) : Prop :=
  ∀ p ∈ ps, p.1.ground θ = p.2.ground θ

theorem AllEqual.head {p : Ty × Ty} (hps : AllEqual θ (p :: ps)) : AllEqual θ [p] :=
  fun _ hq => hps _ (by simpa using Or.inl hq)

theorem AllEqual.tail {p : Ty × Ty} (hps : AllEqual θ (p :: ps)) : AllEqual θ ps :=
  fun _ hq => hps _ (List.mem_cons_of_mem _ hq)

section Pairs

variable {fs gs : List (String × Ty)}

theorem fieldPairs_snd_eq_none (h : ∀ p ∈ fs, Fields.get? gs p.1 ≠ none) :
    (fieldPairs fs gs).2 = none := by
  induction fs with
  | nil => rfl
  | cons p fs ih =>
      obtain ⟨u, hu⟩ := Option.ne_none_iff_exists'.1 (h p List.mem_cons_self)
      simp only [fieldPairs, hu]
      exact ih fun q hq => h q (List.mem_cons_of_mem _ hq)

theorem recordPairs_of_ground_eq (hfs : Fields.Sorted fs)
    (heq : Ty.groundFields θ fs = Ty.groundFields θ gs) :
    AllEqual θ (recordPairs fs gs).1 ∧ (recordPairs fs gs).2 = none := by
  have hnames : Fields.names fs = Fields.names gs := by
    have := congrArg Fields.names heq
    rwa [Ty.names_groundFields, Ty.names_groundFields] at this
  have hget : ∀ n, (Fields.get? fs n).map (Ty.ground θ) = (Fields.get? gs n).map (Ty.ground θ) := by
    intro n
    rw [← Ty.get?_groundFields, heq, Ty.get?_groundFields]
  have hmissing : (Fields.names fs).find? (fun n => (Fields.get? gs n).isNone) = none := by
    simp only [List.find?_eq_none, Option.isNone_iff_eq_none, Fields.get?_eq_none, ← hnames]
    exact fun n hn hnot => hnot hn
  have hextra : (Fields.names gs).find? (fun n => (Fields.get? fs n).isNone) = none := by
    simp only [List.find?_eq_none, Option.isNone_iff_eq_none, Fields.get?_eq_none, hnames]
    exact fun n hn hnot => hnot hn
  constructor
  · intro p hp
    obtain ⟨n, hn, hu⟩ := mem_recordPairs hp
    have := hget n
    rw [Fields.get?_of_mem hfs hn, hu] at this
    exact Option.some.inj this
  · unfold recordPairs
    simp only [hmissing, hextra]
    rw [fieldPairs_snd_eq_none, Option.map_none]
    intro p hp hnone
    rw [Fields.get?_eq_none, ← hnames] at hnone
    exact hnone (Fields.mem_names.2 ⟨p.2, hp⟩)

theorem componentPairs_of_ground_eq {ts us : List Ty}
    (heq : ts.map (Ty.ground θ) = us.map (Ty.ground θ)) :
    AllEqual θ (componentPairs ts us).1 ∧ (componentPairs ts us).2 = none := by
  have hlength : ts.length = us.length := by simpa using congrArg List.length heq
  simp only [componentPairs, hlength, if_true, and_true]
  clear hlength
  induction ts generalizing us with
  | nil => simp [AllEqual]
  | cons t ts ih =>
      cases us with
      | nil => simp [AllEqual]
      | cons u us =>
          simp only [List.map_cons, List.cons.injEq] at heq
          intro p hp
          rcases List.mem_cons.1 hp with rfl | hp
          · exact heq.1
          · exact ih heq.2 p hp

/-- Rigid types that mean the same have parts that mean the same. -/
theorem parts_of_ground_eq (hrt : IsRigid t) (hru : IsRigid u) (ht : t.Simple syn)
    (heq : t.ground θ = u.ground θ) : AllEqual θ (parts t u).1 ∧ (parts t u).2 = none := by
  cases t <;> first | exact hrt.elim | skip
  all_goals cases u <;> first | exact hru.elim | skip
  case base.base => simp_all [parts, Ty.ground, AllEqual]
  case func.func => simp_all [parts, Ty.ground, AllEqual]
  case list.list => simp_all [parts, Ty.ground, AllEqual]
  case ref.ref => simp_all [parts, Ty.ground, AllEqual]
  case product.product => exact componentPairs_of_ground_eq (by simpa using heq)
  case variant.variant n ts r m us r' =>
    simp only [Ty.ground_variant, GroundTy.variant.injEq] at heq
    simpa only [parts, heq.1, if_true] using componentPairs_of_ground_eq heq.2
  case record.record =>
    cases ht with
    | record _ hsorted _ =>
        exact recordPairs_of_ground_eq hsorted (by simpa [Ty.ground] using heq)
  all_goals simp [Ty.ground] at heq

/-- A rigid type that a kind allows has the fields that the kind asks for. -/
theorem kindPairs_of_admits (hrt : IsRigid t) (hk : k.Admits θ (t.ground θ)) :
    AllEqual θ (kindPairs k t).1 ∧ (kindPairs k t).2 = none := by
  cases k with
  | universal => simp [kindPairs, AllEqual]
  | record required =>
      obtain ⟨gs, hgs, hfields⟩ := GroundTy.hasFields_groundFields.1 hk
      cases t <;> first | exact hrt.elim | skip
      case record fs r =>
        simp only [Ty.ground, GroundTy.record.injEq] at hgs
        subst hgs
        simp only [Ty.get?_groundFields] at hfields
        constructor
        · intro p hp
          obtain ⟨n, hn, hu⟩ := mem_fieldPairs hp
          simpa [hu, eq_comm] using hfields _ hn
        · simp only [kindPairs]
          rw [fieldPairs_snd_eq_none, Option.map_none]
          intro p hp hnone
          simpa [hnone] using hfields p hp
      all_goals simp [Ty.ground] at hgs

/-- Fields that two kinds share mean the same if a type is allowed by both. -/
theorem sharedPairs_of_admits {τ : GroundTy} (hk : k.Admits θ τ) (hl : l.Admits θ τ) :
    AllEqual θ (sharedPairs k l) := by
  intro p hp
  obtain ⟨n, hget, hn⟩ := mem_sharedPairs hp
  cases k with
  | universal => simp [Kind.fields, Fields.get?] at hget
  | record fs =>
      cases l with
      | universal => simp [Kind.fields] at hn
      | record gs =>
          obtain ⟨τs, rfl, hfs⟩ := GroundTy.hasFields_groundFields.1 hk
          obtain ⟨τs', heq, hgs⟩ := GroundTy.hasFields_groundFields.1 hl
          obtain rfl := GroundTy.record.inj heq
          have h₁ := hfs _ (Fields.mem_of_get? hget)
          have h₂ := hgs _ hn
          simp only at h₁ h₂
          exact Option.some.inj (h₁.symm.trans h₂)

theorem mergedKind_admits {τ : GroundTy} (hk : k.Admits θ τ) (hl : l.Admits θ τ) :
    (mergedKind k l).Admits θ τ := by
  cases k with
  | universal => exact hl
  | record fs =>
      cases l with
      | universal => exact hk
      | record gs =>
          obtain ⟨τs, rfl, hfs⟩ := GroundTy.hasFields_groundFields.1 hk
          obtain ⟨τs', heq, hgs⟩ := GroundTy.hasFields_groundFields.1 hl
          obtain rfl := GroundTy.record.inj heq
          refine GroundTy.hasFields_groundFields.2 ⟨τs, rfl, fun p hp => ?_⟩
          exact (mem_mergeFields hp).elim (hfs p) (hgs p)

end Pairs

section Rank

/-- The heights of what the variables mean. -/
def rankOf (θ : Assignment) (v : TypeVar) : Nat := (θ v).height

theorem even_of_ground_eq (heq : t.ground θ = u.ground θ) : Even (rankOf θ) t u := by
  have hheight : t.height (rankOf θ) = u.height (rankOf θ) := by
    have := congrArg GroundTy.height heq
    rwa [Ty.height_ground, Ty.height_ground] at this
  unfold Even
  split
  · simpa [Ty.height] using hheight
  · exact hheight.ge
  · exact hheight.le
  · trivial

/-- A variable of a rigid type lies below it. -/
theorem height_lt_of_mem_freeVars {h : TypeVar → Nat} (ht : t.Simple False) (hrt : IsRigid t)
    (hv : v ∈ t.freeVars) : h v < t.height h := by
  rcases ht.exists_mem_items hv with ⟨r, rfl⟩ | ⟨u, hu, hv⟩
  · exact hrt.elim
  · exact ((ht.of_mem_items hu).height_le_of_mem_freeVars hv).trans_lt
      (Ty.height_lt_of_mem_items hu)

end Rank

end Unify

namespace Solver.SolvedBy

variable {syn : Prop} {θ : Assignment} {s : Solver} {t u : Ty} {k : Kind} {v : TypeVar}

open Unify

/-- A solution ranks the variables. -/
theorem ranked (hs : s.SolvedBy θ) : s.Ranked (rankOf θ) where
  binding v t hv := even_of_ground_eq (hs.binding v t hv)
  kind v p hp := by
    have hkind := hs.kind v
    cases hk : s.kindOf v with
    | universal => simp [hk, Kind.fields] at hp
    | record fs =>
        rw [hk] at hkind hp
        have := hkind.height_lt (Ty.mem_groundFields hp)
        rwa [Ty.height_ground] at this

theorem ground_head (hs : s.SolvedBy θ) (hsimple : s.Simple syn) (ht : t.Simple syn) :
    (s.head t).ground θ = t.ground θ := by
  rw [head, Ty.ground_expand]
  exact hs.binding.ground_apply hsimple.subst ht

theorem ground_heads {a b : Ty} (hs : s.SolvedBy θ) (hsimple : s.Simple syn)
    (hps : AllSimple syn [(a, b)]) (heq : AllEqual θ [(a, b)]) :
    (s.head a).ground θ = (s.head b).ground θ := by
  obtain ⟨hsa, hsb⟩ := hps.pair
  rw [hs.ground_head hsimple hsa, hs.ground_head hsimple hsb]
  exact heq _ List.mem_cons_self

/-- The fields that a variable must have do not mention the variable. -/
theorem not_mem_freeVars_applyKind (hs : s.SolvedBy θ) (hsimple : s.Simple False)
    (hk : k.Simple False) (hadmits : k.Admits θ (θ v)) :
    v ∉ (s.subst.applyKind k).freeVars := by
  intro hv
  cases k with
  | universal => simp [Substitution.applyKind_universal, Kind.freeVars, Kind.freeVarsUnder] at hv
  | record fs =>
      rw [Substitution.applyKind_record] at hv
      obtain ⟨_, hmem, hv⟩ := Ty.mem_freeVarsOfFields.1 hv
      obtain ⟨p, hp, rfl⟩ := List.mem_map.1 hmem
      have hle := (hsimple.subst.apply (hk.2 p hp)).height_le_of_mem_freeVars (h := rankOf θ) hv
      have happly := hs.ranked.height_apply_le hsimple.subst (hk.2 p hp)
      have hlt := hadmits.height_lt (Ty.mem_groundFields hp)
      rw [Ty.height_ground] at hlt
      exact absurd (hle.trans happly) (Nat.not_le_of_lt hlt)

theorem log (hs : s.SolvedBy θ) : (s.log t u).SolvedBy θ := ⟨hs.binding, hs.kind⟩

theorem assign (hs : s.SolvedBy θ) (hv : θ v = t.ground θ) : (s.assign v t).SolvedBy θ where
  binding w u hw := by
    rw [subst_assign, Substitution.find?_bind] at hw
    split at hw
    · next he => exact he ▸ Option.some.inj hw ▸ hv
    · exact hs.binding w u hw
  kind := hs.kind

theorem strengthen (hs : s.SolvedBy θ) (hk : k.Admits θ (θ v)) :
    (s.strengthen v k).SolvedBy θ := by
  cases k with
  | universal => exact hs
  | record fs =>
      refine ⟨hs.binding, fun w => ?_⟩
      rw [Solver.strengthen, kindOf_refine]
      split
      · next he => exact he ▸ hk
      · exact hs.kind w

end Solver.SolvedBy

namespace Unify

open Solver

variable {θ : Assignment} {s s' : Solver} {a b t u : Ty} {v w : TypeVar} {n : Nat}
  {ps : List (Ty × Ty)} {r : Option Reason}

theorem Meet.ground_eq (hm : Meet s a b v t) (heq : (s.head a).ground θ = (s.head b).ground θ) :
    θ v = t.ground θ := by
  obtain ⟨r, ⟨hv, rfl⟩ | ⟨hv, rfl⟩⟩ := hm
  · rw [hv] at heq
    exact heq
  · rw [hv] at heq
    exact heq.symm

/-- A type that means the same as one of its variables is that variable. -/
theorem not_mem_freeVars_of_ground_eq (ht : t.Simple False) (hrt : IsRigid t)
    (heq : θ v = t.ground θ) : v ∉ t.freeVars := by
  intro hv
  have hlt := height_lt_of_mem_freeVars (h := rankOf θ) ht hrt hv
  have hheight := Ty.height_ground θ t
  rw [← heq] at hheight
  exact absurd hheight (Nat.ne_of_lt hlt)

theorem mem_or_ground_eq (heq : t.ground θ = u.ground θ) {q : Ty × Ty}
    (hq : q ∈ (s.log t u).compared ∨ q.1.ground θ = q.2.ground θ) :
    q ∈ s.compared ∨ q.1.ground θ = q.2.ground θ := by
  rcases hq with hq | hq
  · rcases List.mem_cons.1 hq with rfl | hq
    · exact Or.inr heq
    · exact Or.inl hq
  · exact Or.inr hq

/-- Types that mean the same under a solution are equated: there is no failure but for want of fuel,
the solution solves the state afterwards, and all pairs on the way mean the same. -/
theorem Runs.solved (hrun : Runs n s ps r s') (hs : s.Simple False) (hps : AllSimple False ps)
    (hθ : s.SolvedBy θ) (heq : AllEqual θ ps) :
    (r = none ∧ s'.SolvedBy θ ∨ r = some .outOfFuel) ∧
      ∀ q ∈ s'.compared, q ∈ s.compared ∨ q.1.ground θ = q.2.ground θ := by
  induction hrun with
  | nil n s => exact ⟨Or.inl ⟨rfl, hθ⟩, fun q hq => Or.inl hq⟩
  | tooDeep s a b => exact ⟨Or.inr rfl, fun q hq => Or.inl hq⟩
  | cons hrun₁ _ ih₁ ih₂ =>
      obtain ⟨hr₁, hlog₁⟩ := ih₁ hs hps.head hθ heq.head
      rcases hr₁ with ⟨-, hθ₁⟩ | hr₁
      · obtain ⟨hr₂, hlog₂⟩ := ih₂ (hrun₁.simple hs hps.head) hps.tail hθ₁ heq.tail
        exact ⟨hr₂, fun q hq => (hlog₂ q hq).elim (hlog₁ q) Or.inr⟩
      · simp at hr₁
  | stop _ ih =>
      obtain ⟨hr, hlog⟩ := ih hs hps.head hθ heq.head
      exact ⟨hr.imp (fun h => by simp at h) id, hlog⟩
  | @same n s a b v r r' ha hb =>
      have hhead := hθ.ground_heads hs hps heq
      exact ⟨Or.inl ⟨rfl, hθ.log⟩, fun q hq => mem_or_ground_eq hhead (Or.inl hq)⟩
  | @rigid n s a b r s₁ hra hrb hrun ih =>
      have hhead := hθ.ground_heads hs hps heq
      obtain ⟨hsa, hsb⟩ : a.Simple False ∧ b.Simple False := hps _ List.mem_cons_self
      obtain ⟨hparts, hnone⟩ := parts_of_ground_eq hra hrb (hs.head hsa) hhead
      obtain ⟨hr, hlog⟩ := ih hs.log (parts_simple (hs.head hsa) (hs.head hsb)) hθ.log hparts
      rw [hnone, Option.or_none]
      exact ⟨hr, fun q hq => mem_or_ground_eq hhead (hlog q hq)⟩
  | @occurs n s a b v t hm hrt hv =>
      have hhead := hθ.ground_heads hs hps heq
      obtain ⟨hsa, hsb⟩ : a.Simple False ∧ b.Simple False := hps _ List.mem_cons_self
      exact absurd hv
        (not_mem_freeVars_of_ground_eq (hm.simple hs hsa hsb) hrt (hm.ground_eq hhead))
  | @bind n s a b v t r s₁ hm hrt hvt hrun ih =>
      have hhead := hθ.ground_heads hs hps heq
      obtain ⟨hsa, hsb⟩ : a.Simple False ∧ b.Simple False := hps _ List.mem_cons_self
      have hst := hm.simple hs hsa hsb
      have hv := hm.ground_eq hhead
      have hs' := (hs.log (t := s.head a) (u := s.head b)).assign (v := v) hst
      have hθ' := (hθ.log (t := s.head a) (u := s.head b)).assign hv
      have hadmits := hθ.kind v
      rw [hv, ← hθ'.binding.ground_apply hs'.subst hst] at hadmits
      obtain ⟨hpairs, hnone⟩ := kindPairs_of_admits (hrt.apply _) hadmits
      obtain ⟨hr, hlog⟩ := ih hs' (kindPairs_simple (hs.kind v) (hs'.subst.apply hst)) hθ' hpairs
      simp only [subst_assign, subst_log] at hnone
      rw [hnone, Option.or_none]
      exact ⟨hr, fun q hq => mem_or_ground_eq hhead (hlog q hq)⟩
  | @join n s a b v w r r' s₁ ha hb hvw hrun hw ih =>
      have hhead := hθ.ground_heads hs hps heq
      have hvw : θ v = θ w := by simpa only [ha, hb, Ty.ground] using hhead
      have hw := hθ.kind w
      rw [← hvw] at hw
      obtain ⟨hr, hlog⟩ := ih hs.log (sharedPairs_simple (hs.kind v) (hs.kind w)) hθ.log
        (sharedPairs_of_admits (hθ.kind v) hw)
      rcases hr with ⟨-, hθ₁⟩ | hr
      · refine ⟨Or.inl ⟨rfl, (hθ₁.assign (t := .var w r') hvw).strengthen ?_⟩, fun q hq => ?_⟩
        · exact hvw ▸ mergedKind_admits (hθ.kind v) hw
        · rw [compared_strengthen] at hq
          exact mem_or_ground_eq hhead (hlog q hq)
      · simp at hr
  | @joinOccurs n s a b v w r r' s₁ shape ha hb hvw hrun hw ih =>
      have hhead := hθ.ground_heads hs hps heq
      have hvw : θ v = θ w := by simpa only [ha, hb, Ty.ground] using hhead
      have hkw := hθ.kind w
      rw [← hvw] at hkw
      have hs₁ := hrun.simple hs.log (sharedPairs_simple (hs.kind v) (hs.kind w))
      obtain ⟨hr, -⟩ := ih hs.log (sharedPairs_simple (hs.kind v) (hs.kind w)) hθ.log
        (sharedPairs_of_admits (hθ.kind v) hkw)
      rcases hr with ⟨-, hθ₁⟩ | hr
      · have hθ' := hθ₁.assign (v := v) (t := .var w r') hvw
        have hs' := hs₁.assign (v := v) (.var w r')
        exact absurd hw (hθ'.not_mem_freeVars_applyKind hs'
          (mergedKind_simple (hs.kind v) (hs.kind w)) (hvw ▸ mergedKind_admits (hθ.kind v) hkw))
      · simp at hr
  | @joinStop n s a b v w r r' e s₁ ha hb hvw hrun ih =>
      have hhead := hθ.ground_heads hs hps heq
      have hvw : θ v = θ w := by simpa only [ha, hb, Ty.ground] using hhead
      have hw := hθ.kind w
      rw [← hvw] at hw
      obtain ⟨hr, hlog⟩ := ih hs.log (sharedPairs_simple (hs.kind v) (hs.kind w)) hθ.log
        (sharedPairs_of_admits (hθ.kind v) hw)
      exact ⟨hr.imp (fun h => by simp at h) id, fun q hq => mem_or_ground_eq hhead (hlog q hq)⟩

/-- Where a solution makes all pairs equal and the run does not fail, the solution solves the state
afterwards. -/
theorem Runs.keeps_solution (hrun : Runs n s ps r s') (hs : s.Simple syn) (hps : AllSimple syn ps)
    (hθ : s.SolvedBy θ) (heq : AllEqual θ ps) (hr : r = none) :
    s'.SolvedBy θ ∧ ∀ q ∈ s'.compared, q ∈ s.compared ∨ q.1.ground θ = q.2.ground θ := by
  induction hrun with
  | nil => exact ⟨hθ, fun q hq => Or.inl hq⟩
  | tooDeep | stop | occurs | joinOccurs | joinStop => simp at hr
  | cons hrun₁ _ ih₁ ih₂ =>
      obtain ⟨hθ₁, hlog₁⟩ := ih₁ hs hps.head hθ heq.head rfl
      obtain ⟨hθ₂, hlog₂⟩ := ih₂ (hrun₁.simple hs hps.head) hps.tail hθ₁ heq.tail hr
      exact ⟨hθ₂, fun q hq => (hlog₂ q hq).elim (hlog₁ q) Or.inr⟩
  | same =>
      have hhead := hθ.ground_heads hs hps heq
      exact ⟨hθ.log, fun q hq => mem_or_ground_eq hhead (Or.inl hq)⟩
  | @rigid n s a b r s₁ hra hrb _ ih =>
      have hhead := hθ.ground_heads hs hps heq
      obtain ⟨hsa, hsb⟩ := hps.pair
      obtain ⟨hparts, -⟩ := parts_of_ground_eq hra hrb (hs.head hsa) hhead
      obtain ⟨rfl, -⟩ := Option.or_eq_none_iff.1 hr
      obtain ⟨hθ₁, hlog⟩ := ih hs.log (parts_simple (hs.head hsa) (hs.head hsb)) hθ.log hparts rfl
      exact ⟨hθ₁, fun q hq => mem_or_ground_eq hhead (hlog q hq)⟩
  | @bind n s a b v t r s₁ hm hrt _ _ ih =>
      have hhead := hθ.ground_heads hs hps heq
      obtain ⟨hsa, hsb⟩ := hps.pair
      have hst := hm.simple hs hsa hsb
      have hv := hm.ground_eq hhead
      have hs' := (hs.log (t := s.head a) (u := s.head b)).assign (v := v) hst
      have hθ' := (hθ.log (t := s.head a) (u := s.head b)).assign hv
      have hadmits := hθ.kind v
      rw [hv, ← hθ'.binding.ground_apply hs'.subst hst] at hadmits
      obtain ⟨hpairs, -⟩ := kindPairs_of_admits (hrt.apply _) hadmits
      obtain ⟨rfl, -⟩ := Option.or_eq_none_iff.1 hr
      obtain ⟨hθ₁, hlog⟩ := ih hs' (kindPairs_simple (hs.kind v) (hs'.subst.apply hst)) hθ' hpairs
        rfl
      exact ⟨hθ₁, fun q hq => mem_or_ground_eq hhead (hlog q hq)⟩
  | @join n s a b v w r r' s₁ ha hb _ _ _ ih =>
      have hhead := hθ.ground_heads hs hps heq
      have hvw : θ v = θ w := by simpa only [ha, hb, Ty.ground] using hhead
      have hw := hθ.kind w
      rw [← hvw] at hw
      obtain ⟨hθ₁, hlog⟩ := ih hs.log (sharedPairs_simple (hs.kind v) (hs.kind w)) hθ.log
        (sharedPairs_of_admits (hθ.kind v) hw) rfl
      refine ⟨(hθ₁.assign (t := .var w r') hvw).strengthen ?_, fun q hq => ?_⟩
      · exact hvw ▸ mergedKind_admits (hθ.kind v) hw
      · rw [compared_strengthen] at hq
        exact mem_or_ground_eq hhead (hlog q hq)

end Unify

end FieldML

/-! ## Completeness of unification

Types that mean the same under some solution are unified, and every such solution still solves the
state afterwards. So unification refuses nothing that can be solved, and commits to nothing that
some solution does without. -/

namespace FieldML

namespace Solver

open Unify

variable {θ : Assignment} {s s' : Solver} {a b : Ty}

/-- Unifying types that mean the same under a solution runs to its end, and all that it compares means
the same. -/
theorem unify_of_ground_eq (hs : s.Proper False) (ha : a.Simple False) (hb : b.Simple False)
    (hθ : s.SolvedBy θ) (heq : a.ground θ = b.ground θ) :
    ∃ s', s.unify a b = (.ok (), s') ∧
      Runs (s.fuel (a.size + b.size)) s.forget [(a, b)] none s' ∧
      AllEven (rankOf θ) s'.compared ∧ s'.SolvedBy θ := by
  have hps : AllSimple False [(a, b)] := by simp [AllSimple, ha, hb]
  have hequal : AllEqual θ [(a, b)] := by simp [AllEqual, heq]
  have hs₀ : s.forget.Proper False := hs.forget
  have hθ₀ : s.forget.SolvedBy θ := ⟨hθ.binding, hθ.kind⟩
  obtain ⟨r, s', hrun, hunify⟩ := unify_runs hs.simple ha hb
  obtain ⟨hr, hlog⟩ := hrun.solved hs₀.simple hps hθ₀ hequal
  have heven : AllEven (rankOf θ) s'.compared := by
    intro q hq
    rcases hlog q hq with hq | hq
    · simp [forget] at hq
    · exact even_of_ground_eq hq
  rcases hr with ⟨rfl, hθ'⟩ | rfl
  · exact ⟨s', hunify, hrun, heven, hθ'⟩
  · exact absurd rfl (hrun.ne_outOfFuel_of_ranked hs₀ ha hb hθ₀.ranked heven)

/-- Whatever two types mean the same under a solution, unifying them succeeds and keeps that
solution. -/
theorem unify_keeps_solution (hs : s.Proper False) (ha : a.Simple False) (hb : b.Simple False)
    (hθ : s.SolvedBy θ) (heq : a.ground θ = b.ground θ) :
    ∃ s', s.unify a b = (.ok (), s') ∧ s'.Proper False ∧ s'.SolvedBy θ := by
  have hps : AllSimple False [(a, b)] := by simp [AllSimple, ha, hb]
  have hθ₀ : s.forget.SolvedBy θ := ⟨hθ.binding, hθ.kind⟩
  obtain ⟨s', hunify, hrun, heven, hθ'⟩ := unify_of_ground_eq hs ha hb hθ heq
  obtain ⟨N, hN⟩ := exists_allBelow (rankOf θ) [(a, b)]
  have hadv := hrun.advance hs.forget hps hθ₀.ranked hN heven
  exact ⟨s', hunify, hadv.proper, hθ'⟩

/-- Two variables with record kinds that share a field. -/
def sharingField : Solver where
  kinds := (KindEnv.empty.refine 0 (.record [("f", .var 1 .erased)])).refine 2
    (.record [("f", .base .int .erased), ("g", .var 3 .erased)])

/-- Records of the fields of both kinds. -/
def sharingFieldSolution : Assignment
  | 0 | 2 => .record [("f", .base .int), ("g", .base .bool)]
  | 3 => .base .bool
  | _ => .base .int

theorem kindOf_sharingField (v : TypeVar) :
    sharingField.kindOf v =
      if v = 0 then .record [("f", .var 1 .erased)]
      else if v = 2 then .record [("f", .base .int .erased), ("g", .var 3 .erased)]
      else .universal := by
  simp only [sharingField, kindOf, KindEnv.kindOf_refine]
  have hempty : KindEnv.empty.kindOf v = .universal := by
    simp [KindEnv.kindOf, KindEnv.empty]
  simp only [hempty, eq_comm (b := v)]
  by_cases h₀ : v = 0
  · simp [h₀]
  · simp [h₀]

theorem sharingField_proper : sharingField.Proper False where
  triangular := .empty
  kind v := by
    rw [kindOf_sharingField]
    split
    · exact ⟨by decide, by simp [Kind.fields, Ty.Simple.var]⟩
    · split
      · exact ⟨by decide, by simp [Kind.fields, Ty.Simple.var, Ty.Simple.base]⟩
      · exact ⟨by decide, by simp [Kind.fields]⟩

theorem sharingField_solved : sharingField.SolvedBy sharingFieldSolution where
  binding v t hv := by simp [sharingField, Substitution.find?] at hv
  kind v := by
    rw [kindOf_sharingField]
    split
    · next h =>
        exact ⟨_, by rw [h]; rfl,
          by simp [Ty.groundFields, Ty.ground, Fields.get?, sharingFieldSolution]⟩
    · split
      · next h =>
          exact ⟨_, by rw [h]; rfl,
            by simp [Ty.groundFields, Ty.ground, Fields.get?, sharingFieldSolution]⟩
      · trivial

theorem unify_keeps_solution_sharingField :
    sharingField.Proper False ∧ sharingField.SolvedBy sharingFieldSolution ∧
      ∃ s', sharingField.unify (.list (.var 0 .erased) .erased) (.list (.var 2 .erased) .erased) =
        (.ok (), s') ∧ s'.Proper False ∧ s'.SolvedBy sharingFieldSolution :=
  ⟨sharingField_proper, sharingField_solved,
    unify_keeps_solution sharingField_proper (.list _ (.var 0 _)) (.list _ (.var 2 _))
      sharingField_solved rfl⟩

end Solver

end FieldML
