import FieldML.Proofs.Unify.Skeleton
import FieldML.Proofs.Unify.Transparent

/-!
# Comparisons that are granted

A type of the right form can be made equal to a skeleton over new variables, unless the record kind
of some variable mentions the variable itself. Then no kind does so afterwards, either.
-/

namespace FieldML

namespace Solver

variable {syn : Prop} {s : Solver} {t u : Ty} {k : Kind} {v w m : TypeVar} {r : Range}

/-- As far as is known, no kind of an unbound variable mentions the variable itself. -/
def SelfFree (s : Solver) : Prop :=
  ∀ v, s.subst.find? v = none → v ∉ (s.subst.applyKind (s.kindOf v)).freeVars

theorem mem_freeVars_applyKind {σ : Substitution} :
    v ∈ (σ.applyKind k).freeVars ↔ ∃ p ∈ k.fields, v ∈ (σ.apply p.2).freeVars := by
  rw [Substitution.applyKind, Kind.mem_freeVars, Kind.fields_mapVars]
  constructor
  · rintro ⟨_, hmem, hv⟩
    obtain ⟨p, hp, rfl⟩ := List.mem_map.1 hmem
    exact ⟨p, hp, hv⟩
  · rintro ⟨p, hp, hv⟩
    exact ⟨_, List.mem_map_of_mem hp, hv⟩

section Bind

variable {σ : Substitution} (hσ : σ.Triangular syn) (hv : σ.find? v = none) (ht : t.Simple syn)
  (hfree : ∀ x ∈ t.freeVars, σ.find? x = none) (hvt : v ∉ t.freeVars)

include hσ hv ht hfree hvt

/-- Once a variable is bound its place is taken by the variables of its type. -/
theorem mem_freeVars_apply_bind (hu : u.Simple syn) (hw : w ∈ ((σ.bind v t).apply u).freeVars) :
    w ∈ (σ.apply u).freeVars ∨ v ∈ (σ.apply u).freeVars ∧ w ∈ t.freeVars := by
  have hbind : (σ.bind v t).Triangular syn := hσ.bind ht hfree hvt
  rw [← hσ.apply_apply hbind (Substitution.extendedBy_bind hv) hu,
    Substitution.mem_freeVars_apply (hσ.simple.apply hu)] at hw
  obtain ⟨x, hx, hw⟩ := hw
  have hunbound : σ.find? x = none := hσ.find?_of_mem_freeVars_apply hu hx
  by_cases hxv : x = v
  · subst hxv
    have hself : (σ.bind x t).apply t = t := by
      refine ht.mapVars_eq_self fun y hy r => Substitution.follow_of_none _ ?_
      rw [Substitution.find?_bind, if_neg, hfree y hy]
      rintro rfl
      exact hvt hy
    rw [hbind.apply_var_of_some (by rw [Substitution.find?_bind, if_pos rfl]), hself] at hw
    exact Or.inr ⟨hx, hw⟩
  · have hnone : (σ.bind v t).find? x = none := by
      rw [Substitution.find?_bind, if_neg (Ne.symm hxv), hunbound]
    rw [Substitution.apply_var_of_none hnone, Ty.mem_freeVars_var] at hw
    exact Or.inl (hw ▸ hx)

theorem mem_freeVars_applyKind_bind (hk : k.Simple syn)
    (hw : w ∈ ((σ.bind v t).applyKind k).freeVars) :
    w ∈ (σ.applyKind k).freeVars ∨ v ∈ (σ.applyKind k).freeVars ∧ w ∈ t.freeVars := by
  obtain ⟨p, hp, hw⟩ := mem_freeVars_applyKind.1 hw
  rcases mem_freeVars_apply_bind hσ hv ht hfree hvt (hk.2 p hp) hw with hw | ⟨hv, hw⟩
  · exact Or.inl (mem_freeVars_applyKind.2 ⟨p, hp, hw⟩)
  · exact Or.inr ⟨mem_freeVars_applyKind.2 ⟨p, hp, hv⟩, hw⟩

end Bind

/-- No kind mentions a new variable. -/
theorem NewFrom.notMem_kind (hnew : s.NewFrom w) (hs : s.Proper syn) (v : TypeVar) :
    w ∉ (s.subst.applyKind (s.kindOf v)).freeVars := by
  intro hmem
  obtain ⟨p, hp, hmem⟩ := mem_freeVars_applyKind.1 hmem
  have hvw : v < w := by
    by_contra hle
    rw [hnew.kindOf (Nat.le_of_not_lt hle)] at hp
    cases hp
  exact absurd (hnew.closed.apply hs.triangular.simple ((hs.kind v).2 p hp)
    (hnew.closed.kind v hvw p hp) w hmem) (Nat.lt_irrefl w)

namespace SelfFree

theorem log (hself : s.SelfFree) : (s.log t u).SelfFree := hself

theorem forget (hself : s.SelfFree) : s.forget.SelfFree := hself

/-- A new variable is bound to a type. -/
theorem assign (hself : s.SelfFree) (hs : s.Proper syn) (hnew : s.NewFrom w) (ht : t.Simple syn)
    (hfree : ∀ x ∈ t.freeVars, s.subst.find? x = none) (hwt : w ∉ t.freeVars) :
    (s.assign w t).SelfFree := by
  intro v hv hmem
  rw [subst_assign, Substitution.find?_bind] at hv
  split at hv
  · cases hv
  · rcases mem_freeVars_applyKind_bind hs.triangular (hnew.fresh w (Nat.le_refl _)).1 ht hfree hwt
      (hs.kind v) hmem with hmem | ⟨hmem, -⟩
    · exact hself v hv hmem
    · exact hnew.notMem_kind hs v hmem

section Join

variable (hself : s.SelfFree) (hs : s.Proper syn) (hnew : s.NewFrom w)
  (hv : s.subst.find? v = none) (hvw : v ≠ w)

include hs hnew hv hvw

theorem mem_freeVars_kind_join (x : TypeVar) {y : TypeVar}
    (hy : y ∈ ((s.subst.bind v (.var w r)).applyKind (s.kindOf x)).freeVars) :
    y ∈ (s.subst.applyKind (s.kindOf x)).freeVars ∨
      v ∈ (s.subst.applyKind (s.kindOf x)).freeVars ∧ y = w := by
  have hfree : ∀ x ∈ (Ty.var w r).freeVars, s.subst.find? x = none := fun x hx =>
    Ty.mem_freeVars_var.1 hx ▸ (hnew.fresh w (Nat.le_refl _)).1
  have hbound := mem_freeVars_applyKind_bind hs.triangular hv (.var w r) hfree (by simpa using hvw)
    (hs.kind x) hy
  exact hbound.imp_right fun h => ⟨h.1, Ty.mem_freeVars_var.1 h.2⟩

include hself

theorem notMem_kind_join :
    w ∉ ((s.subst.bind v (.var w r)).applyKind (s.kindOf v)).freeVars := by
  intro hmem
  rcases mem_freeVars_kind_join hs hnew hv hvw v hmem with hmem | ⟨hmem, -⟩
  · exact hnew.notMem_kind hs v hmem
  · exact hself v hv hmem

/-- A variable is bound to a new variable, which takes its kind. -/
theorem join : ((s.assign v (.var w r)).strengthen w (s.kindOf v)).SelfFree := by
  have hkind : ∀ x, x ≠ w →
      ((s.assign v (.var w r)).strengthen w (s.kindOf v)).kindOf x = s.kindOf x := by
    intro x hx
    cases s.kindOf v with
    | universal => rfl
    | record fs => rw [strengthen, kindOf_refine, if_neg (Ne.symm hx), kindOf_assign]
  have hkind_new : ((s.assign v (.var w r)).strengthen w (s.kindOf v)).kindOf w = s.kindOf v := by
    cases hk : s.kindOf v with
    | universal => rw [strengthen, kindOf_assign, hnew.kindOf (Nat.le_refl _)]
    | record fs => rw [strengthen, kindOf_refine, if_pos rfl]
  intro x hx hmem
  rw [subst_strengthen, subst_assign] at hx hmem
  rw [Substitution.find?_bind] at hx
  split at hx
  · cases hx
  · by_cases hxw : x = w
    · rw [hxw, hkind_new] at hmem
      exact hself.notMem_kind_join hs hnew hv hvw hmem
    · rw [hkind x hxw] at hmem
      rcases mem_freeVars_kind_join hs hnew hv hvw x hmem with hmem | ⟨-, hmem⟩
      · exact hself x hx hmem
      · exact hxw hmem

end Join

end SelfFree

/-- The fuel is enough to compare two types and the parts behind their heads. -/
theorem exists_fuel_eq (s : Solver) (extra : Nat) : ∃ n, s.fuel extra = n + 2 := by
  unfold fuel
  generalize s.subst.weight + s.kinds.weight + extra = w
  have hpow : 1 ≤ Nat.pow 4 (w + 2) := Nat.one_le_pow _ _ (by decide)
  have hsquare : 2 ≤ (w + 2) * (w + 2) := Nat.le_mul_of_pos_left _ (by omega) |>.trans' (by omega)
  exact Nat.exists_eq_add_of_le' (Nat.mul_le_mul hsquare hpow)

end Solver

namespace Unify

open Solver

variable {syn : Prop} {s s' : Solver} {a t S : Ty} {w m : TypeVar} {n : Nat}
  {ps : List (Ty × Ty)} {r : Option Reason} {rs : List Range}

theorem mergedKind_universal (k : Kind) : mergedKind k .universal = k := by cases k <;> rfl

/-- A new variable can be made equal to any older type. -/
theorem Runs.grants_newVar {r' : Range} (hrun : Runs n s [(a, .var w r')] r s') (hn : n ≠ 0)
    (hs : s.Proper syn) (hnew : s.NewFrom w) (hself : s.SelfFree) (ha : a.Simple syn)
    (hin : a.Inside (· < w)) : r = none ∧ s'.SelfFree := by
  have hfind := (hnew.fresh w (Nat.le_refl _)).1
  have hkind := hnew.kindOf (Nat.le_refl w)
  have hhead : s.head (.var w r') = .var w r' := head_var_of_none hfind
  have hfree : ∀ x ∈ (s.head a).freeVars, s.subst.find? x = none := fun x hx =>
    hs.find?_of_mem_head ha hx
  have hwa : w ∉ (s.head a).freeVars := fun hmem =>
    absurd (hnew.closed.head hs.simple ha hin w hmem) (Nat.lt_irrefl w)
  have hnotRigid : ¬IsRigid (s.head (.var w r')) := by
    rw [hhead]
    exact id
  -- By induction only because a single pair may be compared with an empty rest after it.
  generalize hps : [(a, Ty.var w r')] = ps at hrun
  induction hrun with
  | nil => cases hps
  | cons _ hrun₂ ih₁ _ =>
      obtain ⟨rfl, rfl⟩ := List.cons.inj hps
      obtain ⟨rfl, rfl⟩ := hrun₂.of_nil
      exact ih₁ hn hs hnew hself hfind hkind hhead hfree hwa hnotRigid rfl
  | stop _ ih =>
      obtain ⟨rfl, rfl⟩ := List.cons.inj hps
      exact ih hn hs hnew hself hfind hkind hhead hfree hwa hnotRigid rfl
  | tooDeep => exact absurd rfl hn
  | same => exact ⟨rfl, hself.log⟩
  | rigid _ hrb _ _ =>
      obtain ⟨rfl, rfl⟩ := Prod.mk.inj (List.cons.inj hps).1
      exact absurd hrb hnotRigid
  | occurs hm ht hvt =>
      obtain ⟨rfl, rfl⟩ := Prod.mk.inj (List.cons.inj hps).1
      obtain ⟨_, ⟨-, rfl⟩ | ⟨hv, rfl⟩⟩ := hm
      · exact absurd ht hnotRigid
      · rw [hhead] at hv
        obtain ⟨rfl, -⟩ := Ty.var.inj hv
        exact absurd hvt hwa
  | bind hm ht hvt hrun _ =>
      obtain ⟨rfl, rfl⟩ := Prod.mk.inj (List.cons.inj hps).1
      obtain ⟨_, ⟨-, rfl⟩ | ⟨hv, rfl⟩⟩ := hm
      · exact absurd ht hnotRigid
      · rw [hhead] at hv
        obtain ⟨rfl, -⟩ := Ty.var.inj hv
        rw [hkind] at hrun ⊢
        obtain ⟨rfl, rfl⟩ := hrun.of_nil
        exact ⟨rfl, hself.log.assign hs.log hnew.log (hs.simple.head ha) hfree hwa⟩
  | join hx hy hvw hrun _ _ =>
      obtain ⟨rfl, rfl⟩ := Prod.mk.inj (List.cons.inj hps).1
      rw [hhead] at hy
      obtain ⟨rfl, rfl⟩ := Ty.var.inj hy
      rw [hkind] at hrun ⊢
      obtain ⟨-, rfl⟩ := hrun.of_nil
      rw [mergedKind_universal]
      exact ⟨rfl, hself.log.join hs.log hnew.log (hs.find?_of_head_eq ha hx) hvw⟩
  | joinOccurs hx hy hvw hrun hmem _ =>
      obtain ⟨rfl, rfl⟩ := Prod.mk.inj (List.cons.inj hps).1
      rw [hhead] at hy
      obtain ⟨rfl, rfl⟩ := Ty.var.inj hy
      rw [hkind] at hrun hmem
      obtain ⟨-, rfl⟩ := hrun.of_nil
      rw [mergedKind_universal] at hmem
      exact absurd hmem (hself.log.notMem_kind_join hs.log hnew.log
        (hs.find?_of_head_eq ha hx) hvw)
  | joinStop hx hy hvw hrun _ =>
      obtain ⟨rfl, rfl⟩ := Prod.mk.inj (List.cons.inj hps).1
      rw [hhead] at hy
      obtain ⟨rfl, rfl⟩ := Ty.var.inj hy
      rw [hkind] at hrun
      cases hrun.of_nil.1

/-- New variables can be made equal to older types, one after the other. -/
theorem Runs.grants_newVars (hrun : Runs n s ps r s') (hn : n ≠ 0) (hs : s.Proper syn)
    (hnew : s.NewFrom m) (hself : s.SelfFree)
    (hfst : ∀ p ∈ ps, p.1.Simple syn ∧ p.1.Inside (· < m)) (hsnd : ps.map (·.2) = newVars m rs) :
    r = none ∧ s'.SelfFree := by
  induction rs generalizing m s ps with
  | nil =>
      obtain rfl : ps = [] := by simpa [newVars] using hsnd
      obtain ⟨rfl, rfl⟩ := hrun.of_nil
      exact ⟨rfl, hself⟩
  | cons r' rs ih =>
      obtain ⟨⟨a, b⟩, ps, rfl, rfl, htail⟩ := List.map_eq_cons_iff.1 hsnd
      obtain ⟨⟨ha, hain⟩, hfst⟩ := List.forall_mem_cons.1 hfst
      rcases hrun.of_cons with ⟨s₁, hrun₁, hrun₂⟩ | ⟨e, rfl, hrun₁⟩
      · obtain ⟨-, hself₁⟩ := hrun₁.grants_newVar hn hs hnew hself ha hain
        obtain ⟨hfree, -⟩ := hnew.fresh m (Nat.le_refl _)
        obtain ⟨h₁, -⟩ := hrun₁.learns_newVar hs ha hfree (hnew.kindOf (Nat.le_refl _))
        refine ih hrun₂ h₁.proper (hrun₁.newFrom_succ hs.simple hnew ha hain) hself₁ ?_ htail
        exact fun p hp => ⟨(hfst p hp).1, fun v hv => Nat.lt_succ_of_lt ((hfst p hp).2 v hv)⟩
      · cases (hrun₁.grants_newVar hn hs hnew hself ha hain).1

theorem Runs.of_rigid (hrun : Runs n s [(t, S)] r s') (hn : n ≠ 0) (ht : IsRigid (s.head t))
    (hS : IsRigid (s.head S)) :
    ∃ k r₀, n = k + 1 ∧ Runs k (s.log (s.head t) (s.head S)) (parts (s.head t) (s.head S)).1 r₀ s' ∧
      r = r₀.or (parts (s.head t) (s.head S)).2 := by
  -- By induction only because a single pair may be compared with an empty rest after it.
  generalize hps : [(t, S)] = ps at hrun
  induction hrun with
  | nil => cases hps
  | cons _ hrun₂ ih₁ _ =>
      obtain ⟨rfl, rfl⟩ := List.cons.inj hps
      obtain ⟨rfl, rfl⟩ := hrun₂.of_nil
      exact ih₁ hn ht hS rfl
  | stop _ ih =>
      obtain ⟨rfl, rfl⟩ := List.cons.inj hps
      exact ih hn ht hS rfl
  | tooDeep => exact absurd rfl hn
  | rigid _ _ hrun _ =>
      obtain ⟨rfl, rfl⟩ := Prod.mk.inj (List.cons.inj hps).1
      exact ⟨_, _, rfl, hrun, rfl⟩
  | occurs hm _ _ | bind hm _ _ _ _ =>
      obtain ⟨rfl, rfl⟩ := Prod.mk.inj (List.cons.inj hps).1
      exact (hm.not_rigid ht hS).elim
  | same hv _ | join hv _ _ _ _ _ | joinOccurs hv _ _ _ _ _ | joinStop hv _ _ _ _ =>
      obtain ⟨rfl, rfl⟩ := Prod.mk.inj (List.cons.inj hps).1
      exact (hv ▸ ht : IsRigid (.var _ _)).elim

/-- A type that is no variable can be made equal to a skeleton of its form. -/
theorem Runs.grants_skeleton (hrun : Runs (n + 2) s [(t, S)] r s') (hS : IsSkeleton syn m rs S)
    (hs : s.Proper syn) (hnew : s.NewFrom m) (hself : s.SelfFree) (ht : t.Simple syn)
    (hin : t.Inside (· < m)) (hrigid : IsRigid (s.head t))
    (hparts : (parts (s.head t) S).2 = none) : r = none ∧ s'.SelfFree := by
  have hhead := hS.head_eq hnew
  obtain ⟨k, r₀, hk, hnext, rfl⟩ :=
    hrun.of_rigid (Nat.succ_ne_zero _) hrigid (hhead.symm ▸ hS.rigid)
  rw [hhead] at hnext ⊢
  have hsimple := hs.simple.head ht
  have hinside := hnew.closed.head hs.simple ht hin
  obtain ⟨rfl, hself'⟩ := hnext.grants_newVars (by omega) hs.log hnew.log hself.log
    (fun p hp => ⟨(parts_simple hsimple hS.simple p hp).1, (parts_inside hinside hS.free p hp).1⟩)
    (hS.parts _ hparts)
  exact ⟨hparts, hself'⟩

end Unify

end FieldML
