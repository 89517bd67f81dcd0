import FieldML.Proofs.Typing.Live
import FieldML.Proofs.Unify.Expansion

/-!
# Most general results

While no variable has a record kind, a comparison that succeeds keeps exactly those solutions of the
state that make the types mean the same. Where synonyms use all their arguments it succeeds if there
is one. Two states with the same solutions are the same up to a renaming of the variables.
-/

namespace FieldML

/-- The second type is the first one with other variables, once synonyms are expanded and ranges
are forgotten. -/
def Ty.SameUpTo (ρ : TypeVar → TypeVar) (t u : Ty) : Prop :=
  t.mono (fun v => .var (ρ v)) = u.mono .var

theorem MonoTy.exists_var_of_subst {δ : Instantiation} {τ : MonoTy} {v : TypeVar}
    (h : τ.subst δ = .var v) : ∃ w, τ = .var w ∧ δ w = .var v := by
  cases τ with
  | var w => exact ⟨w, rfl, h⟩
  | product | variant | record => simp at h
  | _ => cases h

namespace Substitution

variable {syn : Prop} {s s' : Substitution} {t u : Ty} {v : TypeVar}

/-- What every variable becomes, with synonyms expanded and ranges forgotten. -/
def shape (s : Substitution) : Instantiation := fun v => (s.apply (.var v .erased)).mono .var

theorem Triangular.agreesWith_shape (hs : s.Triangular syn) : s.AgreesWith s.shape :=
  hs.agreesWith_apply .var

/-- Types that mean the same to all solutions are the same once the substitution is applied. -/
theorem Triangular.mono_eq_of_ground_eq (hs : s.Triangular syn) (ht : t.Simple syn)
    (hu : u.Simple syn) (h : ∀ θ, s.SolvedBy θ → t.ground θ = u.ground θ) :
    (s.apply t).mono .var = (s.apply u).mono .var := by
  rw [hs.mono_apply ht, hs.mono_apply hu]
  refine MonoTy.eq_of_ground fun θ => ?_
  rw [ht.ground_mono, hu.ground_mono]
  exact h _ (hs.agreesWith_shape.solvedBy hs.simple)

/-- What one substitution makes of the variables solves another one with the same solutions. -/
theorem Triangular.agreesWith_of_solvedBy_iff (hs : s.Triangular syn) (hs' : s'.Triangular syn)
    (hsame : ∀ θ, s.SolvedBy θ ↔ s'.SolvedBy θ) : s.AgreesWith s'.shape :=
  agreesWith_of_solvedBy hs.simple fun _ =>
    (hsame _).2 (hs'.agreesWith_shape.solvedBy hs'.simple)

/-- Substitutions with the same solutions are the same up to a renaming, which keeps variables
apart that are free. -/
theorem Triangular.exists_renaming (hs : s.Triangular syn) (hs' : s'.Triangular syn)
    (hsame : ∀ θ, s.SolvedBy θ ↔ s'.SolvedBy θ) :
    ∃ ρ : TypeVar → TypeVar, Set.InjOn ρ {v | s.find? v = none} ∧
      ∀ t, t.Simple syn → (s.apply t).SameUpTo ρ (s'.apply t) := by
  have hcross : s.AgreesWith s'.shape := hs.agreesWith_of_solvedBy_iff hs' hsame
  have hback : s'.AgreesWith s.shape := hs'.agreesWith_of_solvedBy_iff hs fun θ => (hsame θ).symm
  -- A free variable becomes a variable, which becomes the free variable again.
  have hvar : ∀ v, s.find? v = none → ∃ w, s'.shape v = .var w ∧ s.shape w = .var v := by
    intro v hv
    refine MonoTy.exists_var_of_subst ?_
    have happly := hback.mono_apply hs'.simple (t := .var v .erased) (.var v _)
    have hself : s.shape v = .var v := by
      rw [shape, apply_var_of_none hv, Ty.mono_var]
    rw [(hs'.simple.apply (.var v _)).mono_eq_subst, Ty.mono_var, hself] at happly
    exact happly
  choose! ρ hρ hinv using hvar
  refine ⟨ρ, fun v hv w hw heq => ?_, fun t ht => ?_⟩
  · have hvw := hinv v hv
    rw [heq, hinv w hw] at hvw
    exact (MonoTy.var.inj hvw).symm
  · calc
      (s.apply t).mono (fun v => .var (ρ v)) = (s.apply t).mono s'.shape :=
        (hs.simple.apply ht).mono_congr fun v hv =>
          (hρ v (hs.find?_of_mem_freeVars_apply ht hv)).symm
      _ = t.mono s'.shape := hcross.mono_apply hs.simple ht
      _ = (s'.apply t).mono .var := (hs'.mono_apply ht).symm

end Substitution

namespace Solver

theorem Plain.solvedBy_iff {s : Solver} {θ : Assignment} (hplain : s.Plain) :
    s.SolvedBy θ ↔ s.subst.SolvedBy θ := by
  refine ⟨fun h => h.binding, fun h => ⟨h, fun v => ?_⟩⟩
  rw [hplain v]
  trivial

end Solver

namespace Unify

open Solver

variable {syn : Prop} {θ : Assignment} {s s' : Solver} {n : Nat} {ps : List (Ty × Ty)}
  {r : Option Reason}

theorem AllFull.simple (hps : AllFull ps) : AllSimple True ps := fun p hp =>
  ⟨(hps p hp).1.simple, (hps p hp).2.simple⟩

/-- Comparing types that mean the same under a solution keeps the solution, or fails since a
variable occurs in a type that means the same as the variable. -/
theorem Runs.solved_or_occurs (hrun : Runs n s ps r s') (hs : s.Proper syn) (hplain : s.Plain)
    (hps : AllSimple syn ps) (hθ : s.SolvedBy θ) (heq : AllEqual θ ps) :
    r = none ∧ s'.SolvedBy θ ∨ r = some .outOfFuel ∨ ∃ v t, r = some (.occurs v t) ∧ IsRigid t ∧
      v ∈ t.freeVars ∧ θ v = t.ground θ := by
  induction hrun with
  | nil => exact Or.inl ⟨rfl, hθ⟩
  | tooDeep => exact Or.inr (Or.inl rfl)
  | cons hrun₁ hrun₂ ih₁ ih₂ =>
      obtain ⟨-, hθ₁⟩ := (ih₁ hs hplain hps.head hθ heq.head).resolve_right (by simp)
      have h₁ := hrun₁.binds hs hps.head hplain
      exact ih₂ h₁.proper h₁.plain hps.tail hθ₁ heq.tail
  | stop _ ih => exact (ih hs hplain hps.head hθ heq.head).imp_left fun h => by simp at h
  | same => exact Or.inl ⟨rfl, hθ.log⟩
  | rigid hra hrb _ ih =>
      obtain ⟨ha, hb⟩ := hps.pair
      have hhead := hθ.ground_heads hs.simple hps heq
      obtain ⟨hparts, hnone⟩ := parts_of_ground_eq hra hrb (hs.simple.head ha) hhead
      rw [hnone, Option.or_none]
      exact ih hs.log hplain (parts_simple (hs.simple.head ha) (hs.simple.head hb)) hθ.log hparts
  | occurs hm hrt hv =>
      have hhead := hθ.ground_heads hs.simple hps heq
      exact Or.inr (Or.inr ⟨_, _, rfl, hrt, hv, hm.ground_eq hhead⟩)
  | bind hm _ _ hrun _ =>
      have hhead := hθ.ground_heads hs.simple hps heq
      obtain ⟨hnone, rfl⟩ := hrun.of_kindPairs_plain hplain
      exact Or.inl ⟨hnone, hθ.log.assign (hm.ground_eq hhead)⟩
  | join ha hb _ hrun _ _ =>
      have hhead := hθ.ground_heads hs.simple hps heq
      obtain ⟨-, rfl⟩ := hrun.of_sharedPairs_plain hplain
      rw [strengthen_plain hplain]
      exact Or.inl ⟨rfl, hθ.log.assign (by simpa only [ha, hb, Ty.ground] using hhead)⟩
  | @joinOccurs n s a b v w r r' s₁ _ _ _ _ _ hw _ =>
      rw [hplain v, hplain w] at hw
      exact absurd hw List.not_mem_nil
  | joinStop _ _ _ hrun _ =>
      obtain ⟨hnone, -⟩ := hrun.of_sharedPairs_plain hplain
      simp at hnone

/-- The solutions after a run that succeeded are those before it that make the types mean the same.
-/
theorem Runs.solvedBy_iff (hrun : Runs n s ps none s') (hs : s.Proper syn) (hplain : s.Plain)
    (hps : AllSimple syn ps) :
    s'.subst.SolvedBy θ ↔ s.subst.SolvedBy θ ∧ AllEqual θ ps := by
  have hbinds := hrun.binds hs hps hplain
  constructor
  · intro hθ
    have halike := hrun.alike_of_plain hs hps hplain rfl
    exact ⟨fun v t hv => hθ v t (hbinds.extended v t hv), fun p hp =>
      hθ.ground_eq hbinds.proper.triangular.simple (hps p hp).1 (hps p hp).2 (halike p hp)⟩
  · rintro ⟨hθ, heq⟩
    exact ((hrun.solved_or_occurs hs hplain hps (hplain.solvedBy_iff.2 hθ) heq).resolve_right
      (by simp)).2.binding

/-- Where synonyms use all their arguments, a run that is not cut short succeeds exactly if a
solution makes the types mean the same. -/
theorem Runs.eq_none_iff_of_full (hrun : Runs n s ps r s') (hs : s.Proper True) (hplain : s.Plain)
    (hfull : s.subst.Full) (hps : AllFull ps) (hr : r ≠ some .outOfFuel) :
    r = none ↔ ∃ θ, s.subst.SolvedBy θ ∧ AllEqual θ ps := by
  constructor
  · rintro rfl
    have hbinds := hrun.binds hs hps.simple hplain
    exact ⟨_, (hrun.solvedBy_iff hs hplain hps.simple).1
      hbinds.proper.triangular.solvedBy_solution⟩
  · rintro ⟨θ, hθ, heq⟩
    rcases hrun.solved_or_occurs hs hplain hps.simple (hplain.solvedBy_iff.2 hθ) heq with
      ⟨hnone, -⟩ | hfuel | ⟨v, t, rfl, hrt, hv, heq⟩
    · exact hnone
    · exact absurd hfuel hr
    · -- Expanding the synonyms of the type loses no variable, so it is larger than each of them.
      obtain ⟨-, -, hoccurs⟩ := hrun.full hplain hfull hps
      have ht := hoccurs v t rfl
      exact absurd (ht.mem_freeVars_bare hv) (not_mem_freeVars_of_ground_eq ht.simple.bare hrt.bare
        (heq.trans ht.simple.ground_bare.symm))

end Unify

end FieldML
