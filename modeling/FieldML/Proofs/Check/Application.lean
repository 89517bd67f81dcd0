import FieldML.Proofs.Check.Infer
import FieldML.Proofs.Check.Basic
import FieldML.Proofs.Unify.Mirror
import FieldML.Proofs.Unify.Skeleton

/-!
# Two ways to type an application

Where the type of a function is known to be a function type, an application compares its parameter
with the type of the argument. Without that case, the type of the function would be compared with a
function from the type of the argument to a new variable. While no variable has a record kind, both
comparisons succeed or both fail, and what is known afterwards is the same up to a renaming.
-/

namespace FieldML

open Check Solver Unify

namespace CheckState

/-- The states that a check can get into: it begins with nothing bound, hands out variables,
compares types over these, with or without success, and all else that it does leaves alone what it
knows about them. -/
inductive Reached : CheckState → Prop
  | start {variants : VariantEnv} {kinds : KindEnv} {types : TypeEnv}
      (hs : (Check.start variants kinds types).Wf) : Reached (Check.start variants kinds types)
  | give {s : CheckState} {k : Kind} (hs : Reached s) (hk : k.Known s.next) : Reached (s.give k)
  | unify {s : CheckState} {a b : Ty} (range : Range) (o : CheckOptions) (hs : Reached s)
      (ha : a.Known s.next) (hb : b.Known s.next) : Reached (Check.unify a b range o s).2
  | other {s s' : CheckState} (hs : Reached s) (hs' : s'.Wf) (hsolver : s'.solver = s.solver) :
      Reached s'

namespace Reached

variable {s : CheckState}

theorem wf (h : s.Reached) : s.Wf := by
  induction h with
  | start hs => exact hs
  | give _ hk ih => exact ih.give hk
  | unify range o _ ha hb ih => exact (keeps_unify ih ha hb range).2.1
  | other _ hs' _ _ => exact hs'

/-- While there are no record kinds, no variable is bound to a type that leads back to it. -/
theorem triangular (h : s.Reached) (hplain : s.solver.Plain) : s.solver.subst.Triangular True := by
  induction h with
  | start => exact .empty
  | @give s k hs hk ih =>
      rw [subst_give]
      refine ih fun v => ?_
      by_cases hv : v = s.next
      · exact hv ▸ kindOf_of_none (hs.wf.fresh s.next (Nat.le_refl _)).2
      · have hkind := hplain v
        rwa [hs.wf.kindOf_give, if_neg hv] at hkind
  | @unify s a b range o hs ha hb ih =>
      rw [unify_apply] at hplain ⊢
      have hbefore := plain_of_unify hs.wf.simple ha.simple hb.simple hplain
      obtain ⟨hbinds, -⟩ := hbefore.unify (hbefore.proper (ih hbefore)) ha.simple hb.simple
      exact hbinds.proper.triangular
  | other _ _ hsolver ih =>
      rw [hsolver] at hplain ⊢
      exact ih hplain

theorem proper (h : s.Reached) (hplain : s.solver.Plain) : s.solver.Proper True :=
  hplain.proper (h.triangular hplain)

end Reached

end CheckState

section NewVariable

variable {s s' : Solver} {m : TypeVar} {t u : Ty} {n : Nat} {o : Option Reason} {r : Range}

theorem Solver.NewFrom.notMem (hnew : s.NewFrom m) (hs : s.Proper True) (hu : u.Known m) :
    m ∉ (s.subst.apply u).freeVars ∧ m ∉ (s.head u).freeVars :=
  ⟨fun hm => Nat.lt_irrefl m (hnew.closed.apply hs.simple.subst hu.simple hu.below m hm),
    fun hm => Nat.lt_irrefl m (hnew.closed.head hs.simple hu.simple hu.below m hm)⟩

/-- A new variable that is compared with a type comes to stand for it. -/
theorem Unify.Runs.assigns_newVar (hrun : Runs n s [(.var m r, t)] o s') (hs : s.Proper True)
    (hplain : s.Plain) (hnew : s.NewFrom m) (ht : t.Known m) (ho : o ≠ some .outOfFuel) :
    o = none ∧ s'.subst = s.subst.bind m (s.head t) := by
  have hvar : s.head (.var m r) = .var m r := head_var_of_none (hnew.fresh m (Nat.le_refl _)).1
  have hnot : m ∉ (s.head t).freeVars := (hnew.notMem hs ht).2
  have hmeet : ∀ {v u}, Meet s (.var m r) t v u → IsRigid u → v = m ∧ u = s.head t := by
    rintro v u ⟨r', ⟨hv, rfl⟩ | ⟨hv, rfl⟩⟩ hu
    · exact ⟨(Ty.var.inj (hv.symm.trans hvar)).1, rfl⟩
    · rw [hvar] at hu
      exact hu.elim
  cases hrun.plainEnd hplain with
  | tooDeep => exact absurd rfl ho
  | same hv ht' =>
      obtain ⟨rfl, -⟩ := Ty.var.inj (hvar.symm.trans hv)
      exact absurd (by simp [ht']) hnot
  | rigid hv =>
      rw [hvar] at hv
      exact hv.elim
  | occurs hm hu hmem =>
      obtain ⟨rfl, rfl⟩ := hmeet hm hu
      exact absurd hmem hnot
  | bind hm hu _ =>
      obtain ⟨rfl, rfl⟩ := hmeet hm hu
      exact ⟨rfl, rfl⟩
  | join hv ht' _ =>
      obtain ⟨rfl, -⟩ := Ty.var.inj (hvar.symm.trans hv)
      rw [ht']
      exact ⟨rfl, rfl⟩

theorem Solver.NewFrom.apply_bind (hnew : s.NewFrom m) (hs : s.Proper True) (ht : t.Known m)
    (hu : u.Simple True) :
    (s.subst.bind m (s.head t)).apply u = (s.subst.apply u).substitute m (s.head t) :=
  hs.triangular.apply_bind (hs.simple.head ht.simple)
    (fun _ hw => hs.find?_of_mem_head ht.simple hw) (hnew.notMem hs ht).2
    (hnew.fresh m (Nat.le_refl _)).1 hu

/-- Older types stay what they are when a new variable is bound. -/
theorem Solver.NewFrom.apply_bind_of_known (hnew : s.NewFrom m) (hs : s.Proper True)
    (ht : t.Known m) (hu : u.Known m) :
    (s.subst.bind m (s.head t)).apply u = s.subst.apply u := by
  rw [hnew.apply_bind hs ht hu.simple]
  refine (hs.simple.subst.apply hu.simple).mapVars_eq_self fun w hw r => ?_
  have hne : w ≠ m := fun heq => (hnew.notMem hs hu).1 (heq ▸ hw)
  simp [Replacement.single, hne]

theorem Solver.NewFrom.apply_bind_self (hnew : s.NewFrom m) (hs : s.Proper True)
    (ht : t.Known m) (r : Range) : (s.subst.bind m (s.head t)).apply (.var m r) = s.head t := by
  rw [hnew.apply_bind hs ht (.var m r),
    Substitution.apply_var_of_none (hnew.fresh m (Nat.le_refl _)).1]
  simp [Ty.substitute, Ty.mapVars, Replacement.single]

end NewVariable

section Applications

variable {s s₁ s₂ : Solver} {func arg param result : Ty} {m : TypeVar} {r funcRange range : Range}
  {i j : Nat} {o₁ o₂ : Option Reason}

/-- What comes of comparing a parameter with an argument, and of comparing a function from the
argument to a new variable with the function: both succeed or both fail, and if they succeed, then
older types have become the same up to one renaming, and so have the result of the function and the
new variable. -/
structure Unify.SameApplication (m : TypeVar) (result : Ty) (range : Range)
    (o₁ : Option Reason) (s₁ : Solver) (o₂ : Option Reason) (s₂ : Solver) : Prop where
  none_iff : o₁ = none ↔ o₂ = none
  renamed : o₁ = none → ∃ ρ : Equiv.Perm TypeVar,
    (∀ t, t.Known m → (s₁.subst.apply t).SameUpTo ρ (s₂.subst.apply t)) ∧
      (s₁.subst.apply result).SameUpTo ρ (s₂.subst.apply (.var m range))

/-- A function from an argument to a new variable is compared with a function part by part. -/
theorem Unify.Runs.of_application
    (hrun : Runs j s [(.func arg (.var m range) funcRange, func)] o₂ s₂) (hplain : s.Plain)
    (hm : s.subst.find? m = none) (hfunc : s.head func = .func param result r)
    (ho : o₂ ≠ some .outOfFuel) :
    ∃ n t u, Runs n (s.log t u) [(s.subst.apply arg, param), (.var m range, result)] o₂ s₂ := by
  have hhead : s.head (.func arg (.var m range) funcRange) =
      .func (s.subst.apply arg) (.var m range) funcRange := by
    rw [head, Substitution.apply_func, Substitution.apply_var_of_none hm]
    rfl
  rcases (hrun.plainEnd hplain).of_rigid (hhead ▸ trivial) (hfunc ▸ trivial) with
    rfl | ⟨n, o, hparts, rfl⟩
  · exact absurd rfl ho
  · rw [hhead, hfunc] at hparts ⊢
    exact ⟨n, _, _, by simpa [parts] using hparts⟩

theorem Unify.Runs.application (hrun₁ : Runs i s [(param, arg)] o₁ s₁)
    (hrun₂ : Runs j s [(.func arg (.var m range) funcRange, func)] o₂ s₂) (hs : s.Proper True)
    (hplain : s.Plain) (hnew : s.NewFrom m) (hf : func.Known m) (ha : arg.Known m)
    (hfunc : s.head func = .func param result r) (ho₁ : o₁ ≠ some .outOfFuel)
    (ho₂ : o₂ ≠ some .outOfFuel) : SameApplication m result range o₁ s₁ o₂ s₂ := by
  have happly : ∀ {t : Ty}, t.Known m → (s.subst.apply t).Known m := fun ht =>
    ⟨hs.simple.subst.apply ht.simple, hnew.closed.apply hs.simple.subst ht.simple ht.below⟩
  obtain ⟨hp, hr⟩ := known_of_expand_eq (happly hf) hfunc
  obtain ⟨n, t, u, hrun⟩ := hrun₂.of_application hplain (hnew.fresh m (Nat.le_refl _)).1 hfunc ho₂
  have htwins : Twins True (Equiv.refl _) s (s.log t u) :=
    ⟨hs, hs.log, hplain, hplain, fun _ hv => hv⟩
  have hself : ∀ {t : Ty}, t.Known m →
      Substitution.Corresponds (Equiv.refl _) s.subst (s.log t u).subst t t := fun ht =>
    corresponds_self s.subst ht.simple hs.simple.subst
  have hmirrored : Mirrored (Equiv.refl _) s.subst (s.log t u).subst [(param, arg)]
      [(s.subst.apply arg, param)] := by
    refine .cons ⟨hself hp, ?_⟩ .nil
    rw [Substitution.Corresponds, subst_log,
      hs.triangular.apply_apply hs.triangular (.refl _) ha.simple]
    exact hself ha
  have hpair₁ : AllSimple True [(param, arg)] := by simp [AllSimple, hp.simple, ha.simple]
  have hpair₂ : AllSimple True [(s.subst.apply arg, param)] := by
    simp [AllSimple, hp.simple, (happly ha).simple]
  rcases hrun.of_cons with ⟨z, hfirst, hsecond⟩ | ⟨e, rfl, hfails⟩
  · obtain ⟨hiff, hmirrors⟩ :=
      hrun₁.mirror hfirst htwins hpair₁ hpair₂ hmirrored ho₁ (by simp)
    obtain ⟨ρ, h⟩ := hmirrors (hiff.2 rfl)
    have hnew' : z.NewFrom m := hfirst.newFrom hs.log.simple hpair₂ hnew.log
      (by simp [AllInside, hp.below, (happly ha).below])
    obtain ⟨rfl, hsubst⟩ := hsecond.assigns_newVar h.right.proper h.right.plain hnew' hr ho₂
    have hsame : ∀ {t : Ty}, t.Known m → (s₁.subst.apply t).SameUpTo ρ (z.subst.apply t) :=
      fun ht => (h.corresponds htwins ht.simple ht.simple (hself ht)).sameUpTo
        (h.left.proper.simple.subst.apply ht.simple) (h.right.proper.simple.subst.apply ht.simple)
    refine ⟨hiff, fun _ => ⟨ρ, fun t ht => ?_, ?_⟩⟩
    · rw [hsubst, hnew'.apply_bind_of_known h.right.proper hr ht]
      exact hsame ht
    · rw [hsubst, hnew'.apply_bind_self h.right.proper hr]
      exact (hsame hr).trans (Ty.mono_expand _).symm
  · obtain ⟨hiff, -⟩ := hrun₁.mirror hfails htwins hpair₁ hpair₂ hmirrored ho₁ ho₂
    exact ⟨hiff, fun hnone => absurd (hiff.1 hnone) (by simp)⟩

end Applications

theorem Substitution.Simple.mono_apply_withRange {syn : Prop} {s : Substitution} {t : Ty}
    {σ : Instantiation} (hs : s.Simple syn) (ht : t.Simple syn) (r : Range) :
    (s.apply (t.withRange r)).mono σ = (s.apply t).mono σ := by
  rw [← (hs.apply (ht.withRange r)).mono_erase, s.erase_apply_congr (Ty.erase_withRange r t),
    (hs.apply ht).mono_erase]

namespace Check

variable {o : CheckOptions} {s : CheckState} {func arg param result : Ty} {r : Range}

/-- Two attempts to type an expression both succeed or both fail. If they succeed, then up to one
renaming, to synonyms and to ranges they have found the same type, and all types with variables
below `n` have become the same. -/
structure AgreeOn (n : TypeVar) (x y : Except TypeError Ty × CheckState) : Prop where
  isOk : x.1.isOk = y.1.isOk
  renamed : ∀ t s u z, x = (.ok t, s) → y = (.ok u, z) → ∃ ρ : Equiv.Perm TypeVar,
    (∀ p, p.Known n → (s.solver.subst.apply p).SameUpTo ρ (z.solver.subst.apply p)) ∧
      (s.solver.subst.apply t).SameUpTo ρ (z.solver.subst.apply u)

/-- While there are no record kinds, comparing two types and going on with a third one succeeds
exactly if the comparison follows the rules without a failure, and it never wants for fuel. -/
theorem unify_then_runs {a b : Ty} (hs : s.Reached) (hplain : s.solver.Plain) (ha : a.Simple True)
    (hb : b.Simple True) (t : Ty) (range : Range) :
    ∃ n reason solver, Runs n s.solver.forget [(a, b)] reason solver ∧
      reason ≠ some .outOfFuel ∧
      ((unify a b range >>= fun _ => pure t) o s).1.isOk = reason.isNone ∧
      ∀ u s', (unify a b range >>= fun _ => pure t) o s = (.ok u, s') →
        reason = none ∧ u = t ∧ s'.solver = solver := by
  have hproper : s.solver.forget.Proper True := (hs.proper hplain).forget
  obtain ⟨reason, solver, hrun, hunify⟩ := unify_runs hs.wf.simple ha hb
  have hfuel := Runs.ne_outOfFuel_of_plain (s := s.solver.forget) hrun hproper ha hb hplain
  refine ⟨_, reason, solver, hrun, hfuel, ?_⟩
  rw [bind_apply, unify_apply, hunify]
  cases reason with
  | none =>
      refine ⟨rfl, fun u s' hok => ?_⟩
      obtain ⟨hu, rfl⟩ := Prod.mk.inj hok
      exact ⟨rfl, (Except.ok.inj hu).symm, rfl⟩
  | some e => exact ⟨rfl, fun u s' hok => by cases hok⟩

/-- If the type of a function is known to be a function type, then comparing its parameter with the
argument and comparing the whole type with a function to a new variable come to the same. -/
theorem applications_agree (hs : s.Reached) (hplain : s.solver.Plain) (hf : func.Known s.next)
    (ha : arg.Known s.next) (hfunc : (s.solver.subst.apply func).expand = .func param result r)
    (funcRange argRange range : Range) :
    AgreeOn s.next (applyType func arg funcRange argRange range o s)
      (applyUnknown func arg funcRange range o s) := by
  obtain ⟨hp, hr⟩ := known_of_expand_eq (hs.wf.apply hf) hfunc
  have happly₁ : applyType func arg funcRange argRange range o s =
      (unify param arg argRange >>= fun _ => pure (result.withRange range)) o s := by
    simp only [applyType, resolve, bind_apply, get_apply, pure_apply, hfunc]
  have happly₂ : applyUnknown func arg funcRange range o s =
      (unify (.func arg (.var s.next range) funcRange) func funcRange >>= fun _ =>
        pure (.var s.next range)) o (s.give .universal) := rfl
  obtain ⟨n₁, o₁, s₁, hrun₁, hfuel₁, hok₁, hstate₁⟩ :=
    unify_then_runs (o := o) hs hplain hp.simple ha.simple (result.withRange range) argRange
  obtain ⟨n₂, o₂, s₂, hrun₂, hfuel₂, hok₂, hstate₂⟩ :=
    unify_then_runs (o := o) (hs.give Kind.known_universal) hplain
      (.func funcRange ha.simple (.var s.next range)) hf.simple (.var s.next range) funcRange
  obtain ⟨hiff, hrenamed⟩ := hrun₁.application hrun₂ (hs.proper hplain).forget hplain
    ⟨⟨hs.wf.closed.binding, hs.wf.closed.kind⟩, hs.wf.fresh⟩ hf ha hfunc hfuel₁ hfuel₂
  rw [happly₁, happly₂]
  refine ⟨?_, fun t x u y hx hy => ?_⟩
  · rw [hok₁, hok₂]
    cases o₁ <;> cases o₂ <;> simp at hiff ⊢
  · obtain ⟨hnone, rfl, rfl⟩ := hstate₁ t x hx
    obtain ⟨-, rfl, rfl⟩ := hstate₂ u y hy
    obtain ⟨ρ, holder, hresult⟩ := hrenamed hnone
    have hsimple := hrun₁.simple hs.wf.simple.forget (by simp [AllSimple, hp.simple, ha.simple])
    exact ⟨ρ, holder, (hsimple.subst.mono_apply_withRange hr.simple range).trans hresult⟩

/-- Three variables were handed out, and the first one was found to be a synonym for the functions
from the second one to lists of it. -/
def knownStep : CheckState :=
  let started := start initialVariantEnv .empty initialTypeEnv
  let given := ((started.give .universal).give .universal).give .universal
  let step := Ty.func (.var 6 .erased) (.list (.var 6 .erased) .erased) .erased
  (unify (.var 5 .erased) (.synonym "step" [.var 6 .erased] step .erased) .erased {} given).2

theorem reached_knownStep : knownStep.Reached := by
  have hvar : ∀ v < 8, (Ty.var v .erased).Known 8 := fun v hv => .var hv .erased
  have hstep : (Ty.synonym "step" [.var 6 .erased]
      (.func (.var 6 .erased) (.list (.var 6 .erased) .erased) .erased) .erased).Known 8 := by
    refine ⟨.synonym _ _ trivial (by simp [Ty.Simple.var])
      (.func _ (.var _ _) (.list _ (.var _ _))) ?_, ?_⟩ <;>
      simp [Ty.Inside, Ty.freeVars, Ty.freeVarsUnder, Ty.freeVarsOfList]
  have hstart : (start initialVariantEnv .empty initialTypeEnv).Reached :=
    .start (.start wf_initialEnvironments)
  have hgiven := ((hstart.give Kind.known_universal).give Kind.known_universal).give
    Kind.known_universal
  exact .unify .erased {} hgiven (hvar 5 (by decide)) hstep

/-- One way of typing the application binds the parameter, the other one the argument. -/
theorem applications_agree_knownStep :
    let x := applyType (.var 5 .erased) (.var 7 .erased) .erased .erased .erased {} knownStep
    let y := applyUnknown (.var 5 .erased) (.var 7 .erased) .erased .erased {} knownStep
    knownStep.solver.Plain ∧ x.1.isOk = true ∧ x.2.solver.subst.find? 7 = none ∧
      y.2.solver.subst.find? 6 = none ∧ AgreeOn knownStep.next x y := by
  have hplain : knownStep.solver.Plain := @kindOf_start initialVariantEnv initialTypeEnv
  refine ⟨hplain, by rfl, by rfl, by rfl, ?_⟩
  exact applications_agree reached_knownStep hplain (.var (by decide +kernel) _)
    (.var (by decide +kernel) _) rfl .erased .erased .erased

end Check

end FieldML
