import FieldML.Check.Program
import FieldML.Proofs.Check.Declare
import FieldML.Proofs.Check.Infer
import FieldML.Proofs.Check.Basic

/-!
# Whole checks

A whole check declares the types of a program and then finds the type of its expression. Every check
keeps its state in order, and it gives up on a comparison only where no ranks are possible.
-/

namespace FieldML.Check

variable {env : Environments} {o : CheckOptions} {p : Program}

/-- The state in which all types of the program are declared, or a declaration was refused. -/
def declared (env : Environments) (o : CheckOptions) (p : Program) :
    Except TypeError Unit × CheckState :=
  (p.groups.forM declareGroup : Check Unit) o (start env.variants env.kinds env.types)

theorem outcome_eq (env : Environments) (o : CheckOptions) (p : Program) :
    outcome env o p = match declared env o p with
      | (.ok _, s) => infer env.types p.body o s
      | (.error e, s) => (.error e, s) := by
  change (p.groups.forM declareGroup >>= fun _ => infer env.types p.body) o
    (start env.variants env.kinds env.types) = _
  rw [bind_apply]
  unfold declared
  rcases (p.groups.forM declareGroup : Check PUnit) o (start env.variants env.kinds env.types) with
    ⟨_ | _, _⟩ <;> rfl

theorem declares_declared (hs : (start env.variants env.kinds env.types).Wf) :
    Declares (p.groups.forM declareGroup) o (start env.variants env.kinds env.types)
      fun _ _ => True :=
  (declares_forM (P := fun _ _ => True) hs (fun _ _ _ _ _ => trivial)
    fun group _ _ _ hs => declares_declareGroup hs group).mono fun _ _ _ _ => trivial

/-- A whole check ends in a state as it should be. It gives up on a comparison only where no ranks
are possible. -/
theorem wf_outcome (henv : env.Wf) : (outcome env o p).2.Wf ∧
    match outcome env o p with
    | (.ok (_, t), s) => t.Known s.next
    | (.error e, s) => e.OutOfFuel → ∀ h, ¬s.Levelled h := by
  have hdecl := declares_declared (o := o) (p := p) (.start henv)
  unfold Declares at hdecl
  rw [outcome_eq]
  unfold declared
  rcases hrun : (p.groups.forM declareGroup : Check Unit) o
    (start env.variants env.kinds env.types) with ⟨e | u, s⟩
  · rw [hrun] at hdecl
    exact ⟨hdecl.2.1, fun h => absurd h hdecl.2.2⟩
  · rw [hrun] at hdecl
    obtain ⟨hdecl, hs, -⟩ := hdecl
    have hinfer := keeps_infer (o := o) hs (henv.types.mono hdecl.next) p.body
    unfold Keeps at hinfer
    refine ⟨hinfer.2.1, ?_⟩
    dsimp only
    rcases hbody : infer env.types p.body o s with ⟨e | ⟨core, t⟩, s'⟩
    · rw [hbody] at hinfer
      exact hinfer.2.2
    · rw [hbody] at hinfer
      exact hinfer.2.2

end FieldML.Check
