import FieldML.Eval
import FieldML.Proofs.Eval.Primitive

/-!
# Where evaluation looks at its limits

Only the entry into an expression takes a step. Everything else that an evaluation does is quiet: it
neither reads nor changes the number of steps that are left. A relation between evaluations that
quiet steps respect and that sequences respect is therefore respected by a whole level as soon as the
evaluations of the parts are related.
-/

namespace FieldML

variable {α β : Type}

/-- The machine with another number of steps left. -/
def Machine.withFuel (m : Machine) (fuel : Option Nat) : Machine := { m with fuel := fuel }

@[simp] theorem Machine.fuel_withFuel (m : Machine) (fuel : Option Nat) :
    (m.withFuel fuel).fuel = fuel := rfl

@[simp] theorem Machine.withFuel_withFuel (m : Machine) (fuel fuel' : Option Nat) :
    (m.withFuel fuel).withFuel fuel' = m.withFuel fuel' := rfl

@[simp] theorem Machine.withFuel_fuel (m : Machine) : m.withFuel m.fuel = m := rfl

@[simp] theorem Machine.find?_withFuel (m : Machine) (fuel : Option Nat) (x : String)
    (scope : Scope) : (m.withFuel fuel).find? x scope = m.find? x scope := by
  induction scope with
  | nil => rfl
  | cons frame scope ih =>
      rw [Machine.find?, Machine.find?, ih]
      rfl

namespace Eval

/-- Neither reads nor changes the number of steps that are left, and does not run out of them. -/
def Quiet (p : Eval α) : Prop :=
  ∀ m : Machine, (p m).1 ≠ .error .fuelExhausted ∧
    ∀ fuel, p (m.withFuel fuel) = ((p m).1, (p m).2.withFuel fuel)

theorem quiet_pure (a : α) : Quiet (pure a : Eval α) := fun _ => ⟨by simp, fun _ => rfl⟩

theorem quiet_throw {e : EvalError} (he : e ≠ .fuelExhausted) : Quiet (throw e : Eval α) :=
  fun _ => ⟨fun h => he (Except.error.inj h), fun _ => rfl⟩

theorem Quiet.bind {p : Eval α} {k : α → Eval β} (hp : Quiet p) (hk : ∀ a, Quiet (k a)) :
    Quiet (p >>= k) := by
  intro m
  obtain ⟨hne, hfuel⟩ := hp m
  simp only [bind_run, hfuel]
  rcases hrun : p m with ⟨e | a, m₁⟩
  · rw [hrun] at hne
    exact ⟨fun h => hne (congrArg _ (Except.error.inj h)), fun _ => rfl⟩
  · exact hk a m₁

theorem quiet_failOn {cause : String → EvalError} (hcause : ∀ t, cause t ≠ .fuelExhausted)
    (v : Value) : Quiet (failOn cause v : Eval α) :=
  fun m => ⟨fun h => hcause (v.print m.cells) (Except.error.inj h), fun _ => rfl⟩

theorem quiet_newCell (v : Value) : Quiet (newCell v) :=
  fun _ => ⟨nofun, fun _ => rfl⟩

theorem quiet_readCell (i : Nat) : Quiet (readCell i) :=
  fun _ => ⟨nofun, fun _ => rfl⟩

theorem quiet_writeCell (i : Nat) (v : Value) : Quiet (writeCell i v) :=
  fun _ => ⟨nofun, fun _ => rfl⟩

theorem quiet_newFrame : Quiet newFrame :=
  fun _ => ⟨nofun, fun _ => rfl⟩

theorem quiet_modify {f : Machine → Machine}
    (hf : ∀ m fuel, f (m.withFuel fuel) = (f m).withFuel fuel) : Quiet (modify f : Eval Unit) :=
  fun m => ⟨nofun, fun fuel => congrArg (Except.ok (), ·) (hf m fuel)⟩

theorem quiet_bindAll (frame : Nat) (bindings : List (String × Value)) :
    Quiet (bindAll frame bindings) :=
  quiet_modify fun m fuel => by
    rw [Machine.bindAll_eq, Machine.bindAll_eq]
    rfl

theorem quiet_enter (scope : Scope) (bindings : List (String × Value)) :
    Quiet (enter scope bindings) :=
  quiet_newFrame.bind fun frame => (quiet_bindAll frame bindings).bind fun _ => quiet_pure _

theorem quiet_reportArm (index : Nat) (v : Value) : Quiet (reportArm index v) := by
  refine quiet_modify fun m fuel => ?_
  dsimp only [Machine.withFuel]
  split <;> rfl

end Eval

theorem Primitive.quiet_applyTo [Text.Segmentation] (p : Primitive) (args : List Value)
    (arg : Value) :
    Eval.Quiet (p.applyTo args arg) := by
  intro m
  obtain ⟨r, hrun, -, hfault⟩ := p.applyTo_run args arg m m rfl
  refine ⟨fun hcut => ?_, fun fuel => ?_⟩
  · rw [hrun] at hcut
    exact hfault _ hcut
  · obtain ⟨r', hrun', hmore, -⟩ := p.applyTo_run args arg m (m.withFuel fuel) rfl
    rw [hmore, hrun']

namespace Eval

/-- A relation between evaluations that quiet steps and sequences respect. -/
structure Respected (R : ∀ {α : Type}, Eval α → Eval α → Prop) : Prop where
  quiet : ∀ {α : Type} {p : Eval α}, Quiet p → R p p
  bind : ∀ {α β : Type} {p q : Eval α} {k l : α → Eval β}, R p q → (∀ a, R (k a) (l a)) →
    R (p >>= k) (q >>= l)

namespace Respected

variable {R : ∀ {α : Type}, Eval α → Eval α → Prop} (hR : Respected R) {ev ev' : Evaluator}

include hR

theorem pure (a : α) : R (Pure.pure a : Eval α) (Pure.pure a) := hR.quiet (quiet_pure a)

theorem mapM {f g : α → Eval β} (l : List α) (h : ∀ a ∈ l, R (f a) (g a)) :
    R (l.mapM f) (l.mapM g) := by
  induction l with
  | nil => exact hR.pure []
  | cons a l ih =>
      obtain ⟨ha, hl⟩ := List.forall_mem_cons.1 h
      rw [List.mapM_cons, List.mapM_cons]
      exact hR.bind ha fun b => hR.bind (ih hl) fun bs => hR.pure _

theorem apply [Text.Segmentation] (hev : ∀ scope e, R (ev scope e) (ev' scope e))
    (func arg : Value) : R (Eval.apply ev func arg) (Eval.apply ev' func arg) := by
  cases func with
  | closure param body scope =>
      exact hR.bind (hR.quiet (quiet_enter scope _)) fun inner => hev inner body
  | primitive p args => exact hR.quiet (p.quiet_applyTo args arg)
  | _ => exact hR.quiet (quiet_failOn (by simp) _)

theorem fields (hev : ∀ scope e, R (ev scope e) (ev' scope e)) (scope : Scope)
    (before : List (String × Value)) (fs : List (String × Core)) :
    R (Eval.fields ev scope before fs) (Eval.fields ev' scope before fs) := by
  unfold Eval.fields
  induction fs generalizing before with
  | nil => exact hR.pure before
  | cons f fs ih =>
      rw [List.foldlM_cons, List.foldlM_cons]
      exact hR.bind (hR.bind (hev scope f.2) fun v => hR.pure _) ih

theorem recursive (hev : ∀ scope e, R (ev scope e) (ev' scope e)) (scope : Scope)
    (bindings : List (CoreBinding Core)) :
    R (Eval.recursive ev scope bindings) (Eval.recursive ev' scope bindings) := by
  refine hR.bind (hR.quiet quiet_newFrame) fun frame => ?_
  refine hR.bind (hR.mapM bindings fun b _ => hR.bind (hev _ b.value) fun v => hR.pure _) fun vs => ?_
  exact hR.bind (hR.quiet (quiet_bindAll frame vs)) fun _ => hR.pure _

theorem arms (hev : ∀ scope e, R (ev scope e) (ev' scope e)) (scope : Scope) (v : Value)
    (alternatives : List (CoreArm Core)) (index : Nat) :
    R (Eval.arms ev scope v index alternatives) (Eval.arms ev' scope v index alternatives) := by
  induction alternatives generalizing index with
  | nil => exact hR.quiet (quiet_failOn (by simp) v)
  | cons arm alternatives ih =>
      rw [Eval.arms, Eval.arms]
      split
      · refine hR.bind (hR.quiet (quiet_reportArm index v)) fun _ => ?_
        exact hR.bind (hR.quiet (quiet_enter scope _)) fun inner => hev inner arm.body
      · exact ih (index + 1)

/-- A whole level respects the relation if the evaluations of the parts are related. -/
theorem node [Text.Segmentation] (hev : ∀ scope e, R (ev scope e) (ev' scope e)) (scope : Scope)
    (e : Core) :
    R (Eval.node ev scope e) (Eval.node ev' scope e) := by
  cases e with
  | literal l => exact hR.pure _
  | var x =>
      refine hR.quiet fun m => ?_
      simp only [Eval.node, bind_run, get_run, Machine.find?_withFuel]
      cases m.find? x scope with
      | some v => exact quiet_pure v m
      | none => exact quiet_throw (by simp) m
  | lambda x t body => exact hR.pure _
  | apply func arg =>
      exact hR.bind (hev scope func) fun f => hR.bind (hev scope arg) fun a => hR.apply hev f a
  | letIn x t value body =>
      refine hR.bind (hev scope value) fun v => ?_
      exact hR.bind (hR.quiet (quiet_enter scope _)) fun inner => hev inner body
  | letRec bindings body =>
      exact hR.bind (hR.recursive hev scope bindings) fun inner => hev inner body
  | ifElse cond yes no =>
      refine hR.bind (hev scope cond) fun c => ?_
      split
      · exact hev scope yes
      · exact hev scope no
      · exact hR.quiet (quiet_failOn (by simp) _)
  | list items => exact hR.bind (hR.mapM items fun e _ => hev scope e) fun vs => hR.pure _
  | tuple items => exact hR.bind (hR.mapM items fun e _ => hev scope e) fun vs => hR.pure _
  | record fs => exact hR.bind (hR.fields hev scope [] fs) fun gs => hR.pure _
  | field base name =>
      refine hR.bind (hev scope base) fun v => ?_
      split
      · split
        · exact hR.pure _
        · exact hR.quiet (quiet_throw (by simp))
      · exact hR.quiet (quiet_failOn (by simp) _)
  | update base fs =>
      refine hR.bind (hev scope base) fun v => ?_
      split
      · exact hR.bind (hR.fields hev scope _ fs) fun gs => hR.pure _
      · exact hR.quiet (quiet_failOn (by simp) _)
  | construct c args =>
      exact hR.bind (hR.mapM args fun e _ => hev scope e) fun vs => hR.pure _
  | caseOf scrutinee t alternatives =>
      exact hR.bind (hev scope scrutinee) fun v => hR.arms hev scope v alternatives 0
  | ref value => exact hR.bind (hev scope value) fun v => hR.quiet (quiet_newCell v)
  | deref target =>
      refine hR.bind (hev scope target) fun v => ?_
      split
      · exact hR.quiet (quiet_readCell _)
      · exact hR.quiet (quiet_failOn (by simp) _)
  | assign target value =>
      refine hR.bind (hev scope target) fun t => hR.bind (hev scope value) fun v => ?_
      split
      · exact hR.bind (hR.quiet (quiet_writeCell _ v)) fun _ => hR.pure _
      · exact hR.quiet (quiet_failOn (by simp) _)
  | sequence first second => exact hR.bind (hev scope first) fun _ => hev scope second
  | annot body t => exact hev scope body

end Respected

end Eval

end FieldML
