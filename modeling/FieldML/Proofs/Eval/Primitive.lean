import FieldML.Proofs.Eval.Form

/-!
# Primitives look at forms

On arguments of one form a primitive fails in the same way or gives values of one form, and it leaves
the machine as it is. Its faults lie in its arguments: it neither looks names up nor runs into a
limit.
-/

namespace FieldML

variable {α α' β β' : Type}

/-- The fault lies in a value, and neither in a name without a value nor in a limit. -/
def EvalError.LiesInValue : EvalError → Prop
  | .unboundVariable _ | .fuelExhausted | .tooDeep _ => False
  | _ => True

namespace Eval

/-- On these machines, which they leave as they are, the evaluations have related outcomes or the
same fault, which lies in a value. -/
inductive Agree (m m' : Machine) (Q : α → α' → Prop) (p : Eval α) (q : Eval α') : Prop
  | ok {a : α} {a' : α'} (hp : p m = (.ok a, m)) (hq : q m' = (.ok a', m')) (ha : Q a a')
  | error {e : EvalError} (he : e.LiesInValue) (hp : p m = (.error e, m))
      (hq : q m' = (.error e, m'))

variable {m m' : Machine} {Q : α → α' → Prop} {S : β → β' → Prop} {p : Eval α} {q : Eval α'}

theorem Agree.bind {k : α → Eval β} {l : α' → Eval β'} (h : Agree m m' Q p q)
    (hk : ∀ a a', Q a a' → Agree m m' S (k a) (l a')) : Agree m m' S (p >>= k) (q >>= l) := by
  cases h with
  | error he hp hq => exact .error he (bind_run_error hp k) (bind_run_error hq l)
  | ok hp hq ha =>
      cases hk _ _ ha with
      | error he hk hl => exact .error he ((bind_run_ok hp k).trans hk) ((bind_run_ok hq l).trans hl)
      | ok hk hl hb => exact .ok ((bind_run_ok hp k).trans hk) ((bind_run_ok hq l).trans hl) hb

theorem agree_pure {a : α} {a' : α'} (ha : Q a a') :
    Agree m m' Q (pure a : Eval α) (pure a' : Eval α') := .ok rfl rfl ha

theorem agree_throw {e : EvalError} (he : e.LiesInValue) :
    Agree m m' Q (throw e : Eval α) (throw e : Eval α') := .error he rfl rfl

theorem agree_failOn {cause : String → EvalError} (hcause : ∀ t, (cause t).LiesInValue)
    {v w : Value}
    (htext : v.print m.cells = w.print m'.cells) :
    Agree m m' Q (failOn cause v : Eval α) (failOn cause w : Eval α') :=
  .error (hcause _) rfl (congrArg (fun t => (Except.error (cause t), m')) htext.symm)

end Eval

namespace Primitive

open Eval Value

variable {R : Value → Value → Prop} {C : String → Core → Scope → Scope → Prop} {m m' : Machine}
  {p : Primitive} {v w v' w' : Value}

section Values

variable (hR : ByForm R C) (htext : ∀ v w, R v w → v.print m.cells = w.print m'.cells)

include htext in
theorem agree_refuse {Q : α → α' → Prop} (expected : String) (h : R v w) :
    Agree m m' Q (p.refuse expected v) (p.refuse expected w) := by
  refine agree_failOn (fun _ => ?_) (htext v w h)
  trivial

include hR htext

theorem agree_intArg (h : R v w) : Agree m m' Eq (p.intArg v) (p.intArg w) := by
  cases hR.iff.1 h with
  | int n => exact agree_pure rfl
  | _ => exact agree_refuse htext "an int" h

theorem agree_boolArg (h : R v w) : Agree m m' Eq (p.boolArg v) (p.boolArg w) := by
  cases hR.iff.1 h with
  | bool b => exact agree_pure rfl
  | _ => exact agree_refuse htext "a bool" h

theorem agree_stringArg (h : R v w) : Agree m m' Eq (p.stringArg v) (p.stringArg w) := by
  cases hR.iff.1 h with
  | string s => exact agree_pure rfl
  | _ => exact agree_refuse htext "a string" h

theorem agree_listArg (h : R v w) :
    Agree m m' (List.Forall₂ R) (p.listArg v) (p.listArg w) := by
  cases hR.iff.1 h with
  | list hvs => exact agree_pure hvs
  | _ => exact agree_refuse htext "a list" h

omit htext in
theorem agree_intResult (n : Int) : Agree m m' R (p.intResult n) (p.intResult n) := by
  unfold intResult
  split
  · exact agree_pure (hR.iff.2 (.int _))
  · exact agree_throw trivial

theorem agree_arithmetic (op : Int → Int → Int) (h : R v w) (h' : R v' w') :
    Agree m m' R (p.arithmetic op v v') (p.arithmetic op w w') := by
  refine (agree_intArg hR htext h).bind fun i _ hi => ?_
  refine (agree_intArg hR htext h').bind fun j _ hj => ?_
  rw [← hi, ← hj]
  exact agree_intResult hR _

theorem agree_division (op : Int → Int → Int) (h : R v w) (h' : R v' w') :
    Agree m m' R (p.division op v v') (p.division op w w') := by
  refine (agree_intArg hR htext h).bind fun i _ hi => ?_
  refine (agree_intArg hR htext h').bind fun j _ hj => ?_
  rw [← hi, ← hj]
  by_cases hzero : j = 0
  · simp only [hzero, if_true]
    exact agree_throw trivial
  · simp only [hzero, if_false]
    exact (agree_intResult hR _).bind fun _ _ _ => agree_intResult hR _

theorem agree_comparison (test : Int → Int → Bool) (h : R v w) (h' : R v' w') :
    Agree m m' R (p.comparison test v v') (p.comparison test w w') := by
  refine (agree_intArg hR htext h).bind fun i _ hi => ?_
  refine (agree_intArg hR htext h').bind fun j _ hj => ?_
  rw [← hi, ← hj]
  exact agree_pure (hR.iff.2 (.bool _))

omit htext in
theorem agree_sameness (h : R v w) (h' : R v' w') :
    Agree m m' Eq (sameness v v') (sameness w w') := by
  rw [sameness, sameness, hR.equal?_eq h h']
  split
  · exact agree_pure rfl
  · exact agree_throw trivial

omit htext in
theorem agree_substring [Text.Segmentation] (s : String) (start length : Int) :
    Agree m m' R (substring s start length) (substring s start length) := by
  unfold substring
  by_cases hneg : start < 0 ∨ length < 0
  · simp only [hneg, if_true]
    exact agree_throw trivial
  · simp only [hneg, if_false]
    by_cases hlong : (Text.Segmentation.clusters s).length < start.toNat + length.toNat
    · simp only [hlong, if_true]
      exact agree_throw trivial
    · simp only [hlong, if_false]
      exact agree_pure (hR.iff.2 (.string _))

variable [Text.Segmentation]

/-- A primitive that has all of its arguments. -/
theorem agree_run {args args' : List Value} (hlength : args.length = p.arity)
    (h : List.Forall₂ R args args') : Agree m m' R (p.run args) (p.run args') := by
  have hone : p.arity = 1 → ∃ a a', args = [a] ∧ args' = [a'] ∧ R a a' := by
    intro harity
    match args, args', hlength.trans harity, h with
    | [a], [a'], _, .cons ha .nil => exact ⟨a, a', rfl, rfl, ha⟩
  have htwo : p.arity = 2 → ∃ a b a' b', args = [a, b] ∧ args' = [a', b'] ∧ R a a' ∧ R b b' := by
    intro harity
    match args, args', hlength.trans harity, h with
    | [a, b], [a', b'], _, .cons ha (.cons hb .nil) => exact ⟨a, b, a', b', rfl, rfl, ha, hb⟩
  cases p with
  | add | sub | mul =>
      obtain ⟨a, b, a', b', rfl, rfl, ha, hb⟩ := htwo rfl
      exact agree_arithmetic hR htext _ ha hb
  | div | mod =>
      obtain ⟨a, b, a', b', rfl, rfl, ha, hb⟩ := htwo rfl
      exact agree_division hR htext _ ha hb
  | lt | gt | le | ge =>
      obtain ⟨a, b, a', b', rfl, rfl, ha, hb⟩ := htwo rfl
      exact agree_comparison hR htext _ ha hb
  | eq | ne =>
      obtain ⟨a, b, a', b', rfl, rfl, ha, hb⟩ := htwo rfl
      refine (agree_sameness hR ha hb).bind fun same _ hsame => ?_
      exact agree_pure (hR.iff.2 (hsame ▸ .bool _))
  | concat =>
      obtain ⟨a, b, a', b', rfl, rfl, ha, hb⟩ := htwo rfl
      refine (agree_stringArg hR htext ha).bind fun s _ hs => ?_
      refine (agree_stringArg hR htext hb).bind fun t _ ht => ?_
      exact agree_pure (hR.iff.2 (hs ▸ ht ▸ .string _))
  | cons =>
      obtain ⟨a, b, a', b', rfl, rfl, ha, hb⟩ := htwo rfl
      refine (agree_listArg hR htext hb).bind fun vs ws hvs => ?_
      exact agree_pure (hR.iff.2 (.list (.cons ha hvs)))
  | not =>
      obtain ⟨a, a', rfl, rfl, ha⟩ := hone rfl
      refine (agree_boolArg hR htext ha).bind fun b _ hb => ?_
      exact agree_pure (hR.iff.2 (hb ▸ .bool _))
  | stringOfInt =>
      obtain ⟨a, a', rfl, rfl, ha⟩ := hone rfl
      refine (agree_intArg hR htext ha).bind fun n _ hn => ?_
      exact agree_pure (hR.iff.2 (hn ▸ .string _))
  | stringOfBool =>
      obtain ⟨a, a', rfl, rfl, ha⟩ := hone rfl
      refine (agree_boolArg hR htext ha).bind fun b _ hb => ?_
      exact agree_pure (hR.iff.2 (hb ▸ .string _))
  | stringLength =>
      obtain ⟨a, a', rfl, rfl, ha⟩ := hone rfl
      refine (agree_stringArg hR htext ha).bind fun s _ hs => ?_
      exact agree_pure (hR.iff.2 (hs ▸ .int _))
  | listLength =>
      obtain ⟨a, a', rfl, rfl, ha⟩ := hone rfl
      refine (agree_listArg hR htext ha).bind fun vs ws hvs => ?_
      exact agree_pure (hR.iff.2 (hvs.length_eq ▸ .int _))
  | stringSub =>
      match args, args', hlength, h with
      | [a, b, c], [a', b', c'], _, .cons ha (.cons hb (.cons hc .nil)) =>
          refine (agree_stringArg hR htext ha).bind fun s _ hs => ?_
          refine (agree_intArg hR htext hb).bind fun start _ hstart => ?_
          refine (agree_intArg hR htext hc).bind fun length _ hlength => ?_
          rw [← hs, ← hstart, ← hlength]
          exact agree_substring hR s start length

/-- A primitive cannot tell apart arguments of one form. -/
theorem agree_applyTo {args args' : List Value} (h : List.Forall₂ R args args') {arg arg' : Value}
    (harg : R arg arg') : Agree m m' R (p.applyTo args arg) (p.applyTo args' arg') := by
  have hall : List.Forall₂ R (args ++ [arg]) (args' ++ [arg']) :=
    List.rel_append h (.cons harg .nil)
  unfold applyTo
  dsimp only
  rw [← hall.length_eq]
  split
  · next hlength => exact agree_run hR htext hlength hall
  · exact agree_pure (hR.iff.2 (.primitive p hall))

end Values

/-- A primitive leaves the machine as it is, and its outcome depends on the cells only. -/
theorem applyTo_run [Text.Segmentation] (p : Primitive) (args : List Value) (arg : Value)
    (m m' : Machine)
    (hcells : m.cells = m'.cells) :
    ∃ r : Except EvalError Value, p.applyTo args arg m = (r, m) ∧ p.applyTo args arg m' = (r, m') ∧
      ∀ e, r = .error e → e.LiesInValue := by
  have htext : ∀ v w : Value, v = w → v.print m.cells = w.print m'.cells := by
    rintro v _ rfl
    rw [hcells]
  cases agree_applyTo (p := p) byForm_eq htext (List.forall₂_refl args) (rfl : arg = arg) with
  | ok hp hq ha => exact ⟨_, hp, ha ▸ hq, nofun⟩
  | error he hp hq =>
      refine ⟨_, hp, hq, ?_⟩
      rintro _ ⟨⟩
      exact he

end Primitive

end FieldML
