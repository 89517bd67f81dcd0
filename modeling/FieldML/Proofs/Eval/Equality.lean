import FieldML.Eval.Match
import FieldML.Eval.Primitive
import FieldML.Proofs.Fields
import Mathlib.Tactic.Common

/-!
# Equality of values

Two values are found to be the same exactly if they are the same value and no function occurs in it.
References are compared by their cells, so what these hold does not matter. In which order two values
are compared makes no difference, also for comparisons that fail because of a function.
-/

namespace FieldML

namespace Value

/-- No function occurs in the value, apart from what its references hold. -/
inductive FunctionFree : Value → Prop
  | unit : FunctionFree .unit
  | bool (b : Bool) : FunctionFree (.bool b)
  | int (n : Int64) : FunctionFree (.int n)
  | string (s : String) : FunctionFree (.string s)
  | list {vs : List Value} (hvs : ∀ v ∈ vs, FunctionFree v) : FunctionFree (.list vs)
  | tuple {vs : List Value} (hvs : ∀ v ∈ vs, FunctionFree v) : FunctionFree (.tuple vs)
  | record {fs : List (String × Value)} (hfs : ∀ p ∈ fs, FunctionFree p.2) :
      FunctionFree (.record fs)
  | construct (c : String) {vs : List Value} (hvs : ∀ v ∈ vs, FunctionFree v) :
      FunctionFree (.construct c vs)
  | ref (i : Nat) : FunctionFree (.ref i)

/-! ### Comparing values of one form -/

section Forms

variable {c d : String} {vs ws : List Value} {fs gs : List (String × Value)}

theorem equal?_list :
    (Value.list vs).equal? (.list ws) =
      if vs.length = ws.length then allEqual? vs ws else some false := by
  simp [equal?, isFunction]

theorem equal?_tuple :
    (Value.tuple vs).equal? (.tuple ws) =
      if vs.length = ws.length then allEqual? vs ws else some false := by
  simp [equal?, isFunction]

theorem equal?_record :
    (Value.record fs).equal? (.record gs) =
      if Fields.names fs = Fields.names gs then fieldsEqual? fs gs else some false := by
  simp [equal?, isFunction]

theorem equal?_construct :
    (Value.construct c vs).equal? (.construct d ws) =
      if c = d ∧ vs.length = ws.length then allEqual? vs ws else some false := by
  simp [equal?, isFunction]

theorem allEqual?_cons_eq_some_true {v w : Value} :
    allEqual? (v :: vs) (w :: ws) = some true ↔
      v.equal? w = some true ∧ allEqual? vs ws = some true := by
  rw [allEqual?]
  rcases v.equal? w with _ | _ | _ <;> simp

theorem fieldsEqual?_cons_eq_some_true {f g : String × Value} :
    fieldsEqual? (f :: fs) (g :: gs) = some true ↔
      f.2.equal? g.2 = some true ∧ fieldsEqual? fs gs = some true := by
  rw [fieldsEqual?]
  rcases f.2.equal? g.2 with _ | _ | _ <;> simp

end Forms

/-! ### Either order -/

mutual

theorem equal?_comm (v w : Value) : v.equal? w = w.equal? v := by
  match v with
  | .unit | .closure _ _ _ | .primitive _ _ => cases w <;> simp [equal?, isFunction]
  | .bool _ | .int _ | .string _ | .ref _ => cases w <;> simp [equal?, isFunction, eq_comm]
  | .list vs =>
      cases w with
      | list ws =>
          rw [equal?_list, equal?_list, allEqual?_comm vs ws]
          by_cases h : vs.length = ws.length <;> simp [h, eq_comm]
      | _ => simp [equal?, isFunction]
  | .tuple vs =>
      cases w with
      | tuple ws =>
          rw [equal?_tuple, equal?_tuple, allEqual?_comm vs ws]
          by_cases h : vs.length = ws.length <;> simp [h, eq_comm]
      | _ => simp [equal?, isFunction]
  | .record fs =>
      cases w with
      | record gs =>
          rw [equal?_record, equal?_record, fieldsEqual?_comm fs gs]
          by_cases h : Fields.names fs = Fields.names gs <;> simp [h, eq_comm]
      | _ => simp [equal?, isFunction]
  | .construct c vs =>
      cases w with
      | construct d ws =>
          rw [equal?_construct, equal?_construct, allEqual?_comm vs ws]
          by_cases h : c = d ∧ vs.length = ws.length
          · rw [if_pos h, if_pos ⟨h.1.symm, h.2.symm⟩]
          · rw [if_neg h, if_neg fun h' => h ⟨h'.1.symm, h'.2.symm⟩]
      | _ => simp [equal?, isFunction]

theorem allEqual?_comm (vs ws : List Value) : allEqual? vs ws = allEqual? ws vs := by
  match vs, ws with
  | [], [] | [], _ :: _ | _ :: _, [] => simp [allEqual?]
  | v :: vs, w :: ws => rw [allEqual?, allEqual?, equal?_comm v w, allEqual?_comm vs ws]

theorem fieldsEqual?_comm (fs gs : List (String × Value)) :
    fieldsEqual? fs gs = fieldsEqual? gs fs := by
  match fs, gs with
  | [], [] | [], _ :: _ | _ :: _, [] => simp [fieldsEqual?]
  | (_, v) :: fs, (_, w) :: gs =>
      rw [fieldsEqual?, fieldsEqual?, equal?_comm v w, fieldsEqual?_comm fs gs]

end

/-! ### What is the same -/

theorem ite_eq_some_true {p : Prop} [Decidable p] {a : Option Bool} :
    (if p then a else some false) = some true ↔ p ∧ a = some true := by
  split <;> simp [*]

mutual

/-- Only a value without functions is found to be the same as another one, and only as itself. -/
theorem equal?_eq_some_true_iff (v w : Value) :
    v.equal? w = some true ↔ v = w ∧ v.FunctionFree := by
  match v with
  | .closure _ _ _ | .primitive _ _ =>
      simp only [equal?, reduceCtorEq, false_iff, not_and]
      exact fun _ => nofun
  | .unit => cases w <;> simp [equal?, isFunction, FunctionFree.unit]
  | .bool b => cases w <;> simp [equal?, isFunction, FunctionFree.bool]
  | .int n => cases w <;> simp [equal?, isFunction, FunctionFree.int]
  | .string s => cases w <;> simp [equal?, isFunction, FunctionFree.string]
  | .ref i => cases w <;> simp [equal?, isFunction, FunctionFree.ref]
  | .list vs =>
      cases w with
      | list ws =>
          rw [equal?_list, ite_eq_some_true, allEqual?_eq_some_true_iff vs ws, list.injEq]
          exact and_congr_right fun _ => ⟨.list, fun (.list hvs) => hvs⟩
      | _ => simp [equal?, isFunction]
  | .tuple vs =>
      cases w with
      | tuple ws =>
          rw [equal?_tuple, ite_eq_some_true, allEqual?_eq_some_true_iff vs ws, tuple.injEq]
          exact and_congr_right fun _ => ⟨.tuple, fun (.tuple hvs) => hvs⟩
      | _ => simp [equal?, isFunction]
  | .record fs =>
      cases w with
      | record gs =>
          rw [equal?_record, ite_eq_some_true, fieldsEqual?_eq_some_true_iff fs gs, record.injEq]
          exact and_congr_right fun _ => ⟨.record, fun (.record hfs) => hfs⟩
      | _ => simp [equal?, isFunction]
  | .construct c vs =>
      cases w with
      | construct d ws =>
          rw [equal?_construct, ite_eq_some_true, and_assoc, allEqual?_eq_some_true_iff vs ws,
            construct.injEq, and_assoc]
          exact and_congr_right fun _ => and_congr_right fun _ =>
            ⟨.construct c, fun (.construct _ hvs) => hvs⟩
      | _ => simp [equal?, isFunction]

theorem allEqual?_eq_some_true_iff (vs ws : List Value) :
    vs.length = ws.length ∧ allEqual? vs ws = some true ↔
      vs = ws ∧ ∀ v ∈ vs, v.FunctionFree := by
  match vs, ws with
  | [], [] => simp [allEqual?]
  | [], _ :: _ | _ :: _, [] => simp
  | v :: vs, w :: ws =>
      rw [allEqual?_cons_eq_some_true, equal?_eq_some_true_iff v w, List.length_cons,
        List.length_cons, Nat.succ_inj, List.cons.injEq, List.forall_mem_cons]
      have ih := allEqual?_eq_some_true_iff vs ws
      tauto

theorem fieldsEqual?_eq_some_true_iff (fs gs : List (String × Value)) :
    Fields.names fs = Fields.names gs ∧ fieldsEqual? fs gs = some true ↔
      fs = gs ∧ ∀ p ∈ fs, p.2.FunctionFree := by
  match fs, gs with
  | [], [] => simp [fieldsEqual?]
  | [], _ :: _ | _ :: _, [] => simp [Fields.names]
  | (m, v) :: fs, (n, w) :: gs =>
      rw [fieldsEqual?_cons_eq_some_true, equal?_eq_some_true_iff v w, Fields.names_cons,
        Fields.names_cons, List.cons.injEq, List.cons.injEq, Prod.mk.injEq, List.forall_mem_cons]
      have ih := fieldsEqual?_eq_some_true_iff fs gs
      tauto

end

/-! ### Comparisons that do not fail -/

theorem isSome_ite {p : Prop} [Decidable p] {a : Option Bool} (h : a.isSome = true) :
    (if p then a else some false).isSome = true := by
  split <;> simp [h]

mutual

theorem FunctionFree.isSome_equal? {v w : Value} (hv : v.FunctionFree) (hw : w.FunctionFree) :
    (v.equal? w).isSome = true := by
  match v, hv with
  | .unit, _ | .bool _, _ | .int _, _ | .string _, _ | .ref _, _ =>
      cases hw <;> simp [equal?, isFunction]
  | .list vs, .list hvs =>
      cases hw with
      | list hws => exact equal?_list ▸ isSome_ite (isSome_allEqual? hvs hws)
      | _ => simp [equal?, isFunction]
  | .tuple vs, .tuple hvs =>
      cases hw with
      | tuple hws => exact equal?_tuple ▸ isSome_ite (isSome_allEqual? hvs hws)
      | _ => simp [equal?, isFunction]
  | .record fs, .record hfs =>
      cases hw with
      | record hgs => exact equal?_record ▸ isSome_ite (isSome_fieldsEqual? hfs hgs)
      | _ => simp [equal?, isFunction]
  | .construct c vs, .construct _ hvs =>
      cases hw with
      | construct d hws => exact equal?_construct ▸ isSome_ite (isSome_allEqual? hvs hws)
      | _ => simp [equal?, isFunction]

theorem isSome_allEqual? {vs ws : List Value} (hvs : ∀ v ∈ vs, v.FunctionFree)
    (hws : ∀ w ∈ ws, w.FunctionFree) : (allEqual? vs ws).isSome = true := by
  match vs, ws with
  | [], [] | [], _ :: _ | _ :: _, [] => simp [allEqual?]
  | v :: vs, w :: ws =>
      obtain ⟨hv, hvs⟩ := List.forall_mem_cons.1 hvs
      obtain ⟨hw, hws⟩ := List.forall_mem_cons.1 hws
      obtain ⟨same, hsame⟩ := Option.isSome_iff_exists.1 (hv.isSome_equal? hw)
      rw [allEqual?, hsame]
      cases same with
      | true => exact isSome_allEqual? hvs hws
      | false => rfl

theorem isSome_fieldsEqual? {fs gs : List (String × Value)} (hfs : ∀ p ∈ fs, p.2.FunctionFree)
    (hgs : ∀ p ∈ gs, p.2.FunctionFree) : (fieldsEqual? fs gs).isSome = true := by
  match fs, gs with
  | [], [] | [], _ :: _ | _ :: _, [] => simp [fieldsEqual?]
  | (_, v) :: fs, (_, w) :: gs =>
      obtain ⟨hv, hfs⟩ := List.forall_mem_cons.1 hfs
      obtain ⟨hw, hgs⟩ := List.forall_mem_cons.1 hgs
      obtain ⟨same, hsame⟩ := Option.isSome_iff_exists.1 (FunctionFree.isSome_equal? hv hw)
      rw [fieldsEqual?, hsame]
      cases same with
      | true => exact isSome_fieldsEqual? hfs hgs
      | false => rfl

end

end Value

/-- A comparison has the same outcome in either order, also if it fails because of a function. Without
functions it does not fail, and every value is the same as itself. To be the same is transitive, and
patterns accept the same values with the same bindings. -/
theorem equality_is_equivalence :
    (∀ x y : Value, x.equal? y = y.equal? x ∧
      Primitive.sameness x y = Primitive.sameness y x) ∧
    (∀ x y : Value, x.FunctionFree → y.FunctionFree →
      (x.equal? y).isSome = true ∧ x.equal? x = some true) ∧
    (∀ x y z : Value, x.equal? y = some true → y.equal? z = some true →
      x.equal? z = some true) ∧
    ∀ x y : Value, x.equal? y = some true → ∀ (p : CorePattern) (bound : List (String × Value)),
      p.bindings? x bound = p.bindings? y bound := by
  refine ⟨fun x y => ⟨x.equal?_comm y, ?_⟩, fun x y hx hy => ⟨hx.isSome_equal? hy, ?_⟩,
    fun x y z hxy hyz => ?_, fun x y hxy p bound => ?_⟩
  · rw [Primitive.sameness, x.equal?_comm y, Primitive.sameness]
  · exact (x.equal?_eq_some_true_iff x).2 ⟨rfl, hx⟩
  · obtain ⟨rfl, -⟩ := (x.equal?_eq_some_true_iff y).1 hxy
    exact hyz
  · obtain ⟨rfl, -⟩ := (x.equal?_eq_some_true_iff y).1 hxy
    rfl

/-- A reference to a cell that may hold a function can be compared. -/
theorem equality_is_equivalence_nestedCell :
    let x : Value := .record [("at", .list [.ref 0, .ref 1]), ("of", .construct "Some" [.int 3])]
    let y : Value :=
      .record [("at", .list [.ref 0, .ref 1]), ("of", .construct "Some" [.int (1 + 2)])]
    (x.equal? y).isSome = true ∧ x.equal? x = some true ∧ y.equal? y = some true ∧
      ∀ (p : CorePattern) (bound : List (String × Value)),
        p.bindings? x bound = p.bindings? y bound := by
  intro x y
  have hfree : ∀ n, (Value.record
      [("at", .list [.ref 0, .ref 1]), ("of", .construct "Some" [.int n])]).FunctionFree := by
    intro n
    refine .record (List.forall_mem_cons.2 ⟨.list ?_, List.forall_mem_singleton.2 (.construct _ ?_)⟩)
    · exact List.forall_mem_cons.2 ⟨.ref 0, List.forall_mem_singleton.2 (.ref 1)⟩
    · exact List.forall_mem_singleton.2 (.int n)
  obtain ⟨-, hdefined, htrans, hmatch⟩ := equality_is_equivalence
  have hxy : x.equal? y = some true := rfl
  have hyx : y.equal? x = some true := rfl
  exact ⟨(hdefined x y (hfree 3) (hfree (1 + 2))).1, htrans x y x hxy hyx, htrans y x y hyx hxy,
    hmatch x y hxy⟩

end FieldML
