import FieldML.Eval
import FieldML.Proofs.Ground
import FieldML.Proofs.Reading.Token
import Mathlib.Data.List.Forall2

/-!
# Data

Values without functions and references, the finite types they have, and the expressions they are
written as. Such an expression is elaborated to one without types, which is evaluated to the value
again on as many levels as the value is high.
-/

namespace FieldML

open Token

namespace Value

/-- The value holds no function and no reference, and has the type over the declared types. -/
inductive IsData (env : VariantEnv) : Value → GroundTy → Prop
  | unit : IsData env .unit (.base .unit)
  | bool (b : Bool) : IsData env (.bool b) (.base .bool)
  | int (n : Int64) : IsData env (.int n) (.base .int)
  | string (s : String) : IsData env (.string s) (.base .string)
  | list {items : List Value} {τ : GroundTy} (hitems : ∀ v ∈ items, IsData env v τ) :
      IsData env (.list items) (.list τ)
  | tuple {items : List Value} {τs : List GroundTy} (hlength : items.length = τs.length)
      (hitems : ∀ p ∈ items.zip τs, IsData env p.1 p.2) : IsData env (.tuple items) (.product τs)
  | record {fields : List (String × Value)} {τs : List (String × GroundTy)}
      (hsorted : Fields.Sorted fields) (hnames : Fields.names fields = Fields.names τs)
      (hfields : ∀ p ∈ fields.zip τs, IsData env p.1.2 p.2.2) :
      IsData env (.record fields) (.record τs)
  | construct {name : String} {c : Constructor} {args : List Value} (θ : Assignment)
      (hctor : env.constructor? name = some c) (harity : args.length = c.args.length)
      (hargs : ∀ p ∈ args.zip c.args, IsData env p.1 (p.2.ground θ)) :
      IsData env (.construct name args) (.variant c.variant (c.params.map θ))

/-- The expression is the value in writing. Several arguments of a constructor are written as a
tuple. -/
inductive Written : Value → Expr → Prop
  | unit (r : Range) : Written .unit (.literal .unit r)
  | bool (b : Bool) (r : Range) : Written (.bool b) (.literal (.bool b) r)
  | int (n : Int64) (r : Range) : Written (.int n) (.literal (.int n) r)
  | string (s : String) (r : Range) : Written (.string s) (.literal (.string s) r)
  | list {items : List Value} {es : List Expr} (r : Range) (hitems : List.Forall₂ Written items es) :
      Written (.list items) (.list es r)
  | tuple {items : List Value} {es : List Expr} (r : Range) (hitems : List.Forall₂ Written items es) :
      Written (.tuple items) (.tuple es r)
  | record {fields : List (String × Value)} {es : List (Ident × Expr)} (r : Range)
      (hnames : es.map (·.1.text) = Fields.names fields)
      (hfields : List.Forall₂ Written (fields.map (·.2)) (es.map (·.2))) :
      Written (.record fields) (.record es r)
  | constant (ctor : Ident) (r : Range) :
      Written (.construct ctor.text []) (.construct ctor none r)
  | single {v : Value} {e : Expr} (ctor : Ident) (r : Range) (harg : Written v e) :
      Written (.construct ctor.text [v]) (.construct ctor (some e) r)
  | several {args : List Value} {es : List Expr} (ctor : Ident) (r r' : Range)
      (hlength : 2 ≤ args.length) (hargs : List.Forall₂ Written args es) :
      Written (.construct ctor.text args) (.construct ctor (some (.tuple es r')) r)

theorem Written.eq_construct {name : String} {args : List Value} {e : Expr}
    (h : (Value.construct name args).Written e) :
    ∃ ctor arg r, e = .construct ctor arg r ∧ ctor.text = name := by
  cases h with
  | constant ctor r => exact ⟨ctor, none, r, rfl, rfl⟩
  | single ctor r => exact ⟨ctor, _, r, rfl, rfl⟩
  | several ctor r => exact ⟨ctor, _, r, rfl, rfl⟩

mutual

/-- The elaborated form of data. -/
def core : Value → Core
  | .bool b => .literal (.bool b)
  | .int n => .literal (.int n)
  | .string s => .literal (.string s)
  | .list items => .list (cores items)
  | .tuple items => .tuple (cores items)
  | .record fields => .record (fieldCores fields)
  | .construct c args => .construct c (cores args)
  | .unit | .closure _ _ _ | .primitive _ _ | .ref _ => .literal .unit

/-- The elaborated forms of some values. -/
def cores : List Value → List Core
  | [] => []
  | v :: vs => v.core :: cores vs

/-- The elaborated forms of some fields. -/
def fieldCores : List (String × Value) → List (String × Core)
  | [] => []
  | (name, v) :: fields => (name, v.core) :: fieldCores fields

end

mutual

/-- How many values are nested in the value, itself included. -/
def height : Value → Nat
  | .list items | .tuple items | .construct _ items => heightOfList items + 1
  | .record fields => heightOfFields fields + 1
  | _ => 1

/-- The height of the highest one of some values. -/
def heightOfList : List Value → Nat
  | [] => 0
  | v :: vs => max v.height (heightOfList vs)

/-- The height of the highest value of some fields. -/
def heightOfFields : List (String × Value) → Nat
  | [] => 0
  | (_, v) :: fields => max v.height (heightOfFields fields)

end

theorem cores_eq_map (vs : List Value) : cores vs = vs.map core := by
  induction vs with
  | nil => rfl
  | cons v vs ih => rw [cores, ih, List.map_cons]

theorem fieldCores_eq_map (fs : List (String × Value)) :
    fieldCores fs = fs.map fun f => (f.1, f.2.core) := by
  induction fs with
  | nil => rfl
  | cons f fs ih => rw [fieldCores, ih, List.map_cons]

theorem fieldCores_eq_zip (fs : List (String × Value)) :
    fieldCores fs = (Fields.names fs).zip (cores (fs.map (·.2))) := by
  rw [fieldCores_eq_map, cores_eq_map, List.map_map, Fields.names, List.zip_map']
  rfl

theorem height_le_heightOfList {v : Value} {vs : List Value} (hv : v ∈ vs) :
    v.height ≤ heightOfList vs := by
  induction vs with
  | nil => exact absurd hv List.not_mem_nil
  | cons w ws ih =>
      rcases List.mem_cons.1 hv with rfl | hv
      · exact Nat.le_max_left _ _
      · exact (ih hv).trans (Nat.le_max_right _ _)

theorem height_le_heightOfFields {f : String × Value} {fs : List (String × Value)} (hf : f ∈ fs) :
    f.2.height ≤ heightOfFields fs := by
  induction fs with
  | nil => exact absurd hf List.not_mem_nil
  | cons g gs ih =>
      rcases List.mem_cons.1 hf with rfl | hf
      · exact Nat.le_max_left _ _
      · exact (ih hf).trans (Nat.le_max_right _ _)

end Value

end FieldML
