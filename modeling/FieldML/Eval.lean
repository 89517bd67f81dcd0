import FieldML.Eval.Match
import FieldML.Eval.Primitive

/-!
# Evaluation

Expressions are evaluated from left to right, arguments before calls. A step is taken, and one level
of nesting is entered, for every expression that is evaluated; a call evaluates the body of the
function one level further down. So the levels that are left bound the recursion, and every
evaluation under a bound on the levels ends.
-/

namespace FieldML

namespace Eval

/-- Computes on a thread of its own, and so with an empty stack. -/
def onFreshStack {α : Type} (f : Unit → α) : α := (Task.spawn f .dedicated).get

/-- How many levels of evaluation share a stack. -/
def levelsPerStack : Nat := 1024

/-- Evaluates with `left` levels below, on another stack at regular distances. -/
def onLevel {α : Type} (left : Nat) (p : Eval α) : Eval α :=
  if left % levelsPerStack = 0 then fun m => onFreshStack fun _ => p m else p

@[simp] theorem onLevel_eq {α : Type} (left : Nat) (p : Eval α) : onLevel left p = p := by
  unfold onLevel
  split <;> rfl

/-- How the parts of an expression are evaluated. -/
abbrev Evaluator := Scope → Core → Eval Value

variable (ev : Evaluator)

/-- The value of a function on an argument. -/
def apply [Text.Segmentation] (func arg : Value) : Eval Value :=
  match func with
  | .closure param body scope => do ev (← enter scope [(param, arg)]) body
  | .primitive p args => p.applyTo args arg
  | v => failOn .notAFunction v

/-- The fields with the values of some expressions added or changed. -/
def fields (scope : Scope) (before : List (String × Value)) (fs : List (String × Core)) :
    Eval (List (String × Value)) :=
  fs.foldlM (fun fields (name, e) => return Fields.insert name (← ev scope e) fields) before

/-- The values are evaluated as those of a list before the first of them is added. -/
theorem fields_eq (scope : Scope) (before : List (String × Value)) (fs : List (String × Core)) :
    fields ev scope before fs = (fs.map (·.2)).mapM (ev scope) >>= fun vs =>
      pure (((Fields.names fs).zip vs).foldl (fun fields f => Fields.insert f.1 f.2 fields)
        before) := by
  unfold fields
  induction fs generalizing before with
  | nil => rfl
  | cons f fs ih =>
      simp only [List.foldlM_cons, ih, List.map_cons, List.mapM_cons, bind_assoc, pure_bind,
        Fields.names, List.zip_cons_cons, List.foldl_cons]

/-- The scope inside a recursive group: all its functions have the frame in scope, and find in it the
names that are bound there once all of them have been made. -/
def recursive (scope : Scope) (bindings : List (CoreBinding Core)) : Eval Scope := do
  let frame ← newFrame
  let inner := frame :: scope
  let values ← bindings.mapM fun b => return (b.name, ← ev inner b.value)
  bindAll frame values
  return inner

theorem recursive_run (scope : Scope) (bindings : List (CoreBinding Core)) (m : Machine) :
    recursive ev scope bindings m =
      (bindings.mapM (fun b => return (b.name, ← ev (m.frames.size :: scope) b.value)) >>=
        fun values => (do
          bindAll m.frames.size values
          return m.frames.size :: scope : Eval Scope))
        { m with frames := m.frames.push [] } := rfl

/-- The value of the first arm that accepts a value; `index` arms were tried before. -/
def arms (scope : Scope) (v : Value) (index : Nat) : List (CoreArm Core) → Eval Value
  | [] => failOn .noMatchingPattern v
  | arm :: rest =>
      match arm.pattern.bindings? v [] with
      | some bound => do
          reportArm index v
          ev (← enter scope bound.reverse) arm.body
      | none => arms scope v (index + 1) rest

/-- The value of an expression whose parts are evaluated by `ev`. -/
def node [Text.Segmentation] (scope : Scope) : Core → Eval Value
  | .literal l => return .ofLiteral l
  | .var x => do
      match (← get).find? x scope with
      | some v => return v
      | none => throw (.unboundVariable x)
  | .lambda x _ body => return .closure x body scope
  | .apply func arg => do
      let func ← ev scope func
      let arg ← ev scope arg
      apply ev func arg
  | .letIn x _ value body => do
      let v ← ev scope value
      ev (← enter scope [(x, v)]) body
  | .letRec bindings body => do ev (← recursive ev scope bindings) body
  | .ifElse cond yes no => do
      match ← ev scope cond with
      | .bool true => ev scope yes
      | .bool false => ev scope no
      | v => failOn .conditionNotBool v
  | .list items => return .list (← items.mapM (ev scope))
  | .tuple items => return .tuple (← items.mapM (ev scope))
  | .record fs => return .record (← fields ev scope [] fs)
  | .field base name => do
      match ← ev scope base with
      | .record fs =>
          match Fields.get? fs name with
          | some v => return v
          | none => throw (.missingField name)
      | v => failOn (.fieldOfNonRecord name) v
  | .update base fs => do
      match ← ev scope base with
      | .record before => return .record (← fields ev scope before fs)
      | v => failOn .updateOfNonRecord v
  | .construct c args => return .construct c (← args.mapM (ev scope))
  | .caseOf scrutinee _ alternatives => do
      let v ← ev scope scrutinee
      arms ev scope v 0 alternatives
  | .ref value => do newCell (← ev scope value)
  | .deref target => do
      match ← ev scope target with
      | .ref i => readCell i
      | v => failOn .derefOfNonReference v
  | .assign target value => do
      let target ← ev scope target
      let v ← ev scope value
      match target with
      | .ref i => do
          writeCell i v
          return .unit
      | other => failOn .assignToNonReference other
  | .sequence first second => do
      let _ ← ev scope first
      ev scope second
  | .annot body _ => ev scope body

/-- The value of an expression when `limit` levels may be nested in all and the given number of them
is left. -/
def atLevel [Text.Segmentation] (limit : Nat) : Nat → Evaluator
  | 0 => fun _ _ => do
      spend
      throw (.tooDeep limit)
  | left + 1 => fun scope e => do
      spend
      onLevel left (node (atLevel limit left) scope e)

end Eval

/-- How far an evaluation may go. -/
structure EvalLimits where
  /-- The number of steps, if it is limited. -/
  fuel : Option Nat := none
  /-- The number of nested levels. -/
  depth : Nat := 30000
  deriving DecidableEq, Repr

/-- The value of an expression in a scope. -/
def Machine.evaluate [Text.Segmentation] (m : Machine) (limits : EvalLimits) (scope : Scope)
    (e : Core) :
    Except EvalError Value × Machine :=
  (Eval.atLevel limits.depth limits.depth scope e).run.run { m with fuel := limits.fuel }

/-- The machine before anything is evaluated: its one frame has the names of the primitives. -/
def Machine.start (isTraced : Bool) : Machine where
  frames := #[Primitive.bindings]
  isTraced := isTraced

/-- The scope that every program is evaluated in. -/
def initialScope : Scope := [0]

end FieldML
