import FieldML.Log
import FieldML.Value

/-!
# The state of an evaluation

Cells hold the contents of references, and frames the values of names. Both are shared by all values
that have their numbers, and what an evaluation has stored stays when it fails.
-/

namespace FieldML

/-- Why an evaluation has no value. -/
inductive EvalError where
  | unboundVariable (name : String)
  | noMatchingPattern (value : String)
  | divisionByZero
  | overflow (operation : String)
  | fuelExhausted
  | tooDeep (levels : Nat)
  | notAFunction (value : String)
  | compareFunctions
  | wrongArgument (primitive expected found : String)
  | conditionNotBool (value : String)
  | missingField (name : String)
  | fieldOfNonRecord (name value : String)
  | updateOfNonRecord (value : String)
  | derefOfNonReference (value : String)
  | assignToNonReference (value : String)
  | invalidSubstring (start length : Int)
  | substringOutside (start length size : Nat)
  deriving DecidableEq, Repr

/-- The fault in words. -/
def EvalError.message : EvalError → String
  | unboundVariable name => s!"unbound variable '{name}'"
  | noMatchingPattern value => s!"no matching pattern for {value}"
  | divisionByZero => "division by zero"
  | overflow operation => s!"integer overflow in '{operation}'"
  | fuelExhausted => "evaluation step budget exhausted"
  | tooDeep levels => s!"evaluation nested deeper than {levels} levels"
  | notAFunction value => s!"attempted to call a non-function: {value}"
  | compareFunctions => "functional values cannot be compared"
  | wrongArgument primitive expected found => s!"{primitive} expects {expected}, got {found}"
  | conditionNotBool value => s!"condition evaluated to {value}, expected a bool"
  | missingField name => s!"record has no field '{name}'"
  | fieldOfNonRecord name value => s!"field access .{name} on non-record {value}"
  | updateOfNonRecord value => s!"record update on non-record {value}"
  | derefOfNonReference value => s!"dereferenced non-reference {value}"
  | assignToNonReference value => s!"assigned to non-reference {value}"
  | invalidSubstring start length => s!"string_sub: invalid range {start} {length}"
  | substringOutside start length size =>
      s!"string_sub: range {start}+{length} is outside a string of length {size}"

/-- What an evaluation works on. -/
structure Machine where
  cells : Array Value := #[]
  frames : Array (List (String × Value)) := #[]
  /-- The number of steps that may still be taken, if that is limited. -/
  fuel : Option Nat := none
  /-- Whether events are reported. -/
  isTraced : Bool := false
  /-- The events so far, the latest first. -/
  events : List Event := []

instance : Inhabited Machine := ⟨{}⟩

/-- The bindings of a frame. -/
def Machine.frame (m : Machine) (frame : Nat) : List (String × Value) := m.frames[frame]?.getD []

/-- The value of a name in a scope: the one of the innermost frame that binds it. -/
def Machine.find? (m : Machine) (name : String) : Scope → Option Value
  | [] => none
  | frame :: scope =>
      match Fields.get? (m.frame frame) name with
      | some v => some v
      | none => m.find? name scope

/-- The machine with one more frame, and the number of that. -/
def Machine.addFrame (m : Machine) (bindings : List (String × Value)) : Nat × Machine :=
  (m.frames.size, { m with frames := m.frames.push bindings })

/-- The machine with a name bound in a frame. -/
def Machine.bindIn (m : Machine) (frame : Nat) (name : String) (v : Value) : Machine :=
  { m with frames := m.frames.modify frame (Fields.insert name v) }

/-- The machine with some names bound in a frame, one after the other. -/
def Machine.bindAll (m : Machine) (frame : Nat) (bindings : List (String × Value)) : Machine :=
  bindings.foldl (fun m b => m.bindIn frame b.1 b.2) m

/-- Nothing but the one frame changes. -/
theorem Machine.bindAll_eq (m : Machine) (frame : Nat) (bindings : List (String × Value)) :
    m.bindAll frame bindings = { m with
      frames := m.frames.modify frame fun fields =>
        bindings.foldl (fun fields b => Fields.insert b.1 b.2 fields) fields } := by
  induction bindings generalizing m with
  | nil =>
      have hframes : m.frames.modify frame id = m.frames := by
        apply Array.ext_getElem?
        intro j
        rw [Array.getElem?_modify]
        split <;> simp
      exact congrArg (fun frames => { m with frames := frames }) hframes.symm
  | cons b bindings ih =>
      have hmodify : ∀ (frames : Array (List (String × Value))) f g,
          (frames.modify frame f).modify frame g = frames.modify frame fun fields => g (f fields) := by
        intro frames f g
        apply Array.ext_getElem?
        intro j
        simp only [Array.getElem?_modify]
        split <;> simp [Function.comp_def]
      rw [Machine.bindAll, List.foldl_cons, ← Machine.bindAll, ih, Machine.bindIn]
      simp only [hmodify, List.foldl_cons]

/-- A new frame has what is bound in it, where the last one counts for each name. -/
theorem Machine.bindAll_push (m : Machine) (bindings : List (String × Value)) :
    { m with frames := m.frames.push [] }.bindAll m.frames.size bindings =
      { m with frames := m.frames.push (Fields.ofList bindings) } := by
  rw [Machine.bindAll_eq]
  have hframes : (m.frames.push []).modify m.frames.size (fun fields =>
      bindings.foldl (fun fields b => Fields.insert b.1 b.2 fields) fields) =
        m.frames.push (Fields.ofList bindings) := by
    apply Array.ext_getElem?
    intro j
    rw [Array.getElem?_modify, Array.getElem?_push, Array.getElem?_push]
    by_cases hj : j = m.frames.size
    · subst hj
      simp [Fields.ofList]
    · simp [hj, Ne.symm hj]
  exact congrArg (fun frames => { m with frames := frames }) hframes

/-- A part of an evaluation. -/
abbrev Eval := ExceptT EvalError (StateM Machine)

namespace Eval

section Run

variable {α β : Type}

theorem bind_run (p : Eval α) (k : α → Eval β) (m : Machine) :
    (p >>= k) m = match p m with
      | (.ok a, m₁) => k a m₁
      | (.error e, m₁) => (.error e, m₁) := by
  change (match p m with | (a, s') => ExceptT.bindCont k a s') = _
  change _ = match p m with | (.ok a, s₁) => k a s₁ | (.error e, s₁) => (.error e, s₁)
  rcases p m with ⟨_ | _, _⟩ <;> rfl

theorem bind_run_ok {p : Eval α} {m m₁ : Machine} {a : α} (h : p m = (.ok a, m₁))
    (k : α → Eval β) : (p >>= k) m = k a m₁ := by
  rw [bind_run, h]

theorem bind_run_error {p : Eval α} {m m₁ : Machine} {e : EvalError} (h : p m = (.error e, m₁))
    (k : α → Eval β) : (p >>= k) m = (.error e, m₁) := by
  rw [bind_run, h]

@[simp] theorem pure_run (a : α) (m : Machine) : (pure a : Eval α) m = (.ok a, m) := rfl

@[simp] theorem get_run (m : Machine) : (get : Eval Machine) m = (.ok m, m) := rfl

end Run

/-- The text of a value, with what its references hold now. -/
def text (v : Value) : Eval String := return v.print (← get).cells

/-- Fails because of a value. -/
def failOn {α : Type} (cause : String → EvalError) (v : Value) : Eval α := do
  throw (cause (← text v))

/-- Takes one step of those that are left. -/
def spend : Eval Unit := do
  match (← get).fuel with
  | none => pure ()
  | some 0 => throw .fuelExhausted
  | some (n + 1) => modify fun m => { m with fuel := some n }

/-- A new cell that holds a value. -/
def newCell (v : Value) : Eval Value :=
  modifyGet fun m => (.ref m.cells.size, { m with cells := m.cells.push v })

/-- What a cell holds. -/
def readCell (i : Nat) : Eval Value := return (← get).cells[i]?.getD .unit

/-- Changes what a cell holds. -/
def writeCell (i : Nat) (v : Value) : Eval Unit :=
  modify fun m => { m with cells := m.cells.setIfInBounds i v }

/-- A new frame without bindings. -/
def newFrame : Eval Nat := modifyGet fun m => m.addFrame []

/-- Binds some names in a frame, one after the other. -/
def bindAll (frame : Nat) (bindings : List (String × Value)) : Eval Unit :=
  modify fun m => m.bindAll frame bindings

/-- The scope with a new frame inside, in which some names are bound. -/
def enter (scope : Scope) (bindings : List (String × Value)) : Eval Scope := do
  let frame ← newFrame
  bindAll frame bindings
  return frame :: scope

theorem enter_run (scope : Scope) (bindings : List (String × Value)) (m : Machine) :
    enter scope bindings m =
      (.ok (m.frames.size :: scope),
        { m with frames := m.frames.push [] }.bindAll m.frames.size bindings) := rfl

/-- Reports that an arm of a match was selected for a value. -/
def reportArm (index : Nat) (v : Value) : Eval Unit :=
  modify fun m =>
    if m.isTraced then { m with events := .armSelected index (v.print m.cells) :: m.events }
    else m

end Eval

end FieldML
