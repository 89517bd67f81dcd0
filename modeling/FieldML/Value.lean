import FieldML.Core
import FieldML.Fields
import FieldML.Primitive
import FieldML.Text.Quoted

/-!
# Values

What expressions evaluate to. A function keeps the scope that it was made in. A reference is the
number of a cell, so two references are the same if they have the same number. A scope is a chain of
frames, which are known by their numbers as well: whoever has a frame in scope sees what is bound in
it later.
-/

namespace FieldML

/-- The frames in which names are looked up, the innermost first. -/
abbrev Scope := List Nat

/-- A value. -/
inductive Value where
  | unit
  | bool (value : Bool)
  | int (value : Int64)
  | string (value : String)
  | list (items : List Value)
  | tuple (items : List Value)
  | record (fields : List (String × Value))
  | construct (ctor : String) (args : List Value)
  | closure (param : String) (body : Core) (scope : Scope)
  | primitive (primitive : Primitive) (args : List Value)
  | ref (cell : Nat)

instance : Inhabited Value := ⟨.unit⟩

namespace Value

/-- The value of a constant. -/
def ofLiteral : Literal → Value
  | .unit => .unit
  | .bool b => .bool b
  | .int n => .int n
  | .string s => .string s

/-- Whether the value can be applied. -/
def isFunction : Value → Bool
  | .closure _ _ _ | .primitive _ _ => true
  | _ => false

/-- Whether the text of the value is put in parentheses after a constructor or `ref`. -/
def isCompound : Value → Bool
  | .construct _ args => !args.isEmpty
  | .ref _ => true
  | .int n => n < 0
  | _ => false

/-- The text in parentheses if the value needs them. -/
def wrap (v : Value) (text : String) : String := if v.isCompound then s!"({text})" else text

mutual

/-- The text of a value, given the texts of what the cells hold. -/
def printWith (cell : Nat → String) : Value → String
  | .unit => "()"
  | .bool b => if b then "true" else "false"
  | .int n => toString n.toInt
  | .string s => Text.quoted s
  | .list items => "[" ++ commas (printAllWith cell items) ++ "]"
  | .tuple items => "(" ++ commas (printAllWith cell items) ++ ")"
  | .record fields => braces (printFieldsWith cell fields)
  | .construct c args =>
      match args with
      | [] => c
      | [arg] => c ++ " " ++ arg.wrap (arg.printWith cell)
      | args => c ++ " (" ++ commas (printAllWith cell args) ++ ")"
  | .closure _ _ _ => "<fun>"
  | .primitive p _ => s!"<builtin:{p.name}>"
  | .ref i => "ref " ++ cell i

/-- The texts of some values. -/
def printAllWith (cell : Nat → String) : List Value → List String
  | [] => []
  | v :: vs => v.printWith cell :: printAllWith cell vs

/-- The texts of some fields. -/
def printFieldsWith (cell : Nat → String) : List (String × Value) → List String
  | [] => []
  | (name, v) :: fields => (name ++ " = " ++ v.printWith cell) :: printFieldsWith cell fields

end

/-- The text of what a cell holds, where references are followed up to `n` times in a row. -/
def printCell (cells : Array Value) : Nat → Nat → String
  | 0, _ => "_"
  | n + 1, i =>
      match cells[i]? with
      | some v => v.wrap (v.printWith (printCell cells n))
      | none => "_"

/-- The text of a value, with what its references hold. -/
def print (cells : Array Value) (v : Value) : String := v.printWith (printCell cells cells.size)

mutual

/-- Whether two values are the same in structure; nothing if functions would have to be compared. -/
def equal? : Value → Value → Option Bool
  | .closure _ _ _, _ => none
  | .primitive _ _, _ => none
  | .unit, w => if w.isFunction then none else
      match w with
      | .unit => some true
      | _ => some false
  | .bool a, w => if w.isFunction then none else
      match w with
      | .bool b => some (a = b)
      | _ => some false
  | .int a, w => if w.isFunction then none else
      match w with
      | .int b => some (a = b)
      | _ => some false
  | .string a, w => if w.isFunction then none else
      match w with
      | .string b => some (a = b)
      | _ => some false
  | .list as, w => if w.isFunction then none else
      match w with
      | .list bs => if as.length = bs.length then allEqual? as bs else some false
      | _ => some false
  | .tuple as, w => if w.isFunction then none else
      match w with
      | .tuple bs => if as.length = bs.length then allEqual? as bs else some false
      | _ => some false
  | .record as, w => if w.isFunction then none else
      match w with
      | .record bs =>
          if Fields.names as = Fields.names bs then fieldsEqual? as bs else some false
      | _ => some false
  | .construct c as, w => if w.isFunction then none else
      match w with
      | .construct d bs =>
          if c = d ∧ as.length = bs.length then allEqual? as bs else some false
      | _ => some false
  | .ref i, w => if w.isFunction then none else
      match w with
      | .ref j => some (i = j)
      | _ => some false

/-- Whether two lists of values of one length are the same, up to the first difference. -/
def allEqual? : List Value → List Value → Option Bool
  | v :: vs, w :: ws =>
      match v.equal? w with
      | some true => allEqual? vs ws
      | other => other
  | _, _ => some true

/-- Whether the values of two lists of fields are the same, up to the first difference. -/
def fieldsEqual? : List (String × Value) → List (String × Value) → Option Bool
  | (_, v) :: vs, (_, w) :: ws =>
      match v.equal? w with
      | some true => fieldsEqual? vs ws
      | other => other
  | _, _ => some true

end

end Value

end FieldML
