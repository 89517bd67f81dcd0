import FieldML.Eval.Machine
import FieldML.Text.Decimal
import FieldML.Text.Segmentation

/-!
# Applying primitives

A primitive takes its arguments one by one and is run once it has all of them. Integers have 64
bits, and a result outside them is a fault; division goes toward zero. Texts are measured and cut in
user-perceived characters.
-/

namespace FieldML.Primitive

/-- How many arguments the primitive takes. -/
def arity : Primitive → Nat
  | add | sub | mul | div | mod | lt | gt | le | ge | eq | ne | concat | cons => 2
  | not | stringOfInt | stringOfBool | stringLength | listLength => 1
  | stringSub => 3

/-- Refuses an argument. -/
def refuse {α : Type} (p : Primitive) (expected : String) (v : Value) : Eval α :=
  Eval.failOn (.wrongArgument p.name expected) v

/-- An argument that must be an integer. -/
def intArg (p : Primitive) : Value → Eval Int
  | .int n => return n.toInt
  | v => p.refuse "an int" v

/-- An argument that must be a truth value. -/
def boolArg (p : Primitive) : Value → Eval Bool
  | .bool b => return b
  | v => p.refuse "a bool" v

/-- An argument that must be a text. -/
def stringArg (p : Primitive) : Value → Eval String
  | .string s => return s
  | v => p.refuse "a string" v

/-- An argument that must be a list. -/
def listArg (p : Primitive) : Value → Eval (List Value)
  | .list vs => return vs
  | v => p.refuse "a list" v

/-- An integer as a value, unless it has too many bits. -/
def intResult (p : Primitive) (n : Int) : Eval Value :=
  match Text.int64OfInt? n with
  | some n => return .int n
  | none => throw (.overflow p.name)

/-- An operation on integers. -/
def arithmetic (p : Primitive) (op : Int → Int → Int) (a b : Value) : Eval Value := do
  let m ← p.intArg a
  let n ← p.intArg b
  p.intResult (op m n)

/-- An operation on integers of which the second must not be zero. It overflows where the quotient
does, even if its own result has few bits. -/
def division (p : Primitive) (op : Int → Int → Int) (a b : Value) : Eval Value := do
  let m ← p.intArg a
  let n ← p.intArg b
  if n = 0 then throw .divisionByZero
  let _ ← p.intResult (m.tdiv n)
  p.intResult (op m n)

/-- A comparison of integers. -/
def comparison (p : Primitive) (test : Int → Int → Bool) (a b : Value) : Eval Value := do
  let m ← p.intArg a
  let n ← p.intArg b
  return .bool (test m n)

/-- Whether two values are the same. -/
def sameness (a b : Value) : Eval Bool :=
  match a.equal? b with
  | some same => return same
  | none => throw .compareFunctions

variable [Text.Segmentation]

/-- The part of a text that begins after `start` characters and has `length` of them. -/
def substring (s : String) (start length : Int) : Eval Value := do
  let clusters := Text.Segmentation.clusters s
  if start < 0 ∨ length < 0 then throw (.invalidSubstring start length)
  let first := start.toNat
  let count := length.toNat
  if clusters.length < first + count then
    throw (.substringOutside first count clusters.length)
  return .string (String.join ((clusters.drop first).take count))

/-- The value of a primitive on all of its arguments. -/
def run (p : Primitive) (args : List Value) : Eval Value :=
  match p, args with
  | add, [a, b] => p.arithmetic (· + ·) a b
  | sub, [a, b] => p.arithmetic (· - ·) a b
  | mul, [a, b] => p.arithmetic (· * ·) a b
  | div, [a, b] => p.division Int.tdiv a b
  | mod, [a, b] => p.division Int.tmod a b
  | lt, [a, b] => p.comparison (fun m n => m < n) a b
  | gt, [a, b] => p.comparison (fun m n => n < m) a b
  | le, [a, b] => p.comparison (fun m n => m ≤ n) a b
  | ge, [a, b] => p.comparison (fun m n => n ≤ m) a b
  | eq, [a, b] => return .bool (← sameness a b)
  | ne, [a, b] => return .bool (!(← sameness a b))
  | concat, [a, b] => do
      let s ← p.stringArg a
      let t ← p.stringArg b
      return .string (s ++ t)
  | not, [a] => return .bool (!(← p.boolArg a))
  | cons, [head, tail] => return .list (head :: (← p.listArg tail))
  | stringOfInt, [a] => return .string (toString (← p.intArg a))
  | stringOfBool, [a] => return .string (if ← p.boolArg a then "true" else "false")
  | stringLength, [a] =>
      return .int (Int64.ofNat (Text.Segmentation.clusters (← p.stringArg a)).length)
  | stringSub, [a, b, c] => do
      let s ← p.stringArg a
      let start ← p.intArg b
      let length ← p.intArg c
      substring s start length
  | listLength, [a] => return .int (Int64.ofNat (← p.listArg a).length)
  | _, _ => return .primitive p args

/-- The primitive with one more argument. -/
def applyTo (p : Primitive) (args : List Value) (arg : Value) : Eval Value :=
  let args := args ++ [arg]
  if args.length = p.arity then p.run args else return .primitive p args

/-- The names that every evaluation starts with. -/
def bindings : List (String × Value) :=
  Fields.ofList (all.map fun p => (p.name, Value.primitive p []))

end FieldML.Primitive
