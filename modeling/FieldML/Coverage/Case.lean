import FieldML.Core
import FieldML.Text.Quoted

/-!
# Cases

What a pattern asks for once the names it binds are forgotten: anything, or a value with a certain
head whose parts are cases in turn.
-/

namespace FieldML

/-- The outermost form of a value. -/
inductive Head where
  | bool (value : Bool)
  | unit
  | nil
  | cons
  | tuple (size : Nat)
  | ctor (name : String)
  | int (value : Int64)
  | string (value : String)
  deriving DecidableEq, Repr

/-- A set of values. -/
inductive Case where
  | any
  | of (head : Head) (parts : List Case)
  deriving Inhabited

namespace Case

/-- The head that a constant is. -/
def headOfLiteral : Literal → Head
  | .unit => .unit
  | .bool b => .bool b
  | .int n => .int n
  | .string s => .string s

mutual

/-- The values that a pattern accepts. -/
def ofPattern : CorePattern → Case
  | .wildcard | .var _ => .any
  | .alias p _ => ofPattern p
  | .literal v => .of (headOfLiteral v) []
  | .tuple ps => .of (.tuple ps.length) (ofPatterns ps)
  | .nil => .of .nil []
  | .cons p q => .of .cons [ofPattern p, ofPattern q]
  | .construct c ps => .of (.ctor c) (ofPatterns ps)

/-- The values that some patterns accept, each its own. -/
def ofPatterns : List CorePattern → List Case
  | [] => []
  | p :: ps => ofPattern p :: ofPatterns ps

end

mutual

/-- The number of heads in a case. -/
def heads : Case → Nat
  | .any => 0
  | .of _ parts => headsOfList parts + 1

/-- The number of heads in some cases. -/
def headsOfList : List Case → Nat
  | [] => 0
  | c :: cs => c.heads + headsOfList cs

end

theorem headsOfList_append (cs ds : List Case) :
    headsOfList (cs ++ ds) = headsOfList cs + headsOfList ds := by
  induction cs with
  | nil => simp [headsOfList]
  | cons c cs ih => simp [headsOfList, ih, Nat.add_assoc]

theorem headsOfList_replicate_any (n : Nat) : headsOfList (List.replicate n .any) = 0 := by
  induction n with
  | zero => rfl
  | succ n ih => simp [List.replicate_succ, headsOfList, heads, ih]

/-- The text in parentheses where it stands inside another one. -/
def parens (inside : Bool) (text : String) : String := if inside then s!"({text})" else text

mutual

/-- The case written as a pattern, which may stand inside another one. -/
def print (inside : Bool) : Case → String
  | .any => "_"
  | .of (.bool b) _ => if b then "true" else "false"
  | .of .unit _ => "()"
  | .of .nil _ => "[]"
  | .of (.int n) _ => toString n.toInt
  | .of (.string s) _ => Text.quotedCase s
  | .of (.tuple _) parts => s!"({printAll parts})"
  | .of .cons [head, tail] => parens inside (head.print true ++ " :: " ++ tail.print false)
  | .of .cons parts => printAll parts
  | .of (.ctor name) [] => name
  | .of (.ctor name) [part] => parens inside (name ++ " " ++ part.print true)
  | .of (.ctor name) parts => parens inside s!"{name} ({printAll parts})"

/-- Some cases with commas between them. -/
def printAll : List Case → String
  | [] => ""
  | [c] => c.print false
  | c :: cs => c.print false ++ ", " ++ printAll cs

end

end Case

end FieldML
