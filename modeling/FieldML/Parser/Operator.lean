import FieldML.Parser.Basic

/-!
# Binary operators

The table of operators and what an operator with its operands stands for. The two logical operators
are conditionals, so that the right operand is only evaluated when it is needed; every other one
applies the function of its name.
-/

namespace FieldML

/-- A binary operator: how it is written, how tightly it binds, and whether a chain of operators of
its precedence groups to the right. -/
structure Operator where
  text : String
  precedence : Nat
  groupsRight : Bool
  deriving DecidableEq, Repr

namespace Operator

/-- All binary operators. -/
def table : List Operator :=
  [⟨"||", 1, true⟩, ⟨"&&", 2, true⟩,
   ⟨"==", 3, false⟩, ⟨"<>", 3, false⟩, ⟨"<", 3, false⟩, ⟨">", 3, false⟩, ⟨"<=", 3, false⟩,
   ⟨">=", 3, false⟩,
   ⟨"::", 4, true⟩, ⟨"^", 5, true⟩, ⟨"+", 6, false⟩, ⟨"-", 6, false⟩,
   ⟨"*", 7, false⟩, ⟨"/", 7, false⟩, ⟨"mod", 7, false⟩]

/-- The operator that a token is. -/
def ofToken? (token : Token) : Option Operator :=
  match token.kind with
  | .symbol => table.find? fun op => op.text = token.text
  | .keyword => if token.text = "mod" then table.find? fun op => op.text = "mod" else none
  | _ => none

/-- The least precedence of an operator in the right operand of this one. -/
def rightPrecedence (op : Operator) : Nat :=
  if op.groupsRight then op.precedence else op.precedence + 1

/-- What an operator, written at `place`, stands for between its operands. -/
def apply (op : String) (place : Range) (left right : Expr) : Expr :=
  let range := left.range.merge right.range
  if op = "&&" then .ifElse left right (.literal (.bool false) place) range
  else if op = "||" then .ifElse left (.literal (.bool true) place) right range
  else .apply (.apply (.var ⟨op, place⟩) left range) right range

end Operator

end FieldML
