import FieldML.Source.Range

/-!
# Surface syntax

Programs as they are written: declarations of types, then one expression. Every node carries the
range it was written at. Operators, list patterns and functions of several parameters have no nodes
of their own.
-/

namespace FieldML

/-- A name where it is written. -/
structure Ident where
  text : String
  range : Range
  deriving DecidableEq, Repr, Inhabited

/-- A constant. -/
inductive Literal where
  | unit
  | bool (value : Bool)
  | int (value : Int64)
  | string (value : String)
  deriving DecidableEq, Repr, Inhabited

/-- A type as it is written. -/
inductive TypeExpr where
  | var (name : Ident)
  | named (args : List TypeExpr) (name : Ident) (range : Range)
  | func (param result : TypeExpr) (range : Range)
  | product (items : List TypeExpr) (range : Range)
  | record (fields : List (Ident × TypeExpr)) (range : Range)
  deriving Repr, Inhabited

/-- The shape that a match arm asks for. -/
inductive Pattern where
  | wildcard (range : Range)
  | var (name : Ident)
  | literal (value : Literal) (range : Range)
  | tuple (items : List Pattern) (range : Range)
  | nil (range : Range)
  | cons (head tail : Pattern) (range : Range)
  | construct (ctor : Ident) (arg : Option Pattern) (range : Range)
  | alias (pattern : Pattern) (name : Ident) (range : Range)
  deriving Repr, Inhabited

/-- One binding of a recursive group. -/
structure RecBinding (ε : Type) where
  name : Ident
  value : ε
  range : Range
  deriving Repr

/-- One arm of a match. -/
structure MatchArm (ε : Type) where
  pattern : Pattern
  body : ε
  range : Range
  deriving Repr

/-- An expression. -/
inductive Expr where
  | literal (value : Literal) (range : Range)
  | var (name : Ident)
  | lambda (param : Ident) (body : Expr) (range : Range)
  | apply (func arg : Expr) (range : Range)
  | letIn (name : Ident) (value body : Expr) (range : Range)
  | letRec (bindings : List (RecBinding Expr)) (body : Expr) (range : Range)
  | ifElse (cond yes no : Expr) (range : Range)
  | list (items : List Expr) (range : Range)
  | tuple (items : List Expr) (range : Range)
  | record (fields : List (Ident × Expr)) (range : Range)
  | field (base : Expr) (name : Ident) (range : Range)
  | update (base : Expr) (fields : List (Ident × Expr)) (range : Range)
  | construct (ctor : Ident) (arg : Option Expr) (range : Range)
  | caseOf (scrutinee : Expr) (arms : List (MatchArm Expr)) (range : Range)
  | ref (value : Expr) (range : Range)
  | deref (target : Expr) (range : Range)
  | assign (target value : Expr) (range : Range)
  | sequence (first second : Expr) (range : Range)
  | annot (body : Expr) (type : TypeExpr) (range : Range)
  deriving Repr, Inhabited

/-- A constructor of a declared variant. -/
structure CtorDecl where
  name : Ident
  args : List TypeExpr
  range : Range
  deriving Repr, Inhabited

/-- A declaration of a type. -/
inductive TypeDecl where
  | variant (params : List Ident) (name : Ident) (ctors : List CtorDecl) (range : Range)
  | synonym (params : List Ident) (name : Ident) (body : TypeExpr) (range : Range)
  deriving Repr, Inhabited

/-- A program. The declarations of one group may refer to each other. -/
structure Program where
  groups : List (List TypeDecl)
  body : Expr
  deriving Repr, Inhabited

/-- Where the type is written. -/
def TypeExpr.range : TypeExpr → Range
  | .var name => name.range
  | .named _ _ range | .func _ _ range | .product _ range | .record _ range => range

/-- Where the pattern is written. -/
def Pattern.range : Pattern → Range
  | .var name => name.range
  | .wildcard range | .literal _ range | .tuple _ range | .nil range | .cons _ _ range
  | .construct _ _ range | .alias _ _ range => range

/-- Where the expression is written. -/
def Expr.range : Expr → Range
  | .var name => name.range
  | .literal _ range | .lambda _ _ range | .apply _ _ range | .letIn _ _ _ range
  | .letRec _ _ range | .ifElse _ _ _ range | .list _ range | .tuple _ range | .record _ range
  | .field _ _ range | .update _ _ range | .construct _ _ range | .caseOf _ _ range
  | .ref _ range | .deref _ range | .assign _ _ range | .sequence _ _ range
  | .annot _ _ range => range

/-- The name that the declaration introduces. -/
def TypeDecl.name : TypeDecl → Ident
  | .variant _ name _ _ | .synonym _ name _ _ => name

end FieldML
