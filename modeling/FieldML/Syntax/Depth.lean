import FieldML.Syntax

/-!
# Depth of syntax trees

The number of nodes on the longest path from the root of a tree to a leaf. Patterns and types that
are written inside an expression count as its children.
-/

namespace FieldML

mutual

/-- The depth of a written type. -/
def TypeExpr.depth : TypeExpr → Nat
  | .var _ => 1
  | .named args _ _ => depthList args + 1
  | .func param result _ => max param.depth result.depth + 1
  | .product items _ => depthList items + 1
  | .record fields _ => depthFields fields + 1

/-- The greatest depth among some written types. -/
def TypeExpr.depthList : List TypeExpr → Nat
  | [] => 0
  | t :: ts => max t.depth (depthList ts)

/-- The greatest depth among the types of some fields. -/
def TypeExpr.depthFields : List (Ident × TypeExpr) → Nat
  | [] => 0
  | (_, t) :: fields => max t.depth (depthFields fields)

end

mutual

/-- The depth of a pattern. -/
def Pattern.depth : Pattern → Nat
  | .wildcard _ | .var _ | .literal _ _ | .nil _ | .construct _ none _ => 1
  | .tuple items _ => depthList items + 1
  | .cons head tail _ => max head.depth tail.depth + 1
  | .construct _ (some arg) _ => arg.depth + 1
  | .alias pattern _ _ => pattern.depth + 1

/-- The greatest depth among some patterns. -/
def Pattern.depthList : List Pattern → Nat
  | [] => 0
  | p :: ps => max p.depth (depthList ps)

end

mutual

/-- The depth of an expression. -/
def Expr.depth : Expr → Nat
  | .literal _ _ | .var _ | .construct _ none _ => 1
  | .lambda _ body _ => body.depth + 1
  | .apply func arg _ => max func.depth arg.depth + 1
  | .letIn _ value body _ => max value.depth body.depth + 1
  | .letRec bindings body _ => max (depthBindings bindings) body.depth + 1
  | .ifElse cond yes no _ => max cond.depth (max yes.depth no.depth) + 1
  | .list items _ | .tuple items _ => depthList items + 1
  | .record fields _ => depthFields fields + 1
  | .field base _ _ => base.depth + 1
  | .update base fields _ => max base.depth (depthFields fields) + 1
  | .construct _ (some arg) _ => arg.depth + 1
  | .caseOf scrutinee arms _ => max scrutinee.depth (depthArms arms) + 1
  | .ref value _ => value.depth + 1
  | .deref target _ => target.depth + 1
  | .assign target value _ => max target.depth value.depth + 1
  | .sequence first second _ => max first.depth second.depth + 1
  | .annot body type _ => max body.depth type.depth + 1

/-- The greatest depth among some expressions. -/
def Expr.depthList : List Expr → Nat
  | [] => 0
  | e :: es => max e.depth (depthList es)

/-- The greatest depth among the values of some fields. -/
def Expr.depthFields : List (Ident × Expr) → Nat
  | [] => 0
  | (_, e) :: fields => max e.depth (depthFields fields)

/-- The greatest depth among the values of a recursive group. -/
def Expr.depthBindings : List (RecBinding Expr) → Nat
  | [] => 0
  | ⟨_, e, _⟩ :: bindings => max e.depth (depthBindings bindings)

/-- The greatest depth among the patterns and bodies of some arms. -/
def Expr.depthArms : List (MatchArm Expr) → Nat
  | [] => 0
  | ⟨p, e, _⟩ :: arms => max (max p.depth e.depth) (depthArms arms)

end

/-- The greatest depth among the types that a declaration is made of. -/
def TypeDecl.depth : TypeDecl → Nat
  | .variant _ _ ctors _ =>
      ctors.foldr (fun ctor depth => max (TypeExpr.depthList ctor.args) depth) 0
  | .synonym _ _ body _ => body.depth

/-- The depth of the deepest tree in a program. -/
def Program.depth (program : Program) : Nat :=
  program.groups.flatten.foldr (fun decl depth => max decl.depth depth) program.body.depth

end FieldML
