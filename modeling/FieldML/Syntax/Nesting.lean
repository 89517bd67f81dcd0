import FieldML.Syntax

/-!
# Nesting of programs

How deep the trees of a program go is found without recursion over them. The nodes that are still to
be looked at wait on a stack, each with its level, and a node gives way to its children. Patterns
and types that are written inside an expression are among them.
-/

namespace FieldML

/-- A node of the trees that a program is made of. -/
inductive Node where
  | expr (expr : Expr)
  | pattern (pattern : Pattern)
  | type (type : TypeExpr)

/-- The nodes below an expression. -/
def Expr.children : Expr → List Node
  | .literal _ _ | .var _ | .construct _ none _ => []
  | .lambda _ body _ | .construct _ (some body) _ => [.expr body]
  | .apply func arg _ => [.expr func, .expr arg]
  | .letIn _ value body _ => [.expr value, .expr body]
  | .letRec bindings body _ => bindings.map (.expr ·.value) ++ [.expr body]
  | .ifElse cond yes no _ => [.expr cond, .expr yes, .expr no]
  | .list items _ | .tuple items _ => items.map .expr
  | .record fields _ => fields.map (.expr ·.2)
  | .field base _ _ => [.expr base]
  | .update base fields _ => .expr base :: fields.map (.expr ·.2)
  | .caseOf scrutinee arms _ =>
      .expr scrutinee :: arms.flatMap fun arm => [.pattern arm.pattern, .expr arm.body]
  | .ref inner _ | .deref inner _ => [.expr inner]
  | .assign target value _ => [.expr target, .expr value]
  | .sequence first second _ => [.expr first, .expr second]
  | .annot body type _ => [.expr body, .type type]

/-- The nodes below a pattern. -/
def Pattern.children : Pattern → List Node
  | .wildcard _ | .var _ | .literal _ _ | .nil _ | .construct _ none _ => []
  | .tuple items _ => items.map .pattern
  | .cons head tail _ => [.pattern head, .pattern tail]
  | .construct _ (some inner) _ | .alias inner _ _ => [.pattern inner]

/-- The nodes below a written type. -/
def TypeExpr.children : TypeExpr → List Node
  | .var _ => []
  | .named items _ _ | .product items _ => items.map .type
  | .func param result _ => [.type param, .type result]
  | .record fields _ => fields.map (.type ·.2)

namespace Node

/-- The nodes below a node, in the order in which they are put on the stack. -/
def children : Node → List Node
  | expr e => e.children
  | pattern p => p.children
  | type t => t.children

/-- A bound on the nodes that are put on the stack because of a node. -/
noncomputable def bulk : Node → Nat
  | expr e => sizeOf e
  | pattern p => sizeOf p
  | type t => sizeOf t

/-- A bound on the nodes that are put on the stack because of some nodes. -/
noncomputable def bulkOf : List Node → Nat
  | [] => 0
  | node :: nodes => node.bulk + bulkOf nodes

theorem bulkOf_append (nodes nodes' : List Node) :
    bulkOf (nodes ++ nodes') = bulkOf nodes + bulkOf nodes' := by
  induction nodes with
  | nil => simp [bulkOf]
  | cons node nodes ih => simp only [List.cons_append, bulkOf, ih, Nat.add_assoc]

theorem bulkOf_reverse (nodes : List Node) : bulkOf nodes.reverse = bulkOf nodes := by
  induction nodes with
  | nil => rfl
  | cons node nodes ih =>
      simp only [List.reverse_cons, bulkOf_append, bulkOf, ih, Nat.add_zero]
      exact Nat.add_comm ..

theorem bulkOf_flatMap_lt {α : Type} [SizeOf α] {f : α → List Node}
    (hf : ∀ a, bulkOf (f a) ≤ sizeOf a) (l : List α) : bulkOf (l.flatMap f) < sizeOf l := by
  induction l with
  | nil => simp [bulkOf]
  | cons a l ih =>
      have := hf a
      simp only [List.flatMap_cons, bulkOf_append, List.cons.sizeOf_spec]
      omega

theorem bulkOf_map_lt {α : Type} [SizeOf α] {f : α → Node} (hf : ∀ a, (f a).bulk ≤ sizeOf a)
    (l : List α) : bulkOf (l.map f) < sizeOf l := by
  rw [List.map_eq_flatMap]
  exact bulkOf_flatMap_lt hf l

theorem bulkOf_children_expr_lt (e : Expr) : bulkOf e.children < sizeOf e := by
  cases e with
  | letRec bindings body _ =>
      have := bulkOf_map_lt (f := fun binding : RecBinding Expr => expr binding.value)
        (fun binding => by cases binding; simp only [bulk, RecBinding.mk.sizeOf_spec]; omega)
        bindings
      simp only [Expr.children, bulkOf_append, bulkOf, bulk, Expr.letRec.sizeOf_spec]
      omega
  | list items _ | tuple items _ =>
      have := bulkOf_map_lt (f := expr) (fun _ => Nat.le_refl _) items
      simp only [Expr.children, Expr.list.sizeOf_spec, Expr.tuple.sizeOf_spec]
      omega
  | record fields _ | update base fields _ =>
      have := bulkOf_map_lt (f := fun field : Ident × Expr => expr field.2)
        (fun field => by cases field; simp only [bulk, Prod.mk.sizeOf_spec]; omega) fields
      simp only [Expr.children, bulkOf, bulk, Expr.record.sizeOf_spec, Expr.update.sizeOf_spec]
      omega
  | caseOf scrutinee arms _ =>
      have := bulkOf_flatMap_lt
        (f := fun arm : MatchArm Expr => [pattern arm.pattern, expr arm.body])
        (fun arm => by cases arm; simp only [bulkOf, bulk, MatchArm.mk.sizeOf_spec]; omega) arms
      simp only [Expr.children, bulkOf, bulk, Expr.caseOf.sizeOf_spec]
      omega
  | construct _ arg _ =>
      cases arg <;>
        simp only [Expr.children, bulkOf, bulk, Expr.construct.sizeOf_spec,
          Option.some.sizeOf_spec] <;>
        omega
  | _ => simp [Expr.children, bulkOf, bulk] <;> omega

theorem bulkOf_children_pattern_lt (p : Pattern) : bulkOf p.children < sizeOf p := by
  cases p with
  | tuple items _ =>
      have := bulkOf_map_lt (f := pattern) (fun _ => Nat.le_refl _) items
      simp only [Pattern.children, Pattern.tuple.sizeOf_spec]
      omega
  | construct _ arg _ =>
      cases arg <;>
        simp only [Pattern.children, bulkOf, bulk, Pattern.construct.sizeOf_spec,
          Option.some.sizeOf_spec] <;>
        omega
  | _ => simp [Pattern.children, bulkOf, bulk] <;> omega

theorem bulkOf_children_type_lt (t : TypeExpr) : bulkOf t.children < sizeOf t := by
  cases t with
  | named items _ _ | product items _ =>
      have := bulkOf_map_lt (f := type) (fun _ => Nat.le_refl _) items
      simp only [TypeExpr.children, TypeExpr.named.sizeOf_spec, TypeExpr.product.sizeOf_spec]
      omega
  | record fields _ =>
      have := bulkOf_map_lt (f := fun field : Ident × TypeExpr => type field.2)
        (fun field => by cases field; simp only [bulk, Prod.mk.sizeOf_spec]; omega) fields
      simp only [TypeExpr.children, TypeExpr.record.sizeOf_spec]
      omega
  | _ => simp [TypeExpr.children, bulkOf, bulk] <;> omega

theorem bulkOf_children_lt (node : Node) : bulkOf node.children < node.bulk := by
  cases node with
  | expr e => exact bulkOf_children_expr_lt e
  | pattern p => exact bulkOf_children_pattern_lt p
  | type t => exact bulkOf_children_type_lt t

/-- The greatest level of the nodes on a stack and of all nodes below them, and of those that were
looked at before. -/
def deepest (found : Nat) : List (Node × Nat) → Nat
  | [] => found
  | (node, level) :: pending =>
      deepest (max found level) ((node.children.map (·, level + 1)).reverse ++ pending)
termination_by pending => bulkOf (pending.map Prod.fst)
decreasing_by
  have hnodes : ((node.children.map (·, level + 1)).reverse ++ pending).map Prod.fst =
      node.children.reverse ++ pending.map Prod.fst := by
    simp [Function.comp_def]
  rw [hnodes, bulkOf_append, bulkOf_reverse]
  exact Nat.add_lt_add_right (bulkOf_children_lt node) _

end Node

/-- The nodes that the declaration puts on the stack. -/
def TypeDecl.roots : TypeDecl → List Node
  | .variant _ _ ctors _ => ctors.flatMap fun ctor => ctor.args.map .type
  | .synonym _ _ body _ => [.type body]

/-- The body of a program and the types that are declared in it. -/
def Program.roots (program : Program) : List Node :=
  .expr program.body :: program.groups.flatten.flatMap TypeDecl.roots

/-- The level of the deepest node of a program. -/
def Program.nestingDepth (program : Program) : Nat :=
  Node.deepest 0 (program.roots.map (·, 1)).reverse

end FieldML
