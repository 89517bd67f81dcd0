import FieldML.Parser.Program
import FieldML.Syntax.Depth
import FieldML.Token.Lexer
import Mathlib.Order.Bounds.Basic

/-!
# The depth that is measured

A node of a tree is one deeper than the deepest node right below it. What the walk over the stack
finds is compared with that by what both are bounded by: a bound of the walk is one of every node
that waits, seen from its level. The order in which nodes wait does not matter then, and a node can
be replaced by its children.
-/

namespace FieldML

/-! ### Bounds of the depth of several trees -/

section

variable {n : Nat}

theorem TypeExpr.depthList_le_iff {ts : List TypeExpr} :
    depthList ts ≤ n ↔ ∀ t ∈ ts, t.depth ≤ n := by
  induction ts with
  | nil => simp [depthList]
  | cons t ts ih => simp only [depthList, Nat.max_le, ih, List.forall_mem_cons]

theorem TypeExpr.depthFields_le_iff {fields : List (Ident × TypeExpr)} :
    depthFields fields ≤ n ↔ ∀ field ∈ fields, field.2.depth ≤ n := by
  induction fields with
  | nil => simp [depthFields]
  | cons field fields ih => simp only [depthFields, Nat.max_le, ih, List.forall_mem_cons]

theorem Pattern.depthList_le_iff {ps : List Pattern} :
    depthList ps ≤ n ↔ ∀ p ∈ ps, p.depth ≤ n := by
  induction ps with
  | nil => simp [depthList]
  | cons p ps ih => simp only [depthList, Nat.max_le, ih, List.forall_mem_cons]

theorem Expr.depthList_le_iff {es : List Expr} : depthList es ≤ n ↔ ∀ e ∈ es, e.depth ≤ n := by
  induction es with
  | nil => simp [depthList]
  | cons e es ih => simp only [depthList, Nat.max_le, ih, List.forall_mem_cons]

theorem Expr.depthFields_le_iff {fields : List (Ident × Expr)} :
    depthFields fields ≤ n ↔ ∀ field ∈ fields, field.2.depth ≤ n := by
  induction fields with
  | nil => simp [depthFields]
  | cons field fields ih => simp only [depthFields, Nat.max_le, ih, List.forall_mem_cons]

theorem Expr.depthBindings_le_iff {bindings : List (RecBinding Expr)} :
    depthBindings bindings ≤ n ↔ ∀ binding ∈ bindings, binding.value.depth ≤ n := by
  induction bindings with
  | nil => simp [depthBindings]
  | cons binding bindings ih =>
      simp only [depthBindings, Nat.max_le, ih, List.forall_mem_cons]

theorem Expr.depthArms_le_iff {arms : List (MatchArm Expr)} :
    depthArms arms ≤ n ↔ ∀ arm ∈ arms, arm.pattern.depth ≤ n ∧ arm.body.depth ≤ n := by
  induction arms with
  | nil => simp [depthArms]
  | cons arm arms ih => simp only [depthArms, Nat.max_le, ih, List.forall_mem_cons]

end

namespace Node

/-! ### Nodes right below a node -/

/-- The first node is written right inside the second one. -/
inductive Below : Node → Node → Prop
  | lambda {param body r} : Below (expr body) (expr (.lambda param body r))
  | func {func arg r} : Below (expr func) (expr (.apply func arg r))
  | arg {func arg r} : Below (expr arg) (expr (.apply func arg r))
  | value {name value body r} : Below (expr value) (expr (.letIn name value body r))
  | body {name value body r} : Below (expr body) (expr (.letIn name value body r))
  | recValue {binding bindings body r} : binding ∈ bindings →
      Below (expr binding.value) (expr (.letRec bindings body r))
  | recBody {bindings body r} : Below (expr body) (expr (.letRec bindings body r))
  | cond {cond yes no r} : Below (expr cond) (expr (.ifElse cond yes no r))
  | yes {cond yes no r} : Below (expr yes) (expr (.ifElse cond yes no r))
  | no {cond yes no r} : Below (expr no) (expr (.ifElse cond yes no r))
  | listItem {item items r} : item ∈ items → Below (expr item) (expr (.list items r))
  | tupleItem {item items r} : item ∈ items → Below (expr item) (expr (.tuple items r))
  | recordField {name value fields r} : (name, value) ∈ fields →
      Below (expr value) (expr (.record fields r))
  | fieldBase {base name r} : Below (expr base) (expr (.field base name r))
  | updateBase {base fields r} : Below (expr base) (expr (.update base fields r))
  | updateField {base name value fields r} : (name, value) ∈ fields →
      Below (expr value) (expr (.update base fields r))
  | constructArg {ctor arg r} : Below (expr arg) (expr (.construct ctor (some arg) r))
  | scrutinee {scrutinee arms r} : Below (expr scrutinee) (expr (.caseOf scrutinee arms r))
  | armPattern {scrutinee arm arms r} : arm ∈ arms →
      Below (pattern arm.pattern) (expr (.caseOf scrutinee arms r))
  | armBody {scrutinee arm arms r} : arm ∈ arms →
      Below (expr arm.body) (expr (.caseOf scrutinee arms r))
  | ref {value r} : Below (expr value) (expr (.ref value r))
  | deref {target r} : Below (expr target) (expr (.deref target r))
  | assignTarget {target value r} : Below (expr target) (expr (.assign target value r))
  | assignValue {target value r} : Below (expr value) (expr (.assign target value r))
  | first {first second r} : Below (expr first) (expr (.sequence first second r))
  | second {first second r} : Below (expr second) (expr (.sequence first second r))
  | annotBody {body ty r} : Below (expr body) (expr (.annot body ty r))
  | annotType {body ty r} : Below (type ty) (expr (.annot body ty r))
  | patternItem {item items r} : item ∈ items →
      Below (pattern item) (pattern (.tuple items r))
  | head {head tail r} : Below (pattern head) (pattern (.cons head tail r))
  | tail {head tail r} : Below (pattern tail) (pattern (.cons head tail r))
  | patternArg {ctor arg r} : Below (pattern arg) (pattern (.construct ctor (some arg) r))
  | aliased {p name r} : Below (pattern p) (pattern (.alias p name r))
  | typeArg {arg args name r} : arg ∈ args → Below (type arg) (type (.named args name r))
  | param {param result r} : Below (type param) (type (.func param result r))
  | result {param result r} : Below (type result) (type (.func param result r))
  | productItem {item items r} : item ∈ items → Below (type item) (type (.product items r))
  | typeField {name ty fields r} : (name, ty) ∈ fields →
      Below (type ty) (type (.record fields r))

@[simp] theorem children_expr (e : Expr) : (expr e).children = e.children := rfl

@[simp] theorem children_pattern (p : Pattern) : (pattern p).children = p.children := rfl

@[simp] theorem children_type (t : TypeExpr) : (type t).children = t.children := rfl

/-- The stack gets all nodes right below the one that is taken from it, and no others. -/
theorem mem_children_iff {part node : Node} : part ∈ node.children ↔ part.Below node := by
  constructor
  · intro h
    rcases node with e | p | t
    · cases e with
      | construct ctor arg r => cases arg <;> grind [children, Expr.children, Below]
      | _ => grind [children, Expr.children, Below]
    · cases p with
      | construct ctor arg r => cases arg <;> grind [children, Pattern.children, Below]
      | _ => grind [children, Pattern.children, Below]
    · cases t <;> grind [children, TypeExpr.children, Below]
  · intro h
    cases h with
    | armPattern harm | armBody harm =>
        refine List.mem_cons_of_mem _ (List.mem_flatMap_of_mem harm ?_)
        simp
    | _ => grind [children, Expr.children, Pattern.children, TypeExpr.children]

/-! ### Depth of a node -/

/-- The depth of the tree that starts at the node. -/
def depth : Node → Nat
  | expr e => e.depth
  | pattern p => p.depth
  | type t => t.depth

@[simp] theorem depth_expr (e : Expr) : (expr e).depth = e.depth := rfl

@[simp] theorem depth_pattern (p : Pattern) : (pattern p).depth = p.depth := rfl

@[simp] theorem depth_type (t : TypeExpr) : (type t).depth = t.depth := rfl

theorem depth_pos (node : Node) : 0 < node.depth := by
  rcases node with e | p | t
  · rw [depth_expr, Expr.depth.eq_def]
    split <;> omega
  · rw [depth_pattern, Pattern.depth.eq_def]
    split <;> omega
  · rw [depth_type, TypeExpr.depth.eq_def]
    split <;> omega

/-- A node is one deeper than the deepest node right below it. -/
theorem depth_le_succ_iff {node : Node} {n : Nat} :
    node.depth ≤ n + 1 ↔ ∀ part ∈ node.children, part.depth ≤ n := by
  rcases node with e | p | t
  · rw [depth_expr, children_expr, Expr.depth.eq_def, Expr.children.eq_def]
    split <;>
      simp only [Nat.add_le_add_iff_right, Nat.le_add_left, Nat.max_le, Expr.depthList_le_iff,
        Expr.depthFields_le_iff, Expr.depthBindings_le_iff, Expr.depthArms_le_iff,
        List.forall_mem_cons, List.forall_mem_append, List.forall_mem_map, List.forall_mem_flatMap,
        List.not_mem_nil, false_imp_iff, implies_true, and_true, depth_expr, depth_pattern,
        depth_type]
  · rw [depth_pattern, children_pattern, Pattern.depth.eq_def, Pattern.children.eq_def]
    split <;>
      simp only [Nat.add_le_add_iff_right, Nat.le_add_left, Nat.max_le, Pattern.depthList_le_iff,
        List.forall_mem_cons, List.forall_mem_map, List.not_mem_nil, false_imp_iff, implies_true,
        and_true, depth_pattern]
  · rw [depth_type, children_type, TypeExpr.depth.eq_def, TypeExpr.children.eq_def]
    split <;>
      simp only [Nat.add_le_add_iff_right, Nat.le_add_left, Nat.max_le, TypeExpr.depthList_le_iff,
        TypeExpr.depthFields_le_iff, List.forall_mem_cons, List.forall_mem_map, List.not_mem_nil,
        false_imp_iff, implies_true, and_true, depth_type]

theorem depth_lt_of_below {part node : Node} (h : part.Below node) : part.depth < node.depth := by
  obtain ⟨n, hn⟩ := Nat.exists_eq_succ_of_ne_zero node.depth_pos.ne'
  have := depth_le_succ_iff.mp hn.le part (mem_children_iff.mpr h)
  omega

/-- The depth of a leaf is one, and that of any other node is one more than the greatest depth right
below it. -/
theorem isGreatest_depth (node : Node) :
    node.depth = 1 ∧ (∀ part : Node, ¬ part.Below node) ∨
      IsGreatest ((·.depth + 1) '' {part : Node | part.Below node}) node.depth := by
  have hupper : node.depth ∈ upperBounds ((·.depth + 1) '' {part : Node | part.Below node}) := by
    rintro _ ⟨part, hpart, rfl⟩
    exact depth_lt_of_below hpart
  by_cases hdeepest : ∃ part : Node, part.Below node ∧ part.depth + 1 = node.depth
  · exact .inr ⟨hdeepest, hupper⟩
  · have hleaf : node.depth ≤ 1 := by
      by_contra hdeep
      have hle : node.depth ≤ (node.depth - 2) + 1 := depth_le_succ_iff.mpr fun part hpart => by
        have hbelow := mem_children_iff.mp hpart
        have hlt := depth_lt_of_below hbelow
        have hne : part.depth + 1 ≠ node.depth := fun h => hdeepest ⟨part, hbelow, h⟩
        omega
      omega
    refine .inl ⟨le_antisymm hleaf node.depth_pos, fun part hpart => ?_⟩
    have := depth_lt_of_below hpart
    have := part.depth_pos
    omega

/-! ### The walk over the stack -/

/-- What the walk finds is bounded by what bounds every node that waits, seen from its level. Here
the order of the stack is lost. -/
theorem deepest_le_iff {n : Nat} (found : Nat) (pending : List (Node × Nat)) :
    deepest found pending ≤ n ↔
      found ≤ n ∧ ∀ entry ∈ pending, entry.2 + entry.1.depth ≤ n + 1 := by
  induction found, pending using deepest.induct with
  | case1 found => simp [deepest]
  | case2 found node level pending ih =>
      -- a node fits below the bound if its level does and all its children fit one level deeper
      have hnode : level + node.depth ≤ n + 1 ↔
          level ≤ n ∧ ∀ part ∈ node.children, level + 1 + part.depth ≤ n + 1 := by
        have hpos := node.depth_pos
        constructor
        · intro h
          have hparts : node.depth ≤ (n - level) + 1 := by omega
          refine ⟨by omega, fun part hpart => ?_⟩
          have := depth_le_succ_iff.mp hparts part hpart
          omega
        · rintro ⟨hlevel, hparts⟩
          have : node.depth ≤ (n - level) + 1 :=
            depth_le_succ_iff.mpr fun part hpart => by
              have := hparts part hpart
              omega
          omega
      rw [deepest, ih, List.forall_mem_cons, List.forall_mem_append, hnode, Nat.max_le]
      simp only [List.mem_reverse, List.forall_mem_map, and_assoc]

end Node

/-! ### Programs -/

namespace Program

/-- The nodes at which the trees of a program start: its body, the arguments of the constructors of
its variants and the bodies of its synonyms. -/
inductive Top (program : Program) : Node → Prop
  | body : Top program (.expr program.body)
  | arg {group params name ctors r ctor t} : group ∈ program.groups →
      .variant params name ctors r ∈ group → ctor ∈ ctors → t ∈ ctor.args → Top program (.type t)
  | synonym {group params name t r} : group ∈ program.groups →
      .synonym params name t r ∈ group → Top program (.type t)

/-- The expressions, patterns and types that are written in a program. -/
inductive Contains (program : Program) : Node → Prop
  | top {node} : program.Top node → Contains program node
  | inside {part node} : part.Below node → Contains program node → Contains program part

variable {program : Program}

theorem mem_roots_iff {node : Node} : node ∈ program.roots ↔ program.Top node := by
  simp only [roots, List.mem_cons, List.mem_flatMap, List.mem_flatten]
  constructor
  · rintro (rfl | ⟨decl, ⟨group, hgroup, hdecl⟩, hnode⟩)
    · exact .body
    · cases decl with
      | variant params name ctors r =>
          simp only [TypeDecl.roots, List.mem_flatMap, List.mem_map] at hnode
          obtain ⟨ctor, hctor, t, ht, rfl⟩ := hnode
          exact .arg hgroup hdecl hctor ht
      | synonym params name t r =>
          obtain rfl := List.mem_singleton.mp hnode
          exact .synonym hgroup hdecl
  · rintro (_ | ⟨hgroup, hdecl, hctor, ht⟩ | ⟨hgroup, hdecl⟩)
    · exact .inl rfl
    · exact .inr ⟨_, ⟨_, hgroup, hdecl⟩,
        List.mem_flatMap_of_mem hctor (List.mem_map_of_mem ht)⟩
    · exact .inr ⟨_, ⟨_, hgroup, hdecl⟩, List.mem_singleton.mpr rfl⟩

theorem nestingDepth_le_iff {n : Nat} :
    program.nestingDepth ≤ n ↔ ∀ root ∈ program.roots, root.depth ≤ n := by
  rw [nestingDepth, Node.deepest_le_iff]
  simp only [List.mem_reverse, List.forall_mem_map, Nat.zero_le, true_and, Nat.add_comm 1,
    Nat.add_le_add_iff_right]

theorem depth_typeDecl_le_iff {decl : TypeDecl} {n : Nat} :
    decl.depth ≤ n ↔ ∀ root ∈ decl.roots, root.depth ≤ n := by
  cases decl with
  | variant params name ctors r =>
      simp only [TypeDecl.depth, TypeDecl.roots, List.forall_mem_flatMap, List.forall_mem_map,
        Node.depth_type]
      induction ctors with
      | nil => simp
      | cons ctor ctors ih =>
          simp only [List.foldr_cons, Nat.max_le, ih, TypeExpr.depthList_le_iff,
            List.forall_mem_cons]
  | synonym params name t r =>
      simp only [TypeDecl.depth, TypeDecl.roots, List.forall_mem_singleton, Node.depth_type]

theorem depth_le_iff {n : Nat} :
    program.depth ≤ n ↔ ∀ root ∈ program.roots, root.depth ≤ n := by
  have hdecls (decls : List TypeDecl) :
      decls.foldr (fun decl depth => max decl.depth depth) program.body.depth ≤ n ↔
        program.body.depth ≤ n ∧ ∀ decl ∈ decls, ∀ root ∈ decl.roots, root.depth ≤ n := by
    induction decls with
    | nil => simp
    | cons decl decls ih =>
        simp only [List.foldr_cons, Nat.max_le, ih, depth_typeDecl_le_iff, List.forall_mem_cons]
        exact and_left_comm
  rw [depth, hdecls, roots, List.forall_mem_cons, List.forall_mem_flatMap, Node.depth_expr]

/-- The walk finds the depth of the trees. -/
theorem nestingDepth_eq_depth (program : Program) : program.nestingDepth = program.depth :=
  eq_of_forall_ge_iff fun _ => nestingDepth_le_iff.trans depth_le_iff.symm

theorem isGreatest_nestingDepth (program : Program) :
    IsGreatest (Node.depth '' {top | program.Top top}) program.nestingDepth := by
  have hle := nestingDepth_le_iff.mp (Nat.le_refl program.nestingDepth)
  refine ⟨?_, ?_⟩
  · by_contra hnone
    have hlt : ∀ root ∈ program.roots, root.depth < program.nestingDepth := fun root hroot =>
      lt_of_le_of_ne (hle root hroot) fun h => hnone ⟨root, mem_roots_iff.mp hroot, h⟩
    have hbody := hlt _ (mem_roots_iff.mpr .body)
    have : program.nestingDepth ≤ program.nestingDepth - 1 :=
      nestingDepth_le_iff.mpr fun root hroot => by
        have := hlt root hroot
        omega
    omega
  · rintro _ ⟨top, htop, rfl⟩
    exact hle top (mem_roots_iff.mpr htop)

theorem Contains.depth_le {node : Node} (h : program.Contains node) :
    node.depth ≤ program.nestingDepth := by
  induction h with
  | top htop => exact nestingDepth_le_iff.mp (Nat.le_refl _) _ (mem_roots_iff.mpr htop)
  | inside hbelow _ ih => exact (Node.depth_lt_of_below hbelow).le.trans ih

theorem nestingDepth_le_of_ofTokens {tokens : List Token}
    (h : Program.ofTokens tokens = .ok program) : program.nestingDepth ≤ Parser.maxNesting := by
  unfold Program.ofTokens at h
  dsimp only at h
  cases hrun : Parser.wholeProgram (Parser.grammar ((Cursor.ofTokens tokens).rest.length + 1))
    (Cursor.ofTokens tokens) with
  | error e =>
      rw [hrun] at h
      cases h
  | ok result =>
      rw [hrun] at h
      change (if Parser.maxNesting < result.1.nestingDepth then _ else _) = _ at h
      split at h
      · cases h
      · next hshallow =>
          cases h
          exact Nat.le_of_not_lt hshallow

/-- What the walk over the stack finds is the depth of the deepest tree of the program, where a node
is one deeper than the deepest of its parts. So no expression, no pattern and no type of a program
that is accepted is deeper than the limit. -/
theorem nestingDepth_exact :
    (∀ program : Program, program.nestingDepth = program.depth ∧
      IsGreatest (Node.depth '' {top | program.Top top}) program.nestingDepth) ∧
    (∀ node : Node, node.depth = 1 ∧ (∀ part : Node, ¬ part.Below node) ∨
      IsGreatest ((·.depth + 1) '' {part : Node | part.Below node}) node.depth) ∧
    ∀ (tokens : List Token) (program : Program), Program.ofTokens tokens = .ok program →
      ∀ node, program.Contains node → node.depth ≤ Parser.maxNesting :=
  ⟨fun program => ⟨program.nestingDepth_eq_depth, program.isGreatest_nestingDepth⟩,
    Node.isGreatest_depth,
    fun _ _ h _ hnode => hnode.depth_le.trans (nestingDepth_le_of_ofTokens h)⟩

/-- The deepest path goes through a function and an annotation to its type. -/
theorem nestingDepth_exact_annotated :
    ∃ tokens program, Token.lex "type pair = int * int in fun x -> (x : pair)" = .ok tokens ∧
      Program.ofTokens tokens = .ok program ∧ program.depth = 3 ∧
      ∀ node, program.Contains node → node.depth ≤ Parser.maxNesting := by
  have hread : ((Token.lex "type pair = int * int in fun x -> (x : pair)").toOption.bind
      fun tokens => (Program.ofTokens tokens).toOption.map nestingDepth) = some 3 := by
    decide +kernel
  cases hlex : Token.lex "type pair = int * int in fun x -> (x : pair)" with
  | error e =>
      rw [hlex] at hread
      cases hread
  | ok tokens =>
      rw [hlex, Except.toOption, Option.bind_some] at hread
      cases hparse : Program.ofTokens tokens with
      | error e =>
          rw [hparse] at hread
          cases hread
      | ok program =>
          rw [hparse] at hread
          exact ⟨tokens, program, rfl, hparse,
            (nestingDepth_exact.1 program).1.symm.trans (Option.some.inj hread),
            nestingDepth_exact.2.2 tokens program hparse⟩

end Program

end FieldML
