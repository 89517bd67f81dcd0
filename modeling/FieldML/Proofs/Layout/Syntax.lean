import FieldML.Parser.Basic
import FieldML.Syntax.Depth

/-!
# Programs without their ranges

Tokens and trees with every range replaced by the erased one. Two of them are the same up to ranges
when nothing but ranges is lost on them, that is when they are equal after that.
-/

namespace FieldML

@[simp] theorem Range.erased_merge (r : Range) : Range.erased.merge r = r := Range.merge_label _ r

def Ident.erase (name : Ident) : Ident := ⟨name.text, .erased⟩

def Token.erase (t : Token) : Token := ⟨t.kind, t.text, .erased⟩

mutual

def TypeExpr.erase : TypeExpr → TypeExpr
  | .var name => .var name.erase
  | .named args name _ => .named (eraseList args) name.erase .erased
  | .func param result _ => .func param.erase result.erase .erased
  | .product items _ => .product (eraseList items) .erased
  | .record fields _ => .record (eraseFields fields) .erased

def TypeExpr.eraseList : List TypeExpr → List TypeExpr
  | [] => []
  | t :: ts => t.erase :: eraseList ts

def TypeExpr.eraseFields : List (Ident × TypeExpr) → List (Ident × TypeExpr)
  | [] => []
  | (name, t) :: fields => (name.erase, t.erase) :: eraseFields fields

end

mutual

def Pattern.erase : Pattern → Pattern
  | .wildcard _ => .wildcard .erased
  | .var name => .var name.erase
  | .literal v _ => .literal v .erased
  | .tuple items _ => .tuple (eraseList items) .erased
  | .nil _ => .nil .erased
  | .cons head tail _ => .cons head.erase tail.erase .erased
  | .construct ctor arg _ => .construct ctor.erase (eraseArg arg) .erased
  | .alias pattern name _ => .alias pattern.erase name.erase .erased

def Pattern.eraseList : List Pattern → List Pattern
  | [] => []
  | p :: ps => p.erase :: eraseList ps

def Pattern.eraseArg : Option Pattern → Option Pattern
  | none => none
  | some p => some p.erase

end

mutual

def Expr.erase : Expr → Expr
  | .literal v _ => .literal v .erased
  | .var name => .var name.erase
  | .lambda param body _ => .lambda param.erase body.erase .erased
  | .apply func arg _ => .apply func.erase arg.erase .erased
  | .letIn name value body _ => .letIn name.erase value.erase body.erase .erased
  | .letRec bindings body _ => .letRec (eraseBindings bindings) body.erase .erased
  | .ifElse cond yes no _ => .ifElse cond.erase yes.erase no.erase .erased
  | .list items _ => .list (eraseList items) .erased
  | .tuple items _ => .tuple (eraseList items) .erased
  | .record fields _ => .record (eraseFields fields) .erased
  | .field base name _ => .field base.erase name.erase .erased
  | .update base fields _ => .update base.erase (eraseFields fields) .erased
  | .construct ctor arg _ => .construct ctor.erase (eraseArg arg) .erased
  | .caseOf scrutinee arms _ => .caseOf scrutinee.erase (eraseArms arms) .erased
  | .ref value _ => .ref value.erase .erased
  | .deref target _ => .deref target.erase .erased
  | .assign target value _ => .assign target.erase value.erase .erased
  | .sequence first second _ => .sequence first.erase second.erase .erased
  | .annot body type _ => .annot body.erase type.erase .erased

def Expr.eraseList : List Expr → List Expr
  | [] => []
  | e :: es => e.erase :: eraseList es

def Expr.eraseFields : List (Ident × Expr) → List (Ident × Expr)
  | [] => []
  | (name, e) :: fields => (name.erase, e.erase) :: eraseFields fields

def Expr.eraseBindings : List (RecBinding Expr) → List (RecBinding Expr)
  | [] => []
  | ⟨name, e, _⟩ :: bindings => ⟨name.erase, e.erase, .erased⟩ :: eraseBindings bindings

def Expr.eraseArg : Option Expr → Option Expr
  | none => none
  | some e => some e.erase

def Expr.eraseArms : List (MatchArm Expr) → List (MatchArm Expr)
  | [] => []
  | ⟨p, e, _⟩ :: arms => ⟨p.erase, e.erase, .erased⟩ :: eraseArms arms

end

def CtorDecl.erase (ctor : CtorDecl) : CtorDecl :=
  ⟨ctor.name.erase, TypeExpr.eraseList ctor.args, .erased⟩

def TypeDecl.erase : TypeDecl → TypeDecl
  | .variant params name ctors _ =>
      .variant (params.map Ident.erase) name.erase (ctors.map CtorDecl.erase) .erased
  | .synonym params name body _ =>
      .synonym (params.map Ident.erase) name.erase body.erase .erased

def Program.erase (p : Program) : Program := ⟨p.groups.map (·.map TypeDecl.erase), p.body.erase⟩

/-! ### Lists of trees -/

def RecBinding.erase (b : RecBinding Expr) : RecBinding Expr :=
  ⟨b.name.erase, b.value.erase, .erased⟩

def MatchArm.erase (arm : MatchArm Expr) : MatchArm Expr :=
  ⟨arm.pattern.erase, arm.body.erase, .erased⟩

@[simp] theorem TypeExpr.eraseList_eq_map (ts : List TypeExpr) :
    eraseList ts = ts.map erase := by
  induction ts with
  | nil => rfl
  | cons t ts ih => rw [eraseList, ih, List.map_cons]

@[simp] theorem TypeExpr.eraseFields_eq_map (fields : List (Ident × TypeExpr)) :
    eraseFields fields = fields.map (Prod.map Ident.erase erase) := by
  induction fields with
  | nil => rfl
  | cons field fields ih => rw [eraseFields, ih, List.map_cons, Prod.map]

@[simp] theorem Pattern.eraseList_eq_map (ps : List Pattern) : eraseList ps = ps.map erase := by
  induction ps with
  | nil => rfl
  | cons p ps ih => rw [eraseList, ih, List.map_cons]

@[simp] theorem Expr.eraseList_eq_map (es : List Expr) : eraseList es = es.map erase := by
  induction es with
  | nil => rfl
  | cons e es ih => rw [eraseList, ih, List.map_cons]

@[simp] theorem Expr.eraseFields_eq_map (fields : List (Ident × Expr)) :
    eraseFields fields = fields.map (Prod.map Ident.erase erase) := by
  induction fields with
  | nil => rfl
  | cons field fields ih => rw [eraseFields, ih, List.map_cons, Prod.map]

@[simp] theorem Expr.eraseBindings_eq_map (bindings : List (RecBinding Expr)) :
    eraseBindings bindings = bindings.map RecBinding.erase := by
  induction bindings with
  | nil => rfl
  | cons b bindings ih => rw [eraseBindings, ih, List.map_cons, RecBinding.erase]

@[simp] theorem Expr.eraseArms_eq_map (arms : List (MatchArm Expr)) :
    eraseArms arms = arms.map MatchArm.erase := by
  induction arms with
  | nil => rfl
  | cons arm arms ih => rw [eraseArms, ih, List.map_cons, MatchArm.erase]

/-! ### Ranges and depth of the erased trees -/

@[simp] theorem TypeExpr.range_erase (t : TypeExpr) : t.erase.range = .erased := by
  cases t <;> rfl

@[simp] theorem Pattern.range_erase (p : Pattern) : p.erase.range = .erased := by
  cases p <;> rfl

@[simp] theorem Expr.range_erase (e : Expr) : e.erase.range = .erased := by
  cases e <;> rfl

mutual

@[simp] theorem TypeExpr.depth_erase (t : TypeExpr) : t.erase.depth = t.depth := by
  cases t with
  | var => rfl
  | named args => exact congrArg (· + 1) (depthList_eraseList args)
  | func param result =>
      rw [erase, depth, depth, depth_erase param, depth_erase result]
  | product items => exact congrArg (· + 1) (depthList_eraseList items)
  | record fields => exact congrArg (· + 1) (depthFields_eraseFields fields)

theorem TypeExpr.depthList_eraseList (ts : List TypeExpr) :
    depthList (eraseList ts) = depthList ts := by
  match ts with
  | [] => rfl
  | t :: ts => rw [eraseList, depthList, depthList, depth_erase t, depthList_eraseList ts]

theorem TypeExpr.depthFields_eraseFields (fields : List (Ident × TypeExpr)) :
    depthFields (eraseFields fields) = depthFields fields := by
  match fields with
  | [] => rfl
  | (name, t) :: fields =>
      rw [eraseFields, depthFields, depthFields, depth_erase t, depthFields_eraseFields fields]

end

mutual

@[simp] theorem Pattern.depth_erase (p : Pattern) : p.erase.depth = p.depth := by
  match p with
  | .wildcard _ | .var _ | .literal _ _ | .nil _ | .construct _ none _ => rfl
  | .tuple items _ => exact congrArg (· + 1) (depthList_eraseList items)
  | .cons head tail _ => rw [erase, depth, depth, depth_erase head, depth_erase tail]
  | .construct _ (some arg) _ => exact congrArg (· + 1) (depth_erase arg)
  | .alias pattern _ _ => exact congrArg (· + 1) (depth_erase pattern)

theorem Pattern.depthList_eraseList (ps : List Pattern) :
    depthList (eraseList ps) = depthList ps := by
  match ps with
  | [] => rfl
  | p :: ps => rw [eraseList, depthList, depthList, depth_erase p, depthList_eraseList ps]

end

mutual

@[simp] theorem Expr.depth_erase (e : Expr) : e.erase.depth = e.depth := by
  match e with
  | .literal _ _ | .var _ | .construct _ none _ => rfl
  | .lambda _ body _ | .field body _ _ | .ref body _ | .deref body _ =>
      exact congrArg (· + 1) (depth_erase body)
  | .construct _ (some arg) _ => exact congrArg (· + 1) (depth_erase arg)
  | .apply e e' _ | .letIn _ e e' _ | .assign e e' _ | .sequence e e' _ =>
      rw [erase, depth, depth, depth_erase e, depth_erase e']
  | .letRec bindings body _ =>
      rw [erase, depth, depth, depthBindings_eraseBindings bindings, depth_erase body]
  | .ifElse cond yes no _ =>
      rw [erase, depth, depth, depth_erase cond, depth_erase yes, depth_erase no]
  | .list items _ | .tuple items _ => exact congrArg (· + 1) (depthList_eraseList items)
  | .record fields _ => exact congrArg (· + 1) (depthFields_eraseFields fields)
  | .update base fields _ =>
      rw [erase, depth, depth, depth_erase base, depthFields_eraseFields fields]
  | .caseOf scrutinee arms _ =>
      rw [erase, depth, depth, depth_erase scrutinee, depthArms_eraseArms arms]
  | .annot body type _ => rw [erase, depth, depth, depth_erase body, type.depth_erase]

theorem Expr.depthList_eraseList (es : List Expr) : depthList (eraseList es) = depthList es := by
  match es with
  | [] => rfl
  | e :: es => rw [eraseList, depthList, depthList, depth_erase e, depthList_eraseList es]

theorem Expr.depthFields_eraseFields (fields : List (Ident × Expr)) :
    depthFields (eraseFields fields) = depthFields fields := by
  match fields with
  | [] => rfl
  | (name, e) :: fields =>
      rw [eraseFields, depthFields, depthFields, depth_erase e, depthFields_eraseFields fields]

theorem Expr.depthBindings_eraseBindings (bindings : List (RecBinding Expr)) :
    depthBindings (eraseBindings bindings) = depthBindings bindings := by
  match bindings with
  | [] => rfl
  | ⟨name, e, range⟩ :: bindings =>
      rw [eraseBindings, depthBindings, depthBindings, depth_erase e,
        depthBindings_eraseBindings bindings]

theorem Expr.depthArms_eraseArms (arms : List (MatchArm Expr)) :
    depthArms (eraseArms arms) = depthArms arms := by
  match arms with
  | [] => rfl
  | ⟨p, e, range⟩ :: arms =>
      rw [eraseArms, depthArms, depthArms, p.depth_erase, depth_erase e, depthArms_eraseArms arms]

end

@[simp] theorem TypeDecl.depth_erase (decl : TypeDecl) : decl.erase.depth = decl.depth := by
  cases decl with
  | variant params name ctors range =>
      simp only [erase, depth, List.foldr_map, CtorDecl.erase, TypeExpr.depthList_eraseList]
  | synonym params name body range => exact body.depth_erase

@[simp] theorem Program.depth_erase (p : Program) : p.erase.depth = p.depth := by
  have hflatten : p.erase.groups.flatten = p.groups.flatten.map TypeDecl.erase := by
    rw [List.map_flatten]
    rfl
  rw [depth, depth, hflatten, List.foldr_map]
  simp [erase]

end FieldML
