import FieldML.Check.Infer
import FieldML.Proofs.Typing.Meaning

/-!
# Typing rules

Which types an expression has, after Hindley and Milner. A `let` generalizes over all variables that
are not free in the context, but only for syntactic values. The names of a recursive group are
monomorphic inside the group and generalized after it. The constructors that an expression may use
are those of a signature, to which the declarations of a program add.
-/

namespace FieldML

/-- A monomorphic type that is quantified over some variables. -/
structure PolyTy where
  vars : List TypeVar
  body : MonoTy

namespace PolyTy

/-- A type that is quantified over no variables. -/
def ofMono (τ : MonoTy) : PolyTy := ⟨[], τ⟩

/-- The monomorphic type arises by a choice of types for the quantified variables. -/
def HasInstance (π : PolyTy) (τ : MonoTy) : Prop :=
  ∃ δ : Instantiation, (∀ v ∉ π.vars, δ v = .var v) ∧ τ = π.body.subst δ

/-- The variables that are not quantified. -/
def freeVars (π : PolyTy) : List TypeVar := π.body.vars.filter (· ∉ π.vars)

end PolyTy

/-- The quantified type that a type stands for. -/
def Ty.poly : Ty → PolyTy
  | .all v _ t _ => ⟨v :: t.poly.vars, t.poly.body⟩
  | t => .ofMono (t.mono .var)

/-- The types of the names in scope. -/
abbrev Context := List (String × PolyTy)

namespace Context

/-- The variables that are free in the type of some name. -/
def freeVars (Γ : Context) : List TypeVar := Γ.flatMap fun p => p.2.freeVars

/-- The type quantified over the variables that are not free in the context. -/
def generalize (Γ : Context) (τ : MonoTy) : PolyTy := ⟨τ.vars.filter (· ∉ Γ.freeVars), τ⟩

/-- The type that a `let` gives to the name of a value of this type. -/
def letType (Γ : Context) (value : Expr) (τ : MonoTy) : PolyTy :=
  if value.isValue then Γ.generalize τ else .ofMono τ

/-- The context with some more names, of which the last one counts. -/
def extend (Γ : Context) (names : List (String × PolyTy)) : Context :=
  names.foldl (fun Γ (name, π) => Fields.insert name π Γ) Γ

/-- The context with some more names of monomorphic types. -/
def extendMono (Γ : Context) (names : List (String × MonoTy)) : Context :=
  Γ.extend (names.map fun (name, τ) => (name, .ofMono τ))

end Context

/-- The type of a constant. -/
def Literal.type : Literal → MonoTy
  | .unit => .base .unit
  | .bool _ => .base .bool
  | .int _ => .base .int
  | .string _ => .base .string

/-- What is known of a constructor: its variant, the number of parameters that this one has, and the
types of the arguments, in which variable `i` stands for the parameter at place `i`. -/
structure CtorType where
  variant : String
  arity : Nat
  args : List MonoTy

/-- The types of the arguments where the variant has these type arguments. -/
def CtorType.argTypes (c : CtorType) (τs : List MonoTy) : List MonoTy :=
  c.args.map (MonoTy.subst fun i => τs.getD i (.var i))

/-- The number of parameters of every declared type, and what is known of every constructor. -/
structure Signature where
  arity? : String → Option Nat
  ctor? : String → Option CtorType

/-- The patterns for the `n` arguments of a constructor. Several arguments are given as a tuple, or
all at once by a wildcard. -/
def Pattern.spread? : Nat → Option Pattern → Option (List Pattern)
  | 0, none => some []
  | 1, some p => some [p]
  | n + 2, some (.tuple ps _) => if ps.length = n + 2 then some ps else none
  | n + 2, some (.wildcard range) => some (List.replicate (n + 2) (.wildcard range))
  | _, _ => none

/-- The `n` arguments of a constructor. Several arguments are given as a tuple. -/
def Expr.spread? : Nat → Option Expr → Option (List Expr)
  | 0, none => some []
  | 1, some e => some [e]
  | n + 2, some (.tuple es _) => if es.length = n + 2 then some es else none
  | _, _ => none

variable (sig : Signature)

mutual

/-- Values of the type may be tried on the pattern, which then binds names of these types. -/
inductive HasPattern : Pattern → MonoTy → List (String × MonoTy) → Prop
  | wildcard (range : Range) (τ : MonoTy) : HasPattern (.wildcard range) τ []
  | var (name : Ident) (τ : MonoTy) : HasPattern (.var name) τ [(name.text, τ)]
  | literal (v : Literal) (range : Range) : HasPattern (.literal v range) v.type []
  | tuple {items : List Pattern} {τs : List MonoTy} {bs : List (String × MonoTy)} (range : Range)
      (hitems : HasPatterns items τs bs) : HasPattern (.tuple items range) (.product τs) bs
  | nil (range : Range) (τ : MonoTy) : HasPattern (.nil range) (.list τ) []
  | cons {head tail : Pattern} {τ : MonoTy} {bs cs : List (String × MonoTy)} (range : Range)
      (hhead : HasPattern head τ bs) (htail : HasPattern tail (.list τ) cs) :
      HasPattern (.cons head tail range) (.list τ) (bs ++ cs)
  | construct {ctor : Ident} {c : CtorType} {arg : Option Pattern} {items : List Pattern}
      {τs : List MonoTy} {bs : List (String × MonoTy)} (range : Range)
      (hctor : sig.ctor? ctor.text = some c) (hparams : τs.length = c.arity)
      (harg : Pattern.spread? c.args.length arg = some items)
      (hitems : HasPatterns items (c.argTypes τs) bs) :
      HasPattern (.construct ctor arg range) (.variant c.variant τs) bs
  | alias {inner : Pattern} {τ : MonoTy} {bs : List (String × MonoTy)} (name : Ident)
      (range : Range) (hinner : HasPattern inner τ bs) :
      HasPattern (.alias inner name range) τ (bs ++ [(name.text, τ)])

/-- The patterns fit the types one by one, and bind names of these types together. -/
inductive HasPatterns : List Pattern → List MonoTy → List (String × MonoTy) → Prop
  | nil : HasPatterns [] [] []
  | cons {item : Pattern} {items : List Pattern} {τ : MonoTy} {τs : List MonoTy}
      {bs cs : List (String × MonoTy)} (hitem : HasPattern item τ bs)
      (hitems : HasPatterns items τs cs) : HasPatterns (item :: items) (τ :: τs) (bs ++ cs)

end

mutual

/-- The expression has the type where the names in scope have the types of the context. -/
inductive HasType : Context → Expr → MonoTy → Prop
  | literal (Γ : Context) (v : Literal) (range : Range) : HasType Γ (.literal v range) v.type
  | var {Γ : Context} {name : Ident} {π : PolyTy} {τ : MonoTy}
      (hname : Fields.get? Γ name.text = some π) (hτ : π.HasInstance τ) : HasType Γ (.var name) τ
  | lambda {Γ : Context} {param : Ident} {body : Expr} {τ τ' : MonoTy} (range : Range)
      (hbody : HasType (Fields.insert param.text (.ofMono τ) Γ) body τ') :
      HasType Γ (.lambda param body range) (.func τ τ')
  | apply {Γ : Context} {func arg : Expr} {τ τ' : MonoTy} (range : Range)
      (hfunc : HasType Γ func (.func τ τ')) (harg : HasType Γ arg τ) :
      HasType Γ (.apply func arg range) τ'
  | letIn {Γ : Context} {name : Ident} {value body : Expr} {τ τ' : MonoTy} (range : Range)
      (hvalue : HasType Γ value τ)
      (hbody : HasType (Fields.insert name.text (Γ.letType value τ) Γ) body τ') :
      HasType Γ (.letIn name value body range) τ'
  | letRec {Γ : Context} {bindings : List (RecBinding Expr)} {body : Expr} {τs : List MonoTy}
      {τ : MonoTy} (range : Range)
      (hlambda : ∀ b ∈ bindings, Check.isLambda b.value = true)
      (hnodup : (bindings.map (·.name.text)).Nodup)
      (hvalues : HasTypes (Γ.extendMono ((bindings.map (·.name.text)).zip τs))
        (bindings.map (·.value)) τs)
      (hbody : HasType (Γ.extend ((bindings.map (·.name.text)).zip (τs.map Γ.generalize)))
        body τ) :
      HasType Γ (.letRec bindings body range) τ
  | ifElse {Γ : Context} {cond yes no : Expr} {τ : MonoTy} (range : Range)
      (hcond : HasType Γ cond (.base .bool)) (hyes : HasType Γ yes τ) (hno : HasType Γ no τ) :
      HasType Γ (.ifElse cond yes no range) τ
  | list {Γ : Context} {items : List Expr} {τ : MonoTy} (range : Range)
      (hitems : ∀ e ∈ items, HasType Γ e τ) : HasType Γ (.list items range) (.list τ)
  | tuple {Γ : Context} {items : List Expr} {τs : List MonoTy} (range : Range)
      (hitems : HasTypes Γ items τs) : HasType Γ (.tuple items range) (.product τs)
  | record {Γ : Context} {fields : List (Ident × Expr)} {τs : List MonoTy} (range : Range)
      (hnodup : (fields.map (·.1.text)).Nodup) (hfields : HasTypes Γ (fields.map (·.2)) τs) :
      HasType Γ (.record fields range)
        (.record (Fields.ofList ((fields.map (·.1.text)).zip τs)))
  | construct {Γ : Context} {ctor : Ident} {c : CtorType} {arg : Option Expr}
      {items : List Expr} {τs : List MonoTy} (range : Range)
      (hctor : sig.ctor? ctor.text = some c) (hparams : τs.length = c.arity)
      (harg : Expr.spread? c.args.length arg = some items)
      (hitems : HasTypes Γ items (c.argTypes τs)) :
      HasType Γ (.construct ctor arg range) (.variant c.variant τs)
  | caseOf {Γ : Context} {scrutinee : Expr} {arms : List (MatchArm Expr)} {τ τ' : MonoTy}
      (range : Range) (hscrutinee : HasType Γ scrutinee τ) (harms : HasArms Γ arms τ τ') :
      HasType Γ (.caseOf scrutinee arms range) τ'
  | ref {Γ : Context} {value : Expr} {τ : MonoTy} (range : Range) (hvalue : HasType Γ value τ) :
      HasType Γ (.ref value range) (.ref τ)
  | deref {Γ : Context} {target : Expr} {τ : MonoTy} (range : Range)
      (htarget : HasType Γ target (.ref τ)) : HasType Γ (.deref target range) τ
  | assign {Γ : Context} {target value : Expr} {τ : MonoTy} (range : Range)
      (htarget : HasType Γ target (.ref τ)) (hvalue : HasType Γ value τ) :
      HasType Γ (.assign target value range) (.base .unit)
  | sequence {Γ : Context} {first second : Expr} {τ : MonoTy} (range : Range)
      (hfirst : HasType Γ first (.base .unit)) (hsecond : HasType Γ second τ) :
      HasType Γ (.sequence first second range) τ

/-- The expressions have the types one by one. -/
inductive HasTypes : Context → List Expr → List MonoTy → Prop
  | nil (Γ : Context) : HasTypes Γ [] []
  | cons {Γ : Context} {e : Expr} {es : List Expr} {τ : MonoTy} {τs : List MonoTy}
      (h : HasType Γ e τ) (hs : HasTypes Γ es τs) : HasTypes Γ (e :: es) (τ :: τs)

/-- The arms of a match take values of the first type to values of the second one. A pattern binds
each name once. -/
inductive HasArms : Context → List (MatchArm Expr) → MonoTy → MonoTy → Prop
  | nil (Γ : Context) (τ τ' : MonoTy) : HasArms Γ [] τ τ'
  | cons {Γ : Context} {arm : MatchArm Expr} {arms : List (MatchArm Expr)} {τ τ' : MonoTy}
      {bs : List (String × MonoTy)} (hpattern : HasPattern sig arm.pattern τ bs)
      (hnodup : (bs.map Prod.fst).Nodup) (hbody : HasType (Γ.extendMono bs) arm.body τ')
      (harms : HasArms Γ arms τ τ') : HasArms Γ (arm :: arms) τ τ'

end

/-! ### Declarations -/

/-- The type of this name with these arguments. -/
def Signature.named? (name : String) (τs : List MonoTy) : Option MonoTy :=
  match name, τs with
  | "int", [] => some (.base .int)
  | "bool", [] => some (.base .bool)
  | "string", [] => some (.base .string)
  | "unit", [] => some (.base .unit)
  | "list", [τ] => some (.list τ)
  | "ref", [τ] => some (.ref τ)
  | name, τs => if sig.arity? name = some τs.length then some (.variant name τs) else none

section

variable (params : List String)

mutual

/-- The type that is written in a declaration with these parameters. -/
def TypeExpr.mono? : TypeExpr → Option MonoTy
  | .var name =>
      if name.text ∈ params then some (.var (params.idxOf name.text)) else none
  | .named args name _ => do sig.named? name.text (← monoList? args)
  | .func param result _ => do return .func (← param.mono?) (← result.mono?)
  | .product items _ => do return .product (← monoList? items)
  | .record fields _ => do
      let τs ← monoFields? fields
      let names := fields.map (·.1.text)
      if names.Nodup then some (.record (Fields.ofList (names.zip τs))) else none

/-- The types that are written one after the other. -/
def TypeExpr.monoList? : List TypeExpr → Option (List MonoTy)
  | [] => some []
  | e :: es => do return (← e.mono?) :: (← monoList? es)

/-- The types of the fields that are written one after the other. -/
def TypeExpr.monoFields? : List (Ident × TypeExpr) → Option (List MonoTy)
  | [] => some []
  | (_, e) :: fields => do return (← e.mono?) :: (← monoFields? fields)

end

end

/-- The parameters of the declaration. -/
def TypeDecl.params : TypeDecl → List String
  | .variant params _ _ _ => params.map (·.text)
  | .synonym params _ _ _ => params.map (·.text)

namespace Signature

/-- The signature with one more variant, unless its name is taken. -/
def addType? (sig : Signature) (decl : TypeDecl) : Option Signature :=
  match decl with
  | .variant params name _ _ =>
      if sig.arity? name.text = none ∧ name.text ∉ VariantEnv.builtinNames then
        some { sig with arity? := Function.update sig.arity? name.text (some params.length) }
      else none
  | .synonym _ _ _ _ => none

/-- The signature with one more constructor of a variant with these parameters, unless its name is
taken. -/
def addCtor? (variant : String) (params : List String) (sig : Signature) (ctor : CtorDecl) :
    Option Signature := do
  let args ← TypeExpr.monoList? sig params ctor.args
  let c : CtorType := ⟨variant, params.length, args⟩
  if sig.ctor? ctor.name.text = none then
    some { sig with ctor? := Function.update sig.ctor? ctor.name.text (some c) }
  else none

/-- The signature with the constructors of a variant. -/
def addCtors? (sig : Signature) (decl : TypeDecl) : Option Signature :=
  match decl with
  | .variant _ name ctors _ => ctors.foldlM (addCtor? name.text decl.params) sig
  | .synonym _ _ _ _ => none

/-- The signature with all variants of a group, whose constructors may take arguments of all of them.
The parameters of a variant have different names. -/
def declare? (sig : Signature) (group : List TypeDecl) : Option Signature := do
  if ∀ decl ∈ group, decl.params.Nodup then
    let sig ← group.foldlM addType? sig
    group.foldlM addCtors? sig
  else none

/-- The signature that every program starts with. -/
def initial : Signature where
  arity? name := if name = "option" then some 1 else none
  ctor? name :=
    if name = "None" then some ⟨"option", 1, []⟩
    else if name = "Some" then some ⟨"option", 1, [.var 0]⟩
    else none

end Signature

/-- The signature that the declarations of a program lead to, if they are in order. -/
def Program.signature? (p : Program) : Option Signature :=
  p.groups.foldlM Signature.declare? .initial

end FieldML
