import FieldML.Syntax
import FieldML.Ty

/-!
# Elaborated programs

What checking a program yields and evaluation takes: the shapes of the surface syntax without its
ranges, with types where variables are bound. A constructor comes with all of its arguments.
-/

namespace FieldML

/-- The shape that an arm of a match asks for. -/
inductive CorePattern where
  | wildcard
  | var (name : String)
  | literal (value : Literal)
  | tuple (items : List CorePattern)
  | nil
  | cons (head tail : CorePattern)
  | construct (ctor : String) (args : List CorePattern)
  | alias (pattern : CorePattern) (name : String)
  deriving Repr, Inhabited

/-- One binding of a recursive group. -/
structure CoreBinding (ε : Type) where
  name : String
  type : Ty
  value : ε

/-- One arm of a match. -/
structure CoreArm (ε : Type) where
  pattern : CorePattern
  body : ε

/-- An elaborated expression. -/
inductive Core where
  | literal (value : Literal)
  | var (name : String)
  | lambda (param : String) (type : Ty) (body : Core)
  | apply (func arg : Core)
  | letIn (name : String) (type : Ty) (value body : Core)
  | letRec (bindings : List (CoreBinding Core)) (body : Core)
  | ifElse (cond yes no : Core)
  | list (items : List Core)
  | tuple (items : List Core)
  | record (fields : List (String × Core))
  | field (base : Core) (name : String)
  | update (base : Core) (fields : List (String × Core))
  | construct (ctor : String) (args : List Core)
  | caseOf (scrutinee : Core) (type : Ty) (arms : List (CoreArm Core))
  | ref (value : Core)
  | deref (target : Core)
  | assign (target value : Core)
  | sequence (first second : Core)
  | annot (body : Core) (type : Ty)
  deriving Inhabited

mutual

/-- The expression with another type in place of each type in it. -/
def Core.mapTypes (f : Ty → Ty) : Core → Core
  | .literal v => .literal v
  | .var x => .var x
  | .lambda x t e => .lambda x (f t) (e.mapTypes f)
  | .apply a b => .apply (a.mapTypes f) (b.mapTypes f)
  | .letIn x t a b => .letIn x (f t) (a.mapTypes f) (b.mapTypes f)
  | .letRec bs e => .letRec (Core.mapTypesBindings f bs) (e.mapTypes f)
  | .ifElse a b c => .ifElse (a.mapTypes f) (b.mapTypes f) (c.mapTypes f)
  | .list es => .list (Core.mapTypesList f es)
  | .tuple es => .tuple (Core.mapTypesList f es)
  | .record fs => .record (Core.mapTypesFields f fs)
  | .field e x => .field (e.mapTypes f) x
  | .update e fs => .update (e.mapTypes f) (Core.mapTypesFields f fs)
  | .construct c es => .construct c (Core.mapTypesList f es)
  | .caseOf e t arms => .caseOf (e.mapTypes f) (f t) (Core.mapTypesArms f arms)
  | .ref e => .ref (e.mapTypes f)
  | .deref e => .deref (e.mapTypes f)
  | .assign a b => .assign (a.mapTypes f) (b.mapTypes f)
  | .sequence a b => .sequence (a.mapTypes f) (b.mapTypes f)
  | .annot e t => .annot (e.mapTypes f) (f t)

/-- Some expressions with other types. -/
def Core.mapTypesList (f : Ty → Ty) : List Core → List Core
  | [] => []
  | e :: es => e.mapTypes f :: Core.mapTypesList f es

/-- Some fields with other types. -/
def Core.mapTypesFields (f : Ty → Ty) : List (String × Core) → List (String × Core)
  | [] => []
  | (x, e) :: fs => (x, e.mapTypes f) :: Core.mapTypesFields f fs

/-- Some bindings with other types. -/
def Core.mapTypesBindings (f : Ty → Ty) : List (CoreBinding Core) → List (CoreBinding Core)
  | [] => []
  | ⟨x, t, e⟩ :: bs => ⟨x, f t, e.mapTypes f⟩ :: Core.mapTypesBindings f bs

/-- Some arms with other types. -/
def Core.mapTypesArms (f : Ty → Ty) : List (CoreArm Core) → List (CoreArm Core)
  | [] => []
  | ⟨p, e⟩ :: arms => ⟨p, e.mapTypes f⟩ :: Core.mapTypesArms f arms

end

end FieldML
