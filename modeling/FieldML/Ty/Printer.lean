import FieldML.Ty

/-!
# Types as text

Variables are named in the order in which a printer meets them, so several types that are printed
one after the other share their names. Arrows bind weakest, then products, then type constructors,
which follow their arguments.
-/

namespace FieldML

/-- The variables named so far, in order. -/
abbrev TypeNames := List TypeVar

/-- A text that depends on the variables named before. -/
abbrev Printer := StateM TypeNames String

/-- How tightly the place binds that a type is printed in. -/
inductive TypeLevel where
  | arrow
  | product
  | applied
  deriving DecidableEq, Repr

namespace TypeNames

/-- The name with this number: the letters in turn, then the letters with a count. -/
def nameOf (index : Nat) : String :=
  let letter := Char.ofNat ('a'.toNat + index % 26)
  if index < 26 then s!"'{letter}" else s!"'{letter}{index / 26}"

/-- The name of a variable, which is a new one if it has none yet. -/
def nameFor (v : TypeVar) : Printer := fun names =>
  match names.idxOf? v with
  | some index => (nameOf index, names)
  | none => (nameOf names.length, names ++ [v])

end TypeNames

/-- The name of a base type. -/
def BaseTy.name : BaseTy → String
  | unit => "unit"
  | bool => "bool"
  | int => "int"
  | string => "string"

/-- The text, in parentheses if the place binds more tightly than the text does. -/
def TypeLevel.wrap (place own : TypeLevel) (text : String) : String :=
  match place, own with
  | .arrow, _ | .product, .product | .product, .applied | .applied, .applied => text
  | .product, .arrow | .applied, .arrow | .applied, .product => s!"({text})"

/-- Some texts with commas between them. -/
def commas (texts : List String) : String := ", ".intercalate texts

/-- The text of some fields in braces. -/
def braces (texts : List String) : String := "\x7b" ++ commas texts ++ "\x7d"

mutual

/-- The text of a type in a place of this level. -/
def Ty.print (place : TypeLevel) : Ty → Printer
  | .base b _ => return b.name
  | .var v _ => TypeNames.nameFor v
  | .func p q _ => do
      let param ← p.print .product
      let result ← q.print .arrow
      return place.wrap .arrow s!"{param} -> {result}"
  | .list t _ => return (← t.print .applied) ++ " list"
  | .ref t _ => return (← t.print .applied) ++ " ref"
  | .product ts _ => return place.wrap .product (" * ".intercalate (← Ty.printList .applied ts))
  | .variant n ts _ => Ty.printApplied n ts
  | .synonym n ts _ _ => Ty.printApplied n ts
  | .all v k t _ => do
      let name ← TypeNames.nameFor v
      let binder ← k.printBinder name
      let body ← t.print .arrow
      return place.wrap .arrow s!"forall {binder}. {body}"
  | .record fs _ => return braces (← Ty.printFields fs)

/-- The text of a type constructor with its arguments. -/
def Ty.printApplied (name : String) : List Ty → Printer
  | [] => return name
  | [t] => return (← t.print .applied) ++ " " ++ name
  | t :: ts => do
      let first ← t.print .arrow
      let others ← Ty.printList .arrow ts
      return "(" ++ commas (first :: others) ++ ") " ++ name

/-- The text of a variable where it is quantified. -/
def Kind.printBinder (name : String) : Kind → Printer
  | .universal => return name
  | .record fs => return "(" ++ name ++ " :: " ++ braces (← Ty.printFields fs) ++ ")"

/-- The texts of some types. -/
def Ty.printList (place : TypeLevel) : List Ty → StateM TypeNames (List String)
  | [] => return []
  | t :: ts => do
      let text ← t.print place
      return text :: (← Ty.printList place ts)

/-- The texts of some fields. -/
def Ty.printFields : List (String × Ty) → StateM TypeNames (List String)
  | [] => return []
  | (n, t) :: fs => do
      let text ← t.print .arrow
      return s!"{n} : {text}" :: (← Ty.printFields fs)

end

/-- The text of a kind. -/
def Kind.print : Kind → Printer
  | .universal => return "(universal)"
  | .record fs => return braces (← Ty.printFields fs)

/-- The text of a type on its own. -/
def Ty.text (t : Ty) : String := (t.print .arrow []).1

/-- The text of a kind on its own. -/
def Kind.text (k : Kind) : String := (k.print []).1

end FieldML
