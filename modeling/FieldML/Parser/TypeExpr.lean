import FieldML.Parser.Basic

/-!
# Reading types

A function arrow binds weakest and to the right, then products, then type constructors, which are
written after their arguments.
-/

namespace FieldML.Parser

variable (g : Grammar)

/-- One field of a record type. -/
def typeField : Parser (Ident × TypeExpr) := do
  let field ← nameOf .ident "a field name"
  let _ ← symbol ":"
  return (field, ← g.type)

/-- A type without an outer constructor. Parentheses may hold several types, which then are the
arguments of a constructor that has to follow. -/
def typeAtom : Parser (List TypeExpr) := do
  let token ← peek
  match token.kind with
  | .typeVar => return [.var (← name)]
  | .ident =>
      let name ← name
      return [.named [] name name.range]
  | .symbol =>
      if token.text = "(" then
        let _ ← advance
        let items ← sepBy1 g.type (skipSymbol ",")
        let _ ← symbol ")"
        return items
      else if token.text = "\x7b" then
        let _ ← advance
        let fields ← commaList (typeField g) "\x7d"
        let stop ← symbol "\x7d"
        return [.record fields (token.range.merge stop)]
      else failExpected "a type"
  | _ => failExpected "a type"

/-- The constructors after some type arguments. -/
def typeApplications (args : List TypeExpr) : Parser (List TypeExpr) :=
  closing do
    loop (fun args => do
      if ← nextIs .ident then
        descend
        let name ← name
        let start := (args.head?.map TypeExpr.range).getD name.range
        return some [.named args name (start.merge name.range)]
      else return none) args

/-- A type constructor with its arguments. -/
def typeApp : Parser TypeExpr := do
  match ← typeApplications (← typeAtom g) with
  | [type] => return type
  | _ => failExpected "a type constructor after type arguments"

/-- A product of one or more types. -/
def typeProduct : Parser TypeExpr := do
  let first ← typeApp g
  if ← nextIsSymbol "*" then
    let items ← loop (fun items => do
      if ← skipSymbol "*" then return some ((← typeApp g) :: items) else return none) [first]
    return .product items.reverse (first.range.merge (← previousRange))
  else return first

/-- A type. -/
def type : Parser TypeExpr := nested do
  let param ← typeProduct g
  if ← skipSymbol "->" then
    let result ← g.type
    return .func param result (param.range.merge result.range)
  else return param

end FieldML.Parser
