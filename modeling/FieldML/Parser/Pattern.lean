import FieldML.Parser.Basic

/-!
# Reading patterns

A name after `as` binds weakest, then `::` to the right, then a constructor with its argument. A
bracketed list of patterns stands for a chain of `::`.
-/

namespace FieldML.Parser

variable (g : Grammar)

/-- The chain of cells for a list of patterns that is written between two brackets. -/
def listPattern (items : List Pattern) (start stop : Range) : Pattern :=
  if items.isEmpty then .nil (start.merge stop)
  else items.foldr (fun head tail => .cons head tail (head.range.merge stop)) (.nil stop)

/-- What follows an opening parenthesis: nothing, one pattern or a tuple. -/
def patternParens (start : Range) : Parser Pattern := do
  if ← nextIsSymbol ")" then
    return .literal .unit (start.merge (← advance).range)
  else
    let first ← g.pattern
    if ← nextIsSymbol "," then
      let items ← loop (fun items => do
        if ← skipSymbol "," then return some ((← g.pattern) :: items) else return none) [first]
      let stop ← symbol ")"
      return .tuple items.reverse (start.merge stop)
    else
      let _ ← symbol ")"
      return first

/-- What follows a minus sign. -/
def patternNegative (start : Range) : Parser Pattern := do
  if ← nextIs .number then
    let number ← advance
    let value ← integer ("-" ++ number.text) number.range
    return .literal (.int value) (start.merge number.range)
  else failExpected "an integer after '-' in pattern"

/-- A pattern that can stand beside others. -/
def patternAtom : Parser Pattern := do
  let token ← peek
  match token.kind with
  | .ident =>
      let name ← name
      return if name.text = "_" then .wildcard name.range else .var name
  | .constructor =>
      let ctor ← name
      return .construct ctor none ctor.range
  | .number =>
      let _ ← advance
      return .literal (.int (← integer token.text token.range)) token.range
  | .string =>
      let _ ← advance
      return .literal (.string token.text) token.range
  | .keyword =>
      if token.text = "true" ∨ token.text = "false" then
        let _ ← advance
        return .literal (.bool (token.text = "true")) token.range
      else failExpected "a pattern"
  | .symbol =>
      if token.text = "-" then
        let _ ← advance
        patternNegative token.range
      else if token.text = "(" then
        let _ ← advance
        patternParens g token.range
      else if token.text = "[" then
        let _ ← advance
        let items ← commaList g.pattern "]"
        return listPattern items token.range (← symbol "]")
      else failExpected "a pattern"
  | _ => failExpected "a pattern"

/-- Whether the token can begin an argument of a constructor pattern. -/
def startsPatternAtom (token : Token) : Bool :=
  match token.kind with
  | .number | .string | .ident | .constructor => true
  | .keyword => token.text = "true" || token.text = "false"
  | .symbol => token.text = "(" || token.text = "[" || token.text = "-"
  | _ => false

/-- A constructor with its argument, or an atom. -/
def patternCtor : Parser Pattern := do
  if ← nextIs .constructor then
    let ctor ← name
    if startsPatternAtom (← peek) then
      let arg ← patternAtom g
      return .construct ctor (some arg) (ctor.range.merge arg.range)
    else return .construct ctor none ctor.range
  else patternAtom g

/-- A chain of `::`. -/
def patternCons : Parser Pattern := do
  let head ← patternCtor g
  if ← skipSymbol "::" then
    let tail ← nested g.patternCons
    return .cons head tail (head.range.merge tail.range)
  else return head

/-- A pattern. -/
def pattern : Parser Pattern := nested do
  let pattern ← patternCons g
  if ← skipKeyword "as" then
    let name ← nameOf .ident "a binder name after 'as'"
    return .alias pattern name (pattern.range.merge name.range)
  else return pattern

end FieldML.Parser
