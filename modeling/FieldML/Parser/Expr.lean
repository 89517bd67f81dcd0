import FieldML.Parser.Operator
import FieldML.Parser.Pattern
import FieldML.Parser.TypeExpr

/-!
# Reading expressions

Statements with semicolons between them bind weakest, then assignment, operator chains, application
and field access. A function of several parameters is a chain of functions of one, and a parameter
that is not a name is matched in the body.
-/

namespace FieldML.Parser

variable (g : Grammar)

/-- Whether the token can begin an argument of an application. -/
def startsAtom (token : Token) : Bool :=
  match token.kind with
  | .number | .string | .constructor => true
  | .ident => token.text ≠ "_"
  | .keyword => token.text = "true" || token.text = "false"
  | .symbol => token.text = "(" || token.text = "[" || token.text = "\x7b" || token.text = "!"
  | _ => false

/-- One field of a record with its value. -/
def recordField (statement : Parser Expr) : Parser (Ident × Expr) := do
  let field ← nameOf .ident "a field name"
  let _ ← symbol "="
  return (field, ← statement)

/-- What follows an opening brace: the fields of a record, or a record and its changed fields. -/
def recordForm (start : Range) : Parser Expr := do
  let isField : Bool := match (← get).rest with
    | first :: second :: _ => first.kind = .ident && second.isWord .symbol "="
    | _ => false
  if isField || (← nextIsSymbol "\x7d") then
    let fields ← commaList (recordField g.statement) "\x7d"
    return .record fields (start.merge (← symbol "\x7d"))
  else
    let base ← g.access
    let _ ← keyword "with"
    let fields ← commaList (recordField g.statement) "\x7d"
    if fields.isEmpty then failExpected "at least one field in record update"
    else return .update base fields (start.merge (← symbol "\x7d"))

/-- What follows an opening parenthesis: nothing, an expression, an expression with its type, or a
tuple. -/
def parenForm (start : Range) : Parser Expr := do
  if ← nextIsSymbol ")" then
    return .literal .unit (start.merge (← advance).range)
  else
    let first ← g.expr
    if ← skipSymbol ":" then
      let type ← g.type
      return .annot first type (start.merge (← symbol ")"))
    else if ← nextIsSymbol "," then
      let items ← loop (fun items => do
        if ← skipSymbol "," then return some ((← g.expr) :: items) else return none) [first]
      return .tuple items.reverse (start.merge (← symbol ")"))
    else
      let _ ← symbol ")"
      return first

/-- An expression that can stand beside others. -/
def atom : Parser Expr := do
  let token ← peek
  match token.kind with
  | .number =>
      let _ ← advance
      return .literal (.int (← integer token.text token.range)) token.range
  | .string =>
      let _ ← advance
      return .literal (.string token.text) token.range
  | .keyword =>
      if token.text = "true" ∨ token.text = "false" then
        let _ ← advance
        return .literal (.bool (token.text = "true")) token.range
      else failExpected "an expression"
  | .ident =>
      if token.text = "_" then failExpected "an expression" else return .var (← name)
  | .constructor =>
      let ctor ← name
      return .construct ctor none ctor.range
  | .symbol =>
      if token.text = "!" then
        let _ ← advance
        let target ← nested g.atom
        return .deref target (token.range.merge target.range)
      else if token.text = "(" then
        let _ ← advance
        parenForm g token.range
      else if token.text = "[" then
        let _ ← advance
        let items ← commaList g.expr "]"
        return .list items (token.range.merge (← symbol "]"))
      else if token.text = "\x7b" then
        let _ ← advance
        recordForm g token.range
      else failExpected "an expression"
  | _ => failExpected "an expression"

/-- An atom with the fields taken from it. -/
def access : Parser Expr := closing do
  loop (fun base => do
    if ← skipSymbol "." then
      descend
      let field ← nameOf .ident "a field name"
      return some (.field base field (base.range.merge field.range))
    else return none) (← atom g)

/-- A constructor with its argument, or a function with its arguments. -/
def application : Parser Expr := do
  if ← nextIs .constructor then
    let ctor ← name
    if startsAtom (← peek) then
      let arg ← access g
      return .construct ctor (some arg) (ctor.range.merge arg.range)
    else return .construct ctor none ctor.range
  else
    closing do
      loop (fun func => do
        if startsAtom (← peek) then
          descend
          let arg ← access g
          return some (.apply func arg (func.range.merge arg.range))
        else return none) (← access g)

/-- An operand: a negation, a new reference or an application. -/
def unary : Parser Expr := do
  if ← nextIsSymbol "-" then
    let start := (← advance).range
    if ← nextIs .number then
      let number ← advance
      let value ← integer ("-" ++ number.text) number.range
      return .literal (.int value) (start.merge number.range)
    else
      let operand ← nested g.unary
      return Operator.apply "-" start (.literal (.int 0) start) operand
  else if ← nextIsKeyword "ref" then
    let start := (← advance).range
    let value ← access g
    return .ref value (start.merge value.range)
  else application g

/-- A chain of operators that bind at least as tightly as `least`. -/
def chain (least : Nat) : Parser Expr := closing do
  loop (fun left => do
    match Operator.ofToken? (← peek) with
    | none => return none
    | some op =>
        if op.precedence < least then return none
        else
          descend
          let place := (← advance).range
          let right ← g.chain op.rightPrecedence
          return some (Operator.apply op.text place left right)) (← unary g)

/-- An operator chain, or an assignment to what it denotes. -/
def assignment : Parser Expr := do
  let target ← chain g 0
  if ← skipSymbol ":=" then
    let value ← g.statement
    return .assign target value (target.range.merge value.range)
  else return target

/-- The function of these parameters. -/
def lambdas (params : List Pattern) (body : Expr) : Parser Expr :=
  params.foldrM (fun param body => do
    let range := param.range.merge body.range
    match param with
    | .var name => return .lambda name body range
    | param =>
        let name ← freshName param.range
        return .lambda name (.caseOf (.var name) [⟨param, body, range⟩] range) range) body

/-- Patterns up to one of some symbols, which is left. -/
def parameters (stops : List String) (params : List Pattern) : Parser (List Pattern) := do
  let params ← loop (fun params => do
    let token ← peek
    if stops.any (token.isWord .symbol) then return none
    else return some ((← patternAtom g) :: params)) params.reverse
  return params.reverse

/-- What follows the name in a binding: parameters, a type, and the value. -/
def bindingValue : Parser Expr := do
  let params ← parameters g ["=", ":"] []
  let type? ← if ← skipSymbol ":" then some <$> g.type else pure none
  let _ ← symbol "="
  let value ← g.expr
  match type? with
  | some type => lambdas params (.annot value type value.range)
  | none => lambdas params value

/-- One binding of a recursive group. -/
def recBinding : Parser (RecBinding Expr) := do
  let name ← nameOf .ident "a function name"
  let value ← bindingValue g
  return ⟨name, value, name.range.merge value.range⟩

/-- A `let` form. A pattern in place of the name makes it a match of one arm. -/
def letForm (start : Range) : Parser Expr := do
  if ← skipKeyword "rec" then
    let bindings ← sepBy1 (recBinding g) (skipKeyword "and")
    let _ ← keyword "in"
    let body ← g.expr
    return .letRec bindings body (start.merge body.range)
  else
    match ← pattern g with
    | .var name =>
        let value ← bindingValue g
        let _ ← keyword "in"
        let body ← g.expr
        return .letIn name value body (start.merge body.range)
    | pattern =>
        let _ ← symbol "="
        let value ← g.expr
        let _ ← keyword "in"
        let body ← g.expr
        return .caseOf value [⟨pattern, body, pattern.range.merge body.range⟩]
          (start.merge body.range)

/-- A `fun` form. -/
def funForm (start : Range) : Parser Expr := do
  let first ← patternAtom g
  let params ← parameters g ["->"] [first]
  let _ ← symbol "->"
  match ← lambdas params (← g.expr) with
  | .lambda param body range => return .lambda param body (start.merge range)
  | other => return other

/-- An `if` form. -/
def ifForm (start : Range) : Parser Expr := do
  let cond ← g.expr
  let _ ← keyword "then"
  let yes ← g.statement
  let _ ← keyword "else"
  let no ← g.statement
  return .ifElse cond yes no (start.merge no.range)

/-- One arm of a match. -/
def matchArm : Parser (MatchArm Expr) := do
  let pattern ← pattern g
  let _ ← symbol "->"
  let body ← g.statement
  return ⟨pattern, body, pattern.range.merge body.range⟩

/-- A `match` form. -/
def matchForm (start : Range) : Parser Expr := do
  let scrutinee ← g.expr
  let _ ← keyword "with"
  let _ ← skipSymbol "|"
  let arms ← sepBy1 (matchArm g) (skipSymbol "|")
  return .caseOf scrutinee arms (start.merge (← previousRange))

/-- A statement. -/
def statement : Parser Expr := nested do
  if ← nextIsKeyword "let" then letForm g (← advance).range
  else if ← nextIsKeyword "fun" then funForm g (← advance).range
  else if ← nextIsKeyword "if" then ifForm g (← advance).range
  else if ← nextIsKeyword "match" then matchForm g (← advance).range
  else assignment g

/-- Statements with semicolons between them. -/
def expr : Parser Expr := do
  let first ← statement g
  let (last, earlier) ← loop (fun (last, earlier) => do
    if ← skipSymbol ";" then
      if maxNesting ≤ earlier.length + 1 then failHere .nestedTooDeeply
      else return some ((← statement g), last :: earlier)
    else return none) (first, [])
  return earlier.foldl (fun rest first => .sequence first rest (first.range.merge rest.range)) last

end FieldML.Parser
