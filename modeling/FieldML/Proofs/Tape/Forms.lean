import FieldML.Parser.Program
import FieldML.Proofs.Tape.Basic

/-!
# Forms read by index

One function for each form of types, patterns, expressions and declarations. A form that other forms
hold is taken from a grammar, which is what the number of calls inside calls is bounded by.
-/

namespace FieldML.Tape

/-- The forms that occur inside other forms. -/
structure Grammar where
  type : Run TypeExpr
  pattern : Run Pattern
  patternCons : Run Pattern
  expr : Run Expr
  statement : Run Expr
  chain : Nat → Run Expr
  unary : Run Expr
  access : Run Expr
  atom : Run Expr

/-- The grammar without any fuel, which reads nothing. -/
def Grammar.stuck : Grammar :=
  ⟨Tape.stuck, Tape.stuck, Tape.stuck, Tape.stuck, Tape.stuck, fun _ => Tape.stuck, Tape.stuck,
    Tape.stuck, Tape.stuck⟩

variable (G : Grammar)

/-! ### Types -/

/-- One field of a record type. -/
def typeField : Run (Ident × TypeExpr) := do
  let field ← nameOf .ident "a field name"
  let _ ← symbol ":"
  return (field, ← G.type)

/-- A type without an outer constructor, or several types in parentheses. -/
def typeAtom : Run (List TypeExpr) := do
  let token ← peek
  match token.kind with
  | .typeVar => return [.var (← name)]
  | .ident =>
      let name ← name
      return [.named [] name name.range]
  | .symbol =>
      if token.text = "(" then
        let _ ← advance
        let items ← sepBy1 G.type (skipSymbol ",")
        let _ ← symbol ")"
        return items
      else if token.text = "\x7b" then
        let _ ← advance
        let fields ← commaList (typeField G) "\x7d"
        let stop ← symbol "\x7d"
        return [.record fields (token.range.merge stop)]
      else failExpected "a type"
  | _ => failExpected "a type"

/-- A type constructor with its arguments. -/
def typeApp : Run TypeExpr := do
  let args ← counted (fun args => do
    if ← nextIs .ident then
      descend
      let name ← name
      let start := (args.head?.map TypeExpr.range).getD name.range
      return some [.named args name (start.merge name.range)]
    else return none) (← typeAtom G)
  match args with
  | [type] => return type
  | _ => failExpected "a type constructor after type arguments"

/-- A product of one or more types. Its place begins at the item with index zero. -/
def typeProduct : Run TypeExpr := do
  let first ← typeApp G
  if ← nextIsSymbol "*" then
    let items ← loop (fun items => do
      if ← skipSymbol "*" then return some ((← typeApp G) :: items) else return none) [first]
    match items.reverse[0]? with
    | some item => return .product items.reverse (item.range.merge (← previousRange))
    | none => fun _ => .broken
  else return first

/-- A function type or a product. -/
def typeArrow : Run TypeExpr := do
  let param ← typeProduct G
  if ← skipSymbol "->" then
    let result ← G.type
    return .func param result (param.range.merge result.range)
  else return param

/-- A type. -/
def type : Run TypeExpr := nested (typeArrow G)

/-! ### Patterns -/

/-- What follows an opening parenthesis. -/
def patternParens (start : Range) : Run Pattern := do
  if ← nextIsSymbol ")" then
    return .literal .unit (start.merge (← advance).range)
  else
    let first ← G.pattern
    if ← nextIsSymbol "," then
      let items ← loop (fun items => do
        if ← skipSymbol "," then return some ((← G.pattern) :: items) else return none) [first]
      let stop ← symbol ")"
      return .tuple items.reverse (start.merge stop)
    else
      let _ ← symbol ")"
      return first

/-- What follows a minus sign. -/
def patternNegative (start : Range) : Run Pattern := do
  if ← nextIs .number then
    let number ← advance
    let value ← integer ("-" ++ number.text) number.range
    return .literal (.int value) (start.merge number.range)
  else failExpected "an integer after '-' in pattern"

/-- A pattern that can stand beside others. -/
def patternAtom : Run Pattern := do
  let token ← peek
  match token.kind with
  | .ident =>
      let name ← name
      return if name.text = "_" then .wildcard name.range else .var name
  | .constructor =>
      let ctor ← name
      return .construct ctor none ctor.range
  | .number =>
      let _ ← advance
      return .literal (.int (← integer token.text token.range)) token.range
  | .string =>
      let _ ← advance
      return .literal (.string token.text) token.range
  | .keyword =>
      if token.text = "true" ∨ token.text = "false" then
        let _ ← advance
        return .literal (.bool (token.text = "true")) token.range
      else failExpected "a pattern"
  | .symbol =>
      if token.text = "-" then
        let _ ← advance
        patternNegative token.range
      else if token.text = "(" then
        let _ ← advance
        patternParens G token.range
      else if token.text = "[" then
        let _ ← advance
        let items ← commaList G.pattern "]"
        return Parser.listPattern items token.range (← symbol "]")
      else failExpected "a pattern"
  | _ => failExpected "a pattern"

/-- A constructor with its argument, or an atom. -/
def patternCtor : Run Pattern := do
  if ← nextIs .constructor then
    let ctor ← name
    if Parser.startsPatternAtom (← peek) then
      let arg ← patternAtom G
      return .construct ctor (some arg) (ctor.range.merge arg.range)
    else return .construct ctor none ctor.range
  else patternAtom G

/-- A chain of `::`. -/
def patternCons : Run Pattern := do
  let head ← patternCtor G
  if ← skipSymbol "::" then
    let tail ← nested G.patternCons
    return .cons head tail (head.range.merge tail.range)
  else return head

/-- A chain of `::` with a name for the whole. -/
def patternAs : Run Pattern := do
  let pattern ← patternCons G
  if ← skipKeyword "as" then
    let name ← nameOf .ident "a binder name after 'as'"
    return .alias pattern name (pattern.range.merge name.range)
  else return pattern

/-- A pattern. -/
def pattern : Run Pattern := nested (patternAs G)

/-! ### Expressions -/

/-- One field of a record with its value. -/
def recordField : Run (Ident × Expr) := do
  let field ← nameOf .ident "a field name"
  let _ ← symbol "="
  return (field, ← G.statement)

/-- Whether a name and an equals sign are next. -/
def nextIsField : Run Bool := do
  let first ← peek
  let second ← peekAt 1
  return first.kind = .ident && second.any (Token.isWord · .symbol "=")

/-- A record, or a record with some fields changed. -/
def record : Run Expr := do
  let start ← symbol "\x7b"
  if (← nextIsField) || (← nextIsSymbol "\x7d") then
    let fields ← commaList (recordField G) "\x7d"
    return .record fields (start.merge (← symbol "\x7d"))
  else
    let base ← G.access
    let _ ← keyword "with"
    let fields ← commaList (recordField G) "\x7d"
    if fields.isEmpty then failExpected "at least one field in record update"
    else return .update base fields (start.merge (← symbol "\x7d"))

/-- What stands in parentheses. -/
def paren : Run Expr := do
  let start ← symbol "("
  if ← nextIsSymbol ")" then
    return .literal .unit (start.merge (← advance).range)
  else
    let first ← G.expr
    if ← skipSymbol ":" then
      let type ← G.type
      return .annot first type (start.merge (← symbol ")"))
    else if ← nextIsSymbol "," then
      let items ← loop (fun items => do
        if ← skipSymbol "," then return some ((← G.expr) :: items) else return none) [first]
      return .tuple items.reverse (start.merge (← symbol ")"))
    else
      let _ ← symbol ")"
      return first

/-- What stands in brackets. -/
def list : Run Expr := do
  let start ← symbol "["
  let items ← commaList G.expr "]"
  return .list items (start.merge (← symbol "]"))

/-- An expression that can stand beside others. -/
def atom : Run Expr := do
  let token ← peek
  match token.kind with
  | .number =>
      let _ ← advance
      return .literal (.int (← integer token.text token.range)) token.range
  | .string =>
      let _ ← advance
      return .literal (.string token.text) token.range
  | .keyword =>
      if token.text = "true" ∨ token.text = "false" then
        let _ ← advance
        return .literal (.bool (token.text = "true")) token.range
      else failExpected "an expression"
  | .ident =>
      if token.text = "_" then failExpected "an expression" else return .var (← name)
  | .constructor =>
      let ctor ← name
      return .construct ctor none ctor.range
  | .symbol =>
      if token.text = "!" then
        let _ ← advance
        let target ← nested G.atom
        return .deref target (token.range.merge target.range)
      else if token.text = "(" then paren G
      else if token.text = "[" then list G
      else if token.text = "\x7b" then record G
      else failExpected "an expression"
  | _ => failExpected "an expression"

/-- An atom with the fields taken from it. -/
def access : Run Expr := do
  counted (fun base => do
    if ← skipSymbol "." then
      descend
      let field ← nameOf .ident "a field name"
      return some (.field base field (base.range.merge field.range))
    else return none) (← atom G)

/-- A constructor with its argument, or a function with its arguments. -/
def application : Run Expr := do
  if ← nextIs .constructor then
    let ctor ← name
    if Parser.startsAtom (← peek) then
      let arg ← access G
      return .construct ctor (some arg) (ctor.range.merge arg.range)
    else return .construct ctor none ctor.range
  else
    counted (fun func => do
      if Parser.startsAtom (← peek) then
        descend
        let arg ← access G
        return some (.apply func arg (func.range.merge arg.range))
      else return none) (← access G)

/-- An operand. -/
def unary : Run Expr := do
  if ← nextIsSymbol "-" then
    let start := (← advance).range
    if ← nextIs .number then
      let number ← advance
      let value ← integer ("-" ++ number.text) number.range
      return .literal (.int value) (start.merge number.range)
    else
      let operand ← nested G.unary
      return Operator.apply "-" start (.literal (.int 0) start) operand
  else if ← nextIsKeyword "ref" then
    let start := (← advance).range
    let value ← access G
    return .ref value (start.merge value.range)
  else application G

/-- A chain of operators that bind at least as tightly as `least`. -/
def chain (least : Nat) : Run Expr := do
  counted (fun left => do
    match Operator.ofToken? (← peek) with
    | none => return none
    | some op =>
        if op.precedence < least then return none
        else
          descend
          let place := (← advance).range
          let right ← G.chain op.rightPrecedence
          return some (Operator.apply op.text place left right)) (← unary G)

/-- An operator chain, or an assignment to what it denotes. -/
def assignment : Run Expr := do
  let target ← chain G 0
  if ← skipSymbol ":=" then
    let value ← G.statement
    return .assign target value (target.range.merge value.range)
  else return target

/-- The function of these parameters. -/
def lambdas (params : List Pattern) (body : Expr) : Run Expr :=
  params.foldrM (fun param body => do
    let range := param.range.merge body.range
    match param with
    | .var name => return .lambda name body range
    | param =>
        let name ← freshName param.range
        return .lambda name (.caseOf (.var name) [⟨param, body, range⟩] range) range) body

/-- Patterns up to one of some symbols, which is left. -/
def parameters (stops : List String) (params : List Pattern) : Run (List Pattern) := do
  let params ← loop (fun params => do
    let token ← peek
    if stops.any (token.isWord .symbol) then return none
    else return some ((← patternAtom G) :: params)) params.reverse
  return params.reverse

/-- What follows the name in a binding. -/
def bindingValue : Run Expr := do
  let params ← parameters G ["=", ":"] []
  let type? ← if ← skipSymbol ":" then some <$> G.type else pure none
  let _ ← symbol "="
  let value ← G.expr
  match type? with
  | some type => lambdas params (.annot value type value.range)
  | none => lambdas params value

/-- One binding of a recursive group. -/
def recBinding : Run (RecBinding Expr) := do
  let name ← nameOf .ident "a function name"
  let value ← bindingValue G
  return ⟨name, value, name.range.merge value.range⟩

/-- A `let` form. -/
def letForm : Run Expr := do
  let start ← keyword "let"
  if ← skipKeyword "rec" then
    let bindings ← sepBy1 (recBinding G) (skipKeyword "and")
    let _ ← keyword "in"
    let body ← G.expr
    return .letRec bindings body (start.merge body.range)
  else
    match ← pattern G with
    | .var name =>
        let value ← bindingValue G
        let _ ← keyword "in"
        let body ← G.expr
        return .letIn name value body (start.merge body.range)
    | pattern =>
        let _ ← symbol "="
        let value ← G.expr
        let _ ← keyword "in"
        let body ← G.expr
        return .caseOf value [⟨pattern, body, pattern.range.merge body.range⟩]
          (start.merge body.range)

/-- A `fun` form. -/
def funForm : Run Expr := do
  let start ← keyword "fun"
  let first ← patternAtom G
  let params ← parameters G ["->"] [first]
  let _ ← symbol "->"
  match ← lambdas params (← G.expr) with
  | .lambda param body range => return .lambda param body (start.merge range)
  | other => return other

/-- An `if` form. -/
def ifForm : Run Expr := do
  let start ← keyword "if"
  let cond ← G.expr
  let _ ← keyword "then"
  let yes ← G.statement
  let _ ← keyword "else"
  let no ← G.statement
  return .ifElse cond yes no (start.merge no.range)

/-- One arm of a match. -/
def matchArm : Run (MatchArm Expr) := do
  let pattern ← pattern G
  let _ ← symbol "->"
  let body ← G.statement
  return ⟨pattern, body, pattern.range.merge body.range⟩

/-- A `match` form. -/
def matchForm : Run Expr := do
  let start ← keyword "match"
  let scrutinee ← G.expr
  let _ ← keyword "with"
  let _ ← skipSymbol "|"
  let arms ← sepBy1 (matchArm G) (skipSymbol "|")
  return .caseOf scrutinee arms (start.merge (← previousRange))

/-- A form that begins with a keyword, or an assignment. -/
def statementForm : Run Expr := do
  if ← nextIsKeyword "let" then letForm G
  else if ← nextIsKeyword "fun" then funForm G
  else if ← nextIsKeyword "if" then ifForm G
  else if ← nextIsKeyword "match" then matchForm G
  else assignment G

/-- A statement. -/
def statement : Run Expr := nested (statementForm G)

/-- Statements with semicolons between them. -/
def expr : Run Expr := do
  let first ← statement G
  let (last, earlier) ← loop (fun (last, earlier) => do
    if ← skipSymbol ";" then
      if Parser.maxNesting ≤ earlier.length + 1 then failHere .nestedTooDeeply
      else return some ((← statement G), last :: earlier)
    else return none) (first, [])
  return earlier.foldl (fun rest first => .sequence first rest (first.range.merge rest.range)) last

/-! ### Programs -/

/-- The grammar whose forms hold those of `G`. -/
def Grammar.unfold : Grammar where
  type := Tape.type G
  pattern := Tape.pattern G
  patternCons := Tape.patternCons G
  expr := Tape.expr G
  statement := Tape.statement G
  chain := Tape.chain G
  unary := Tape.unary G
  access := Tape.access G
  atom := Tape.atom G

/-- The grammar for fewer than `n` calls inside calls. -/
def grammar (n : Nat) : Grammar := Nat.repeat Grammar.unfold n .stuck

/-- Whether an opening parenthesis and a type variable are next. -/
def nextIsParams : Run Bool := do
  let first ← peek
  let second ← peekAt 1
  return first.isWord .symbol "(" && second.any (·.kind = .typeVar)

/-- The parameters of a declared type. -/
def typeParams : Run (List Ident) := do
  if ← nextIs .typeVar then return [← name]
  else
    if ← nextIsParams then
      let _ ← advance
      let params ← sepBy1 (nameOf .typeVar "a type parameter") (skipSymbol ",")
      let _ ← symbol ")"
      return params
    else return []

/-- A constructor of a declared variant. -/
def ctorDecl : Run CtorDecl := do
  let name ← nameOf .constructor "a constructor name"
  let args ← if ← skipKeyword "of" then sepBy1 (typeApp G) (skipSymbol "*") else pure []
  return ⟨name, args, name.range.merge (← previousRange)⟩

/-- A declaration of a variant or a synonym. -/
def typeDecl : Run TypeDecl := do
  let start := (← peek).range
  let params ← typeParams
  let name ← nameOf .ident "a type name"
  let _ ← symbol "="
  if (← nextIsSymbol "|") || (← nextIs .constructor) then
    let _ ← skipSymbol "|"
    let ctors ← sepBy1 (ctorDecl G) (skipSymbol "|")
    return .variant params name ctors (start.merge (← previousRange))
  else
    let body ← type G
    return .synonym params name body (start.merge body.range)

/-- A group of declarations after its keyword. -/
def typeGroup : Run (List TypeDecl) := do
  let group ← sepBy1 (typeDecl G) (skipKeyword "and")
  let _ ← keyword "in"
  return group

/-- The groups of declarations, then the expression. -/
def program : Run Program := do
  let groups ← loop (fun groups => do
    if ← skipKeyword "type" then return some ((← typeGroup G) :: groups) else return none) []
  return ⟨groups.reverse, ← expr G⟩

/-- A program and nothing after it, whose trees are not too deep. -/
def wholeProgram : Run Program := do
  let program ← program G
  if ← nextIs .eof then
    if Parser.maxNesting < program.nestingDepth then
      fail ⟨.deeperThan Parser.maxNesting, program.body.range⟩
    else return program
  else failHere .leftOver

/-- Reads the tokens as a program. -/
def run (tokens : List Token) : Outcome Program :=
  let start := ofTokens tokens
  wholeProgram (grammar (start.left + 1)) start

end FieldML.Tape
