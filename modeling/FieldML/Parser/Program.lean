import FieldML.Parser.Expr
import FieldML.Syntax.Nesting

/-!
# Reading programs

The recursive forms are tied together by as many unfoldings of the grammar as there are tokens. A
program that was read is refused if its trees are too deep for the stages that follow.
-/

namespace FieldML.Parser

/-- The grammar whose forms hold those of `g`. -/
def Grammar.unfold (g : Grammar) : Grammar where
  type := Parser.type g
  pattern := Parser.pattern g
  patternCons := Parser.patternCons g
  expr := Parser.expr g
  statement := Parser.statement g
  chain := Parser.chain g
  unary := Parser.unary g
  access := Parser.access g
  atom := Parser.atom g

/-- The grammar that is enough for fewer than `n` tokens. -/
def grammar (n : Nat) : Grammar := Nat.repeat Grammar.unfold n .stuck

/-- The parameters of a declared type. -/
def typeParams : Parser (List Ident) := do
  if ← nextIs .typeVar then return [← name]
  else
    let several : Bool := match (← get).rest with
      | first :: second :: _ => first.isWord .symbol "(" && second.kind = .typeVar
      | _ => false
    if several then
      let _ ← advance
      let params ← sepBy1 (nameOf .typeVar "a type parameter") (skipSymbol ",")
      let _ ← symbol ")"
      return params
    else return []

variable (g : Grammar)

/-- A constructor of a declared variant. -/
def ctorDecl : Parser CtorDecl := do
  let name ← nameOf .constructor "a constructor name"
  let args ← if ← skipKeyword "of" then sepBy1 (typeApp g) (skipSymbol "*") else pure []
  return ⟨name, args, name.range.merge (← previousRange)⟩

/-- A declaration of a variant or a synonym, which a constructor tells apart. -/
def typeDecl : Parser TypeDecl := do
  let start := (← peek).range
  let params ← typeParams
  let name ← nameOf .ident "a type name"
  let _ ← symbol "="
  if (← nextIsSymbol "|") || (← nextIs .constructor) then
    let _ ← skipSymbol "|"
    let ctors ← sepBy1 (ctorDecl g) (skipSymbol "|")
    return .variant params name ctors (start.merge (← previousRange))
  else
    let body ← type g
    return .synonym params name body (start.merge body.range)

/-- A group of declarations after its keyword. -/
def typeGroup : Parser (List TypeDecl) := do
  let group ← sepBy1 (typeDecl g) (skipKeyword "and")
  let _ ← keyword "in"
  return group

/-- The groups of declarations, then the expression. -/
def program : Parser Program := do
  let groups ← loop (fun groups => do
    if ← skipKeyword "type" then return some ((← typeGroup g) :: groups) else return none) []
  return ⟨groups.reverse, ← expr g⟩

/-- A program and nothing after it. -/
def wholeProgram : Parser Program := do
  let program ← program g
  if ← nextIs .eof then return program else failHere .leftOver

end FieldML.Parser

namespace FieldML


/-- The program that some tokens are. -/
def Program.ofTokens (tokens : List Token) : Except ParseError Program := do
  let start := Cursor.ofTokens tokens
  let (program, _) ← Parser.wholeProgram (Parser.grammar (start.rest.length + 1)) start
  if Parser.maxNesting < program.nestingDepth then
    throw ⟨.deeperThan Parser.maxNesting, program.body.range⟩
  return program

end FieldML
