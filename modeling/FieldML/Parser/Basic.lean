import FieldML.Syntax
import FieldML.Text.Decimal
import FieldML.Token

/-!
# Parsers over tokens

A parser reads the tokens before the end mark from the left. Beside them it keeps the place of the
token read last, the number of parameter names made up so far, and the nesting of the form it is in.
-/

namespace FieldML

/-- Why some tokens are no program. Most faults name the token that was found instead, with nothing
for the end of the program. -/
inductive ParseError.Cause where
  | expected (what : String) (found : Option String)
  | nestedTooDeeply (found : Option String)
  | leftOver (found : Option String)
  | deeperThan (levels : Nat)
  | integerOutOfRange
  /-- The parser was given too little fuel, which a whole parse never is. -/
  | outOfFuel
  deriving DecidableEq, Repr

/-- A fault in the form of a program, and where it is. -/
structure ParseError where
  cause : ParseError.Cause
  range : Range
  deriving DecidableEq, Repr

namespace ParseError

/-- The token that stands in the way, in words. -/
def describeFound : Option String → String
  | some text => s!"found '{text}'"
  | none => "found end of input"

/-- The fault in words. -/
def Cause.message : Cause → String
  | expected what found => s!"expected {what}, {describeFound found}"
  | nestedTooDeeply found => s!"program is nested too deeply, {describeFound found}"
  | leftOver found => s!"unexpected token after end of program, {describeFound found}"
  | deeperThan levels => s!"program is nested more than {levels} levels deep"
  | integerOutOfRange => "integer literal is out of range"
  | outOfFuel => "out of fuel"

/-- The fault in words, with its place. -/
def message (e : ParseError) : String := s!"{e.cause.message} at {e.range.text}"

end ParseError

/-- How far a parser has come. -/
structure Cursor where
  /-- The tokens to read, without the end mark. -/
  rest : List Token
  /-- Where the end mark is. -/
  stop : Range
  /-- Where the token read last is. -/
  previous : Range
  /-- How many parameter names were made up. -/
  fresh : Nat
  /-- How many nested forms are open. -/
  depth : Nat
  deriving Repr

/-- A way to read something from the tokens. -/
abbrev Parser := StateT Cursor (Except ParseError)

namespace Cursor

/-- The token to read next, which may be the end mark. -/
def peek (s : Cursor) : Token := s.rest.headD ⟨.eof, "", s.stop⟩

/-- The text of the token to read next, unless that is the end mark. -/
def found (s : Cursor) : Option String := s.rest.head?.map Token.text

/-- The state after the next token; the end mark is never passed. -/
def advance (s : Cursor) : Cursor :=
  match s.rest with
  | [] => s
  | t :: rest => { s with rest := rest, previous := t.range }

/-- The start of some tokens. They end at the first end mark; without one, an end mark is put at the
place of the last token. -/
def ofTokens (tokens : List Token) : Cursor :=
  let isWord (t : Token) : Bool := t.kind ≠ .eof
  let stop := match tokens.find? (fun t => t.kind = .eof), tokens.getLast? with
    | some t, _ => t.range
    | none, some t => t.range
    | none, none => .erased
  ⟨tokens.takeWhile isWord, stop, stop, 0, 0⟩

end Cursor

namespace Parser

/-- The deepest nesting that is read. -/
def maxNesting : Nat := 1000

/-- The token to read next. -/
def peek : Parser Token := return (← get).peek

/-- Reads the next token. -/
def advance : Parser Token := fun s => .ok (s.peek, s.advance)

/-- Where the token read last is. -/
def previousRange : Parser Range := return (← get).previous

/-- Fails at the next token. -/
def failHere {α : Type} (cause : Option String → ParseError.Cause) : Parser α :=
  fun s => .error ⟨cause s.found, s.peek.range⟩

/-- Fails at the next token, in place of which something else was expected. -/
def failExpected {α : Type} (what : String) : Parser α := failHere (.expected what)

/-- Whether the next token is of this sort. -/
def nextIs (kind : TokenKind) : Parser Bool := return (← peek).kind = kind

/-- Whether the next token is this symbol. -/
def nextIsSymbol (symbol : String) : Parser Bool := return (← peek).isWord .symbol symbol

/-- Whether the next token is this keyword. -/
def nextIsKeyword (keyword : String) : Parser Bool := return (← peek).isWord .keyword keyword

/-- Reads this symbol if it is next. -/
def skipSymbol (symbol : String) : Parser Bool := do
  if ← nextIsSymbol symbol then
    let _ ← advance
    return true
  else return false

/-- Reads this keyword if it is next. -/
def skipKeyword (keyword : String) : Parser Bool := do
  if ← nextIsKeyword keyword then
    let _ ← advance
    return true
  else return false

/-- Reads this symbol and returns its place. -/
def symbol (text : String) : Parser Range := do
  if ← nextIsSymbol text then return (← advance).range
  else failExpected s!"'{text}'"

/-- Reads this keyword and returns its place. -/
def keyword (text : String) : Parser Range := do
  if ← nextIsKeyword text then return (← advance).range
  else failExpected s!"'{text}'"

/-- The next token as a name. -/
def name : Parser Ident := do
  let token ← advance
  return ⟨token.text, token.range⟩

/-- Reads a name of this sort. -/
def nameOf (kind : TokenKind) (what : String) : Parser Ident := do
  if ← nextIs kind then name else failExpected what

/-- A parameter name that no program text can hold. -/
def freshName (range : Range) : Parser Ident :=
  modifyGet fun s => (⟨s!"%arg{s.fresh + 1}", range⟩, { s with fresh := s.fresh + 1 })

/-- Opens one more nested form. -/
def descend : Parser Unit := do
  if maxNesting ≤ (← get).depth then failHere .nestedTooDeeply
  else modify fun s => { s with depth := s.depth + 1 }

/-- Closes at the end the nested forms that `p` opens. -/
def closing {α : Type} (p : Parser α) : Parser α := do
  let depth := (← get).depth
  let a ← p
  modify fun s => { s with depth := depth }
  return a

/-- Reads one nested form. -/
def nested {α : Type} (p : Parser α) : Parser α := closing do
  descend
  p

/-- Fails for want of fuel. -/
def stuck {α : Type} : Parser α := fun s => .error ⟨.outOfFuel, s.peek.range⟩

/-- Takes steps while there is one, fewer than `n` of them. -/
def steps {α : Type} (step : α → Parser (Option α)) : Nat → α → Parser α
  | 0, _ => stuck
  | n + 1, a => do
      match ← step a with
      | some b => steps step n b
      | none => pure a

/-- Takes steps while there is one. Each step is to read a token, so the number of tokens bounds
that of the steps. -/
def loop {α : Type} (step : α → Parser (Option α)) (a : α) : Parser α := do
  steps step ((← get).rest.length + 1) a

/-- Reads one item, and one more after each separator. -/
def sepBy1 {α : Type} (item : Parser α) (separator : Parser Bool) : Parser (List α) := do
  let first ← item
  let items ← loop (fun items => do
    if ← separator then return some ((← item) :: items) else return none) [first]
  return items.reverse

/-- Reads items with commas between them up to the closing symbol, which it leaves. -/
def commaList {α : Type} (item : Parser α) (close : String) : Parser (List α) := do
  if ← nextIsSymbol close then return []
  else sepBy1 item (skipSymbol ",")

/-- The value of a numeral. -/
def integer (text : String) (range : Range) : Parser Int64 :=
  match Text.int64OfDecimal? text with
  | some n => pure n
  | none => throw ⟨.integerOutOfRange, range⟩

/-! ### Recursive forms

Every production is written over the parsers for the forms that a form may hold inside itself. Each of
them reads a token before it turns to one, so the tokens bound the depth of the recursion. -/

/-- Parsers for the forms that occur inside other forms. -/
structure Grammar where
  type : Parser TypeExpr
  pattern : Parser Pattern
  patternCons : Parser Pattern
  expr : Parser Expr
  statement : Parser Expr
  /-- An operator chain whose operators bind at least this tightly. -/
  chain : Nat → Parser Expr
  unary : Parser Expr
  access : Parser Expr
  atom : Parser Expr

/-- The grammar without any fuel, which reads nothing. -/
def Grammar.stuck : Grammar :=
  ⟨Parser.stuck, Parser.stuck, Parser.stuck, Parser.stuck, Parser.stuck, fun _ => Parser.stuck,
    Parser.stuck, Parser.stuck, Parser.stuck⟩

end Parser

end FieldML
