import FieldML.Parser.Basic

/-!
# Reading by index

Parsing with the bookkeeping done by hand. The tokens are an array, the next one is found by its
index, and every form that opened a level of nesting has to close it again. Nothing here rules out
that the index leaves the array or that more levels are closed than were opened: a run that does one
of the two breaks off.
-/

namespace FieldML

/-- The tokens, how many of them were read, and the two counters. -/
structure Tape where
  tokens : Array Token
  pos : Nat
  fresh : Nat
  depth : Nat

namespace Tape

/-- How a run ends. -/
inductive Outcome (α : Type) where
  | done (a : α) (s : Tape)
  | failed (e : ParseError) (s : Tape)
  /-- An index was out of bounds, or a counter would have gone below zero. -/
  | broken

/-- What is done with a tape. -/
def Run (α : Type) : Type := Tape → Outcome α

instance : Monad Run where
  pure a := fun s => .done a s
  bind q f := fun s => match q s with
    | .done a s' => f a s'
    | .failed e s' => .failed e s'
    | .broken => .broken

/-- The tape before anything is read. An end mark is put behind the last token unless that is one. -/
def ofTokens (tokens : List Token) : Tape :=
  match tokens.getLast? with
  | none => ⟨#[⟨.eof, "", .erased⟩], 0, 0, 0⟩
  | some last =>
      if last.kind = .eof then ⟨tokens.toArray, 0, 0, 0⟩
      else ⟨tokens.toArray.push ⟨.eof, "", last.range⟩, 0, 0, 0⟩

/-- How many tokens there are before the next end mark. -/
def left (s : Tape) : Nat :=
  ((s.tokens.toList.drop s.pos).takeWhile fun t => t.kind ≠ .eof).length

variable {α : Type}

/-- Fails with this fault. -/
def fail (e : ParseError) : Run α := fun s => .failed e s

/-- Changes the tape. -/
def update (f : Tape → Tape) : Run Unit := fun s => .done () (f s)

/-- The token to read next, or the last one if all were read. -/
def peek : Run Token := fun s =>
  match s.tokens[min s.pos (s.tokens.size - 1)]? with
  | some t => .done t s
  | none => .broken

/-- The token this far behind the next one, if there is one. -/
def peekAt (offset : Nat) : Run (Option Token) := fun s => .done s.tokens[s.pos + offset]? s

/-- Reads the next token; an end mark is never passed. -/
def advance : Run Token := do
  let token ← peek
  if token.kind ≠ .eof then update fun s => { s with pos := s.pos + 1 }
  return token

/-- Where the token read last is, or the next one if none was read. -/
def previousRange : Run Range := fun s =>
  match if 0 < s.pos then s.tokens[s.pos - 1]? else none with
  | some t => .done t.range s
  | none => (Token.range <$> peek) s

/-- Fails at the next token. -/
def failHere (cause : Option String → ParseError.Cause) : Run α := do
  let token ← peek
  fail ⟨cause (if token.kind = .eof then none else some token.text), token.range⟩

/-- Fails at the next token, in place of which something else was expected. -/
def failExpected (what : String) : Run α := failHere (.expected what)

/-- Whether the next token is of this sort. -/
def nextIs (kind : TokenKind) : Run Bool := return (← peek).kind = kind

/-- Whether the next token is this symbol. -/
def nextIsSymbol (symbol : String) : Run Bool := return (← peek).isWord .symbol symbol

/-- Whether the next token is this keyword. -/
def nextIsKeyword (keyword : String) : Run Bool := return (← peek).isWord .keyword keyword

/-- Reads this symbol if it is next. -/
def skipSymbol (symbol : String) : Run Bool := do
  if ← nextIsSymbol symbol then
    let _ ← advance
    return true
  else return false

/-- Reads this keyword if it is next. -/
def skipKeyword (keyword : String) : Run Bool := do
  if ← nextIsKeyword keyword then
    let _ ← advance
    return true
  else return false

/-- Reads this symbol and returns its place. -/
def symbol (text : String) : Run Range := do
  if ← nextIsSymbol text then return (← advance).range
  else failExpected s!"'{text}'"

/-- Reads this keyword and returns its place. -/
def keyword (text : String) : Run Range := do
  if ← nextIsKeyword text then return (← advance).range
  else failExpected s!"'{text}'"

/-- The next token as a name. -/
def name : Run Ident := do
  let token ← advance
  return ⟨token.text, token.range⟩

/-- Reads a name of this sort. -/
def nameOf (kind : TokenKind) (what : String) : Run Ident := do
  if ← nextIs kind then name else failExpected what

/-- A parameter name that no program text can hold. -/
def freshName (range : Range) : Run Ident := fun s =>
  .done ⟨s!"%arg{s.fresh + 1}", range⟩ { s with fresh := s.fresh + 1 }

/-- The value of a numeral. -/
def integer (text : String) (range : Range) : Run Int64 :=
  match Text.int64OfDecimal? text with
  | some n => pure n
  | none => fail ⟨.integerOutOfRange, range⟩

/-- Opens one more level. -/
def descend : Run Unit := do
  if Parser.maxNesting ≤ (← fun s => .done s.depth s) then failHere .nestedTooDeeply
  else update fun s => { s with depth := s.depth + 1 }

/-- Closes this many levels. -/
def leave (levels : Nat) : Run Unit := fun s =>
  if levels ≤ s.depth then .done () { s with depth := s.depth - levels } else .broken

/-- Does the same, with a failure as a result. -/
def attempt (q : Run α) : Run (Except ParseError α) := fun s =>
  match q s with
  | .done a s' => .done (.ok a) s'
  | .failed e s' => .done (.error e) s'
  | .broken => .broken

/-- Reads something one level deeper. The level is closed after a failure as well. -/
def nested (q : Run α) : Run α := do
  descend
  let result ← attempt q
  leave 1
  match result with
  | .ok a => return a
  | .error e => fail e

/-- Fails for want of fuel. -/
def stuck : Run α := do
  fail ⟨.outOfFuel, (← peek).range⟩

/-- Takes steps while there is one, fewer than `n` of them. -/
def steps (step : α → Run (Option α)) : Nat → α → Run α
  | 0, _ => stuck
  | n + 1, a => do
      match ← step a with
      | some b => steps step n b
      | none => return a

/-- Takes steps while there is one. -/
def loop (step : α → Run (Option α)) (a : α) : Run α := fun s => steps step (s.left + 1) a s

/-- Takes steps while there is one, fewer than `n` of them. Each step opens one level, and they are
counted; at the end the levels of all steps are closed. -/
def countedSteps (step : α → Run (Option α)) : Nat → Nat → α → Run α
  | 0, _, _ => stuck
  | n + 1, opened, a => do
      match ← step a with
      | some b => countedSteps step n (opened + 1) b
      | none =>
          leave opened
          return a

/-- Takes steps that open one level each while there is one, then closes these levels. -/
def counted (step : α → Run (Option α)) (a : α) : Run α :=
  fun s => countedSteps step (s.left + 1) 0 a s

/-- Reads one item, and one more after each separator. -/
def sepBy1 (item : Run α) (separator : Run Bool) : Run (List α) := do
  let first ← item
  let items ← loop (fun items => do
    if ← separator then return some ((← item) :: items) else return none) [first]
  return items.reverse

/-- Reads items with commas between them up to the closing symbol, which it leaves. -/
def commaList (item : Run α) (close : String) : Run (List α) := do
  if ← nextIsSymbol close then return []
  else sepBy1 item (skipSymbol ",")

end Tape

end FieldML
