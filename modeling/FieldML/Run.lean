import FieldML.Parser.Program
import FieldML.Primitive
import FieldML.Settings
import FieldML.Token.Lexer

/-!
# Running programs

From program text to its type and its value: reading tokens, reading the program, checking,
evaluating. The first stage that fails ends the run. The events of all stages are in order. A run in
which the type variables outnumber the 32 bits of their counter ends without a result.
-/

namespace FieldML

/-- Why a run failed. -/
inductive RunError where
  | lex (e : LexError)
  | parse (e : ParseError)
  | type (e : TypeError)
  | outputNotString (found : String)
  | eval (e : EvalError)
  | display (found : String)

namespace RunError

/-- The stage that failed. -/
def stage : RunError → String
  | lex _ => "LEXING"
  | parse _ => "PARSING"
  | type _ | outputNotString _ => "TYPECHECK"
  | eval _ => "EVALUATION"
  | display _ => "DISPLAY"

/-- The failure in words. -/
def message : RunError → String
  | lex e => e.message
  | parse e => e.message
  | type e => e.message
  | outputNotString found => s!"the output is not string: it has type {found}"
  | eval e => e.message
  | display found => s!"illegal output: {found}"

/-- The failure as it is shown. -/
def toDiagnostic (e : RunError) : Diagnostic :=
  match e with
  | type e => e.toDiagnostic
  | lex fault => ⟨"E1001", .error, e.message, fault.range, []⟩
  | parse fault => ⟨"E1002", .error, e.message, fault.range, []⟩
  | outputNotString _ => ⟨"E2100", .error, e.message, .label "program", []⟩
  | eval _ => ⟨"E3001", .error, e.message, .label "evaluation", []⟩
  | display _ => ⟨"E3002", .error, e.message, .label "evaluation", []⟩

end RunError

/-- What a run leaves besides its result. -/
structure Trail where
  /-- What was reported, in order. -/
  events : List Event
  /-- The type variable to hand out next, if they are counted without a bound. -/
  next : TypeVar := 0

/-- A result with the trail of the way to it. -/
abbrev Outcome (α : Type) := Except RunError α × Trail

/-- The outcome of a run. There is none if the counter of the type variables has overflowed, since
that ends the process. -/
def Outcome.completed? {α : Type} (run : Outcome α) : Option (Outcome α) :=
  if run.2.next < UInt32.size then some run else none

/-- Checks a program text. -/
def checkSource (source : String) (settings : Settings) : Outcome Checked :=
  match Token.lex source with
  | .error e => (.error (.lex e), ⟨[], 0⟩)
  | .ok tokens =>
      let lexed := Event.lexed tokens.length
      match Program.ofTokens tokens with
      | .error e => (.error (.parse e), ⟨[lexed], 0⟩)
      | .ok program =>
          let parsed := Event.parsed program.groups.length
          let check := Check.outcome initialEnvironments settings.checkOptions program
          let next := check.2.next
          match Check.conclude check with
          | (.error e, events) => (.error (.type e), ⟨lexed :: parsed :: events, next⟩)
          | (.ok checked, events) =>
              (.ok checked, ⟨lexed :: parsed :: events ++ [.typed checked.type], next⟩)

variable [Text.Segmentation]

/-- Evaluates a checked program: its value, and the machine afterwards. -/
def Checked.evaluate (checked : Checked) (settings : Settings) (isTraced : Bool) :
    Except EvalError Value × Machine :=
  (Machine.start isTraced).evaluate settings.evalLimits initialScope checked.core

/-- Whether the type is that of texts, under whatever names. -/
def Ty.isString (t : Ty) : Bool :=
  match t.expand with
  | .base .string _ => true
  | _ => false

/-- Runs a program text, whose value must be a text. -/
def runSource (source : String) (settings : Settings) (isTraced : Bool) : Outcome String :=
  match checkSource source settings with
  | (.error e, trail) => (.error e, trail)
  | (.ok checked, trail) =>
      if !checked.type.isString then (.error (.outputNotString checked.type.text), trail)
      else
        match checked.evaluate settings isTraced with
        | (.error e, m) =>
            (.error (.eval e), { trail with events := trail.events ++ m.events.reverse })
        | (.ok v, m) =>
            let text := v.print m.cells
            let events := trail.events ++ m.events.reverse ++ [.evaluated text]
            match v with
            | .string s => (.ok s, { trail with events := events })
            | _ => (.error (.display text), { trail with events := events })

end FieldML
