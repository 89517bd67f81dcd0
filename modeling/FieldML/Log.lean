import FieldML.Ty.Printer

/-!
# Events

What the stages of a run report on the way, apart from their results.
-/

namespace FieldML

/-- How important an event is. -/
inductive Level where
  | trace
  | debug
  | warn
  deriving DecidableEq, Repr

/-- Something worth reporting. Values are reported as text, since what a reference holds may have
changed later. -/
inductive Event where
  | lexed (tokens : Nat)
  | parsed (groups : Nat)
  | registered (types : List String)
  | unifying (expected found : Ty)
  | generalized (scheme : Ty)
  | warned (warning : String)
  | typed (type : Ty)
  | armSelected (index : Nat) (value : String)
  | evaluated (value : String)

/-- The name of a level. -/
def Level.name : Level → String
  | trace => "TRACE"
  | debug => "DEBUG"
  | warn => "WARN"

namespace Event

/-- How important the event is. -/
def level : Event → Level
  | lexed _ | parsed _ | registered _ | typed _ | evaluated _ => .debug
  | unifying _ _ | generalized _ | armSelected _ _ => .trace
  | warned _ => .warn

/-- The event in words. -/
def message : Event → String
  | lexed n => s!"lexed {n} tokens"
  | parsed n => s!"parsed program with {n} type declaration group(s)"
  | registered names => "registered type group: " ++ commas names
  | unifying t u => s!"unify {t.text} ~ {u.text}"
  | generalized t => s!"generalized to {t.text}"
  | warned text => text
  | typed t => s!"program has type {t.text}"
  | armSelected i v => s!"match arm {i} selected for {v}"
  | evaluated v => s!"evaluated to {v}"

/-- The event on a line of its own. -/
def line (e : Event) : String := s!"{e.level.name} {e.message}"

end Event

end FieldML
