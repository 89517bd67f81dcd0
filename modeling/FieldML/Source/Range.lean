/-!
# Places in program text

Lines and columns count from one, and a column is one code point. A range ends just before its
last position. Nodes that no text was written for carry a label in place of a range.
-/

namespace FieldML

/-- A line and a column of program text. -/
structure Position where
  line : Nat
  column : Nat
  deriving DecidableEq, Repr, Inhabited

namespace Position

/-- Where a text begins. -/
def start : Position := ⟨1, 1⟩

/-- The position after one character. -/
def next (p : Position) (c : Char) : Position :=
  if c = '\n' then ⟨p.line + 1, 1⟩ else ⟨p.line, p.column + 1⟩

/-- The position after a run of characters. -/
def advance (p : Position) (cs : List Char) : Position := cs.foldl next p

@[simp] theorem advance_nil (p : Position) : p.advance [] = p := rfl

@[simp] theorem advance_cons (p : Position) (c : Char) (cs : List Char) :
    p.advance (c :: cs) = (p.next c).advance cs := rfl

theorem advance_append (p : Position) (cs ds : List Char) :
    p.advance (cs ++ ds) = (p.advance cs).advance ds := by
  simp [advance]

end Position

/-- Where a node comes from. -/
inductive Range where
  /-- The text from one position up to another. -/
  | source (first last : Position)
  /-- A node that was not written, with a word on what made it. -/
  | label (name : String)
  deriving DecidableEq, Repr

namespace Range

instance : Inhabited Range := ⟨label ""⟩

/-- The place of types whose own place does not matter. -/
def erased : Range := label "erased"

/-- From the start of one range to the end of another; a label gives way to the other range. -/
def merge : Range → Range → Range
  | source a _, source _ b => source a b
  | source a b, label _ => source a b
  | label _, r => r

/-- The range points at no line of a text. -/
def isInvalid : Range → Bool
  | source first _ => first.line == 0
  | label _ => true

/-- The range in words. -/
def text : Range → String
  | source a b =>
      if a.line = b.line then s!"line {a.line}, characters {a.column}-{b.column}"
      else s!"line {a.line}, character {a.column} to line {b.line}, character {b.column}"
  | label name => s!"<{name}>"

@[simp] theorem merge_label (name : String) (r : Range) : (label name).merge r = r := by
  cases r <;> rfl

end Range

end FieldML
