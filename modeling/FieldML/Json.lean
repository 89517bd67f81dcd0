import FieldML.Diagnostic
import FieldML.Text.Quoted

/-!
# Reports as JSON

The part of JSON that reports use, and diagnostics in it. A report is printed over several lines,
with two blanks for each level.
-/

namespace FieldML

/-- A JSON value. The entries of an object keep their order. -/
inductive Json where
  | null
  | number (value : Nat)
  | text (value : String)
  | list (items : List Json)
  | object (entries : List (String × Json))

namespace Json

/-- The two hexadecimal digits of a small number. -/
def hexByte (n : Nat) : String :=
  (Nat.digitChar (n / 16)).toString ++ (Nat.digitChar (n % 16)).toString

/-- One character between the quotes of a text. -/
def escapeChar (c : Char) : String :=
  match c with
  | '"' => "\\\""
  | '\\' => "\\\\"
  | '\x08' => "\\b"
  | '\x0c' => "\\f"
  | '\n' => "\\n"
  | '\x0d' => "\\r"
  | '\t' => "\\t"
  | c => if c < ' ' then "\\u00" ++ hexByte c.toNat else c.toString

/-- A text in quotes. -/
def quote (s : String) : String := "\"" ++ String.join (s.toList.map escapeChar) ++ "\""

/-- The start of a line on this level. -/
def newLine (level : Nat) : String := "\n" ++ String.ofList (List.replicate (2 * level) ' ')

mutual

/-- The value over several lines, where the first one is on this level. -/
def pretty (level : Nat) : Json → String
  | null => "null"
  | number n => toString n
  | text s => quote s
  | list [] => "[]"
  | list (item :: items) =>
      "[" ++ newLine (level + 1) ++ item.pretty (level + 1) ++ prettyItems (level + 1) items
        ++ newLine level ++ "]"
  | object [] => "\x7b\x7d"
  | object ((key, v) :: entries) =>
      "\x7b" ++ newLine (level + 1) ++ quote key ++ ": " ++ v.pretty (level + 1)
        ++ prettyEntries (level + 1) entries ++ newLine level ++ "\x7d"

/-- The items of a list after its first one. -/
def prettyItems (level : Nat) : List Json → String
  | [] => ""
  | item :: items => "," ++ newLine level ++ item.pretty level ++ prettyItems level items

/-- The entries of an object after its first one. -/
def prettyEntries (level : Nat) : List (String × Json) → String
  | [] => ""
  | (key, v) :: entries =>
      "," ++ newLine level ++ quote key ++ ": " ++ v.pretty level ++ prettyEntries level entries

end

/-- A text, or nothing. -/
def ofText? : Option String → Json
  | some s => text s
  | none => null

end Json

/-- A position as JSON. -/
def Position.toJson (p : Position) : Json :=
  .object [("line", .number p.line), ("column", .number p.column)]

/-- A range as JSON. -/
def Range.toJson : Range → Json
  | source first last =>
      .object [("type", .text "source"),
        ("span", .object [("start", first.toJson), ("end", last.toJson)])]
  | label name => .object [("type", .text "dummy"), ("label", .text name)]

/-- A label as JSON. -/
def Label.toJson (l : Label) : Json :=
  .object [("message", .text l.message), ("range", l.range.toJson)]

/-- A diagnostic as JSON. -/
def Diagnostic.toJson (d : Diagnostic) : Json :=
  .object [("code", .text d.code), ("severity", .text d.severity.name),
    ("message", .text d.message), ("range", d.range.toJson),
    ("labels", .list (d.labels.map Label.toJson))]

end FieldML
