import FieldML.Text.Decimal
import FieldML.Toml

/-!
# Reading settings files

The part of TOML that settings can use: keys and headers in all their forms, texts, integers, truth
values, tables on one line and empty lists. Floats, dates and lists that are not empty are refused,
as no setting takes one.
-/

namespace FieldML.Toml

/-- A reader of the front of a text, which returns the rest. -/
abbrev Reader (α : Type) := List Char → Option (α × List Char)

/-- Whether a character may stand in a comment or a text. -/
def isPlain (c : Char) : Bool := c = '\t' || ' ' ≤ c && c ≠ '\x7f'

/-- The text after blanks on the line. -/
def skipBlanks (cs : List Char) : List Char := cs.dropWhile fun c => c = ' ' || c = '\t'

/-- The text after a comment, if there is one. -/
def skipComment : List Char → List Char
  | '#' :: cs => cs.dropWhile isPlain
  | cs => cs

/-- The text after a line end. -/
def lineEnd? : List Char → Option (List Char)
  | '\n' :: cs => some cs
  | '\x0d' :: '\n' :: cs => some cs
  | _ => none

/-- The text after the rest of a line, which must hold nothing but blanks and a comment. -/
def endOfLine? (cs : List Char) : Option (List Char) :=
  match skipComment (skipBlanks cs) with
  | [] => some []
  | cs => lineEnd? cs

/-- The text after empty lines, comments and blanks, of at most `n` lines. -/
def skipLines : Nat → List Char → List Char
  | 0, cs => cs
  | n + 1, cs =>
      let rest := skipComment (skipBlanks cs)
      match lineEnd? rest with
      | some rest => skipLines n rest
      | none => rest

/-- Whether a character may stand in a key without quotes. -/
def isKeyChar (c : Char) : Bool := c.isAlphanum || c = '_' || c = '-'

/-- The value of a hexadecimal digit. -/
def hexDigit? (c : Char) : Option Nat :=
  if c.isDigit then some (c.toNat - '0'.toNat)
  else if 'a' ≤ c ∧ c ≤ 'f' then some (c.toNat - 'a'.toNat + 10)
  else if 'A' ≤ c ∧ c ≤ 'F' then some (c.toNat - 'A'.toNat + 10)
  else none

/-- The character with a code point of exactly `n` hexadecimal digits. -/
def codePoint? (n : Nat) (cs : List Char) : Option (Char × List Char) := do
  let digits := cs.take n
  if digits.length ≠ n then none
  let value ← digits.foldlM (fun value c => do return 16 * value + (← hexDigit? c)) 0
  if value.isValidChar then return (Char.ofNat value, cs.drop n) else none

/-- The character that an escape stands for, after the backslash. -/
def escape? : Reader Char
  | 'b' :: cs => some ('\x08', cs)
  | 't' :: cs => some ('\t', cs)
  | 'n' :: cs => some ('\n', cs)
  | 'f' :: cs => some ('\x0c', cs)
  | 'r' :: cs => some ('\x0d', cs)
  | '"' :: cs => some ('"', cs)
  | '\\' :: cs => some ('\\', cs)
  | 'u' :: cs => codePoint? 4 cs
  | 'U' :: cs => codePoint? 8 cs
  | _ => none

/-- A text up to its closing quote, on one line; `n` bounds its length. -/
def basicText : Nat → List Char → Reader String
  | 0, _ => fun _ => none
  | n + 1, found => fun
    | '"' :: cs => some (String.ofList found.reverse, cs)
    | '\\' :: cs => do
        let (c, cs) ← escape? cs
        basicText n (c :: found) cs
    | c :: cs => if isPlain c then basicText n (c :: found) cs else none
    | [] => none

/-- A text without escapes up to its closing quote, on one line. -/
def literalText (found : List Char) : Reader String
  | '\'' :: cs => some (String.ofList found.reverse, cs)
  | c :: cs => if isPlain c then literalText (c :: found) cs else none
  | [] => none

/-- The text without a line end at its front. -/
def dropLineEnd (cs : List Char) : List Char := (lineEnd? cs).getD cs

/-- Up to five quotes at the end of a text of several lines: three close it, and those before them
belong to it. -/
def closing? (quote : Char) (found cs : List Char) : Option (String × List Char) :=
  let quotes := (cs.takeWhile (· = quote)).length
  if 3 ≤ quotes ∧ quotes ≤ 5 then
    some (String.ofList (List.replicate (quotes - 3) quote ++ found).reverse, cs.drop quotes)
  else none

/-- The text after a backslash at the end of a line, and all the blank space after that. -/
def continuation? (cs : List Char) : Option (List Char) := do
  let rest ← lineEnd? (skipBlanks cs)
  return rest.dropWhile fun c => c = ' ' || c = '\t' || c = '\n' || c = '\x0d'

/-- A text up to three closing quotes, with or without escapes; `n` bounds its length. -/
def longText (quote : Char) (escapes : Bool) : Nat → List Char → Reader String
  | 0, _ => fun _ => none
  | n + 1, found => fun cs =>
      match closing? quote found cs with
      | some result => some result
      | none =>
          match cs, lineEnd? cs with
          | _, some rest => longText quote escapes n ('\n' :: found) rest
          | [], _ => none
          | c :: cs, none =>
              if c = '\\' && escapes then
                match continuation? cs with
                | some rest => longText quote escapes n found rest
                | none => do
                    let (c, cs) ← escape? cs
                    longText quote escapes n (c :: found) cs
              else if isPlain c then longText quote escapes n (c :: found) cs
              else none

/-- A text in any of its four forms. -/
def text? (cs : List Char) : Option (String × List Char) :=
  match cs with
  | '"' :: '"' :: '"' :: rest => longText '"' true (cs.length + 1) [] (dropLineEnd rest)
  | '\'' :: '\'' :: '\'' :: rest => longText '\'' false (cs.length + 1) [] (dropLineEnd rest)
  | '"' :: rest => basicText (cs.length + 1) [] rest
  | '\'' :: rest => literalText [] rest
  | _ => none

/-- One part of a key. -/
def keyPart? (cs : List Char) : Option (String × List Char) :=
  match cs with
  | '"' :: rest => basicText (cs.length + 1) [] rest
  | '\'' :: rest => literalText [] rest
  | _ =>
      match cs.takeWhile isKeyChar with
      | [] => none
      | key => some (String.ofList key, cs.dropWhile isKeyChar)

/-- A key of at most `n` parts with dots between them. -/
def key? : Nat → Reader (List String)
  | 0 => fun _ => none
  | n + 1 => fun cs => do
      let (part, cs) ← keyPart? (skipBlanks cs)
      match skipBlanks cs with
      | '.' :: cs => do
          let (parts, cs) ← key? n cs
          return (part :: parts, cs)
      | cs => return ([part], cs)

/-- The number of digits in this base, where an underscore may stand between two of them. -/
def digitsIn? (base : Nat) (digits : List Char) : Option Nat :=
  let rec value (n : Nat) (afterDigit : Bool) : List Char → Option Nat
    | [] => if afterDigit then some n else none
    | '_' :: cs => if afterDigit then value n false cs else none
    | c :: cs => do
        let d ← hexDigit? c
        if d < base then value (base * n + d) true cs else none
  value 0 false digits

/-- A decimal number, which has no zeros in front. -/
def decimal? : List Char → Option Nat
  | ['0'] => some 0
  | '0' :: _ => none
  | digits => digitsIn? 10 digits

/-- The number that a numeral stands for. Other bases have no sign. -/
def numeral? : List Char → Option Int
  | '0' :: 'x' :: cs => (digitsIn? 16 cs).map Int.ofNat
  | '0' :: 'o' :: cs => (digitsIn? 8 cs).map Int.ofNat
  | '0' :: 'b' :: cs => (digitsIn? 2 cs).map Int.ofNat
  | '+' :: cs => (decimal? cs).map Int.ofNat
  | '-' :: cs => (decimal? cs).map fun n => -(n : Int)
  | cs => (decimal? cs).map Int.ofNat

/-- A truth value or an integer of 64 bits. -/
def word? (cs : List Char) : Option (Toml × List Char) := do
  let isWordChar (c : Char) : Bool := c.isAlphanum || c = '_' || c = '+' || c = '-' || c = '.'
  let word := cs.takeWhile isWordChar
  let rest := cs.dropWhile isWordChar
  if word = "true".toList then return (.boolean true, rest)
  if word = "false".toList then return (.boolean false, rest)
  let n ← numeral? word
  let _ ← Text.int64OfInt? n
  return (.integer n, rest)

mutual

/-- A value that is nested at most `n` deep. -/
def value? : Nat → Reader Toml
  | 0 => fun _ => none
  | n + 1 => fun cs =>
      match skipBlanks cs with
      | '[' :: rest =>
          match skipLines rest.length rest with
          | ']' :: rest => some (.emptyList, rest)
          | _ => none
      | '\x7b' :: rest =>
          match skipBlanks rest with
          | '\x7d' :: rest => some (.table .value [], rest)
          | rest => entries? n [] rest
      | cs =>
          match text? cs with
          | some (s, rest) => some (.text s, rest)
          | none => word? cs

/-- The entries of a table on one line, up to its closing brace, after those found before. -/
def entries? : Nat → List (String × Toml) → Reader Toml
  | 0, _ => fun _ => none
  | n + 1, found => fun cs => do
      let (key, cs) ← key? cs.length cs
      match cs with
      | '=' :: cs => do
          let (v, cs) ← value? n cs
          let found ← assign key v found
          match skipBlanks cs with
          | ',' :: cs => entries? n found cs
          | '\x7d' :: cs => return (.table .value found, cs)
          | _ => none
      | _ => none

end

/-- The entries of a whole file, after those found before; `current` is the path of the table that
the next lines belong to. -/
def lines? :
    Nat → List String → List (String × Toml) → List Char → Option (List (String × Toml))
  | 0, _, _, _ => none
  | n + 1, current, entries, cs =>
      match skipLines (cs.length + 1) cs with
      | [] => some entries
      | '[' :: cs => do
          let (path, cs) ← key? cs.length cs
          match cs with
          | ']' :: cs => lines? n path (← openTable path entries) (← endOfLine? cs)
          | _ => none
      | cs => do
          let (key, cs) ← key? cs.length cs
          match cs with
          | '=' :: cs => do
              let (v, cs) ← value? (cs.length + 1) cs
              let entries ← inside (assign key v) current entries
              lines? n current entries (← endOfLine? cs)
          | _ => none

/-- The entries of a settings file. -/
def parse? (text : String) : Option (List (String × Toml)) :=
  let cs := match text.toList with
    | '\ufeff' :: cs => cs
    | cs => cs
  lines? (cs.length + 1) [] [] cs

end FieldML.Toml
