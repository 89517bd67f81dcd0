import FieldML.Source.Range

/-!
# Tokens

The words of a program. The text of a token is what it stands for: a type variable without its
quote, a string with its escapes resolved.
-/

namespace FieldML

/-- What sort of word a token is. -/
inductive TokenKind where
  | ident
  | constructor
  | typeVar
  | number
  | string
  | keyword
  | symbol
  | eof
  deriving DecidableEq, Repr, Inhabited

/-- One word of a program. -/
structure Token where
  kind : TokenKind
  text : String
  range : Range
  deriving DecidableEq, Repr, Inhabited

namespace Token

/-- The words that cannot be names. -/
def keywords : List String :=
  ["let", "rec", "and", "in", "fun", "if", "then", "else", "match", "with", "type", "of",
   "true", "false", "ref", "mod", "as"]

/-- The punctuation, those of two characters first, so that the longest is read. -/
def symbols : List String :=
  ["->", "::", ":=", "==", "<>", "<=", ">=", "&&", "||", "(", ")", "[", "]", "\x7b", "\x7d", ",",
   ";", ":", "=", "<", ">", "+", "-", "*", "/", "^", "!", "|", "."]

/-- The token is this word of this sort. -/
def isWord (t : Token) (kind : TokenKind) (text : String) : Bool :=
  t.kind = kind && t.text = text

end Token

end FieldML
