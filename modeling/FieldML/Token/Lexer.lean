import FieldML.Text.Letters
import FieldML.Text.Decimal
import FieldML.Token

/-!
# Reading tokens from text

A text is read from the left. Three counters say where the reading stands: the index of the next
character, its line and its column. Each turn of the reading goes past blank space, a comment or a
token, and so past one character at least.
-/

namespace FieldML

/-- Why a text has no tokens. -/
inductive LexError.Cause where
  | unterminatedComment
  | unterminatedString
  | unknownEscape (escaped : Char)
  | integerOutOfRange (digits : String)
  | missingTypeVariable
  | unexpectedCharacter (found : Char)
  deriving DecidableEq, Repr

/-- A fault in the spelling of a program, and where it is. -/
structure LexError where
  cause : LexError.Cause
  range : Range
  deriving DecidableEq, Repr

namespace LexError

/-- The fault in words. -/
def Cause.message : Cause → String
  | unterminatedComment => "unterminated comment"
  | unterminatedString => "unterminated string literal"
  | unknownEscape c => s!"unknown escape sequence '\\{c}'"
  | integerOutOfRange digits => s!"integer literal '{digits}' is out of range"
  | missingTypeVariable => "expected a type variable name after '''"
  | unexpectedCharacter c => s!"unexpected character '{c}'"

/-- The fault in words, with its place. -/
def message (e : LexError) : String := s!"{e.cause.message} at {e.range.text}"

end LexError

namespace Token

/-- A character that a name may go on with. -/
def isNameChar (c : Char) : Bool := Text.isAlphanumeric c || c = '_' || c = '\''

/-- A character that a name may begin with. -/
def isNameStart (c : Char) : Bool := Text.isAlphabetic c || c = '_'

/-- The sort of a name, which its spelling decides. -/
def kindOfName (c : Char) (name : String) : TokenKind :=
  if keywords.contains name then .keyword
  else if Text.isUppercase c then .constructor
  else .ident

/-- What a backslash and this character stand for in a string. -/
def unescape : Char → Option Char
  | 'n' => some '\n'
  | 'r' => some '\r'
  | 't' => some '\t'
  | '\\' => some '\\'
  | '"' => some '"'
  | _ => none

/-- The largest magnitude a numeral may have; it is in range only under a minus sign. -/
def maxMagnitude : Nat := Int64.minValue.toInt.natAbs

/-- Where the reading of a text stands: the index of the next character, its line and its column. -/
structure Counters where
  index : Nat
  line : Nat
  column : Nat
  deriving DecidableEq, Repr

namespace Counters

/-- Where the reading begins. -/
def start : Counters := ⟨0, 1, 1⟩

variable (k : Counters)

/-- The position of the next character. -/
def position : Position := ⟨k.line, k.column⟩

/-- Past some characters of one line. -/
def past (n : Nat) : Counters := ⟨k.index + n, k.line, k.column + n⟩

/-- Past the end of a line. -/
def newline : Counters := ⟨k.index + 1, k.line + 1, 1⟩

end Counters

section Reading

variable (chars : Array Char)

/-- The characters from one index up to another. -/
def slice (first last : Nat) : List Char := (chars.extract first last).toList

/-- Goes past the characters of a line for which `p` holds. -/
def skipWhile (p : Char → Bool) (k : Counters) : Counters :=
  if h : k.index < chars.size then
    if p chars[k.index] then skipWhile p (k.past 1) else k
  else k
termination_by chars.size - k.index
decreasing_by simp only [Counters.past]; omega

/-- Goes past the end of the comment that `depth` openings precede. -/
def skipComment (opening : Position) (depth : Nat) (k : Counters) : Except LexError Counters :=
  if h : k.index < chars.size then
    let c := chars[k.index]
    let next? := chars[k.index + 1]?
    if c = '(' && next? = some '*' then skipComment opening (depth + 1) (k.past 2)
    else if c = '*' && next? = some ')' then
      if depth - 1 = 0 then .ok (k.past 2) else skipComment opening (depth - 1) (k.past 2)
    else if c = '\n' then skipComment opening depth k.newline
    else skipComment opening depth (k.past 1)
  else .error ⟨.unterminatedComment, .source opening k.position⟩
termination_by chars.size - k.index
decreasing_by all_goals simp only [Counters.past, Counters.newline]; omega

/-- Goes past the closing quote of a string, with the characters that the string holds after those
found before in reverse order. -/
def readString (opening : Position) (content : List Char) (k : Counters) :
    Except LexError (Counters × String) :=
  if h : k.index < chars.size then
    match chars[k.index] with
    | '"' => .ok (k.past 1, String.ofList content.reverse)
    | '\\' =>
        match chars[k.index + 1]? with
        | none => readString opening content (k.past 1)
        | some escaped =>
            let after := k.past 2
            match unescape escaped with
            | some c => readString opening (c :: content) after
            | none =>
                let range := .source ⟨after.line, after.column - 2⟩ after.position
                .error ⟨.unknownEscape escaped, range⟩
    | '\n' => readString opening ('\n' :: content) k.newline
    | c => readString opening (c :: content) (k.past 1)
  else .error ⟨.unterminatedString, .source opening k.position⟩
termination_by chars.size - k.index
decreasing_by all_goals simp only [Counters.past, Counters.newline]; omega

/-- One turn of the reading: the counters after it, and the token that was read, if it was not blank
space or a comment. -/
def turn (k : Counters) (h : k.index < chars.size) : Except LexError (Counters × Option Token) :=
  let c := chars[k.index]
  let next? := chars[k.index + 1]?
  let start := k.position
  let token (kind : TokenKind) (text : List Char) (after : Counters) : Counters × Option Token :=
    (after, some ⟨kind, String.ofList text, .source start after.position⟩)
  if c = '\n' then .ok (k.newline, none)
  else if Text.isBlank c then .ok (k.past 1, none)
  else if c = '-' && next? = some '-' then .ok (skipWhile chars (· ≠ '\n') k, none)
  else if c = '(' && next? = some '*' then do
    return (← skipComment chars start 0 k, none)
  else if c = '"' then do
    let (after, text) ← readString chars start [] (k.past 1)
    return (after, some ⟨.string, text, .source start after.position⟩)
  else if c.isDigit then
    let after := skipWhile chars Char.isDigit k
    let digits := slice chars k.index after.index
    if maxMagnitude < Text.natOfDigits digits then
      .error ⟨.integerOutOfRange (String.ofList digits), .source start after.position⟩
    else .ok (token .number digits after)
  else if c = '\'' then
    let first := k.past 1
    let after := skipWhile chars isNameChar first
    if after.index = first.index then
      .error ⟨.missingTypeVariable, .source start after.position⟩
    else .ok (token .typeVar (slice chars first.index after.index) after)
  else if isNameStart c then
    let after := skipWhile chars isNameChar k
    let name := slice chars k.index after.index
    .ok (token (kindOfName c (String.ofList name)) name after)
  else
    let rest := slice chars k.index (min chars.size (k.index + 2))
    match symbols.find? fun s => s.toList.isPrefixOf rest with
    | some s => .ok (token .symbol s.toList (k.past s.length))
    | none => .error ⟨.unexpectedCharacter c, .source start (k.past 1).position⟩

variable {chars} {k k' : Counters}

theorem index_le_skipWhile (p : Char → Bool) (k : Counters) :
    k.index ≤ (skipWhile chars p k).index := by
  fun_induction skipWhile chars p k with
  | case1 k h hp ih => exact Nat.le_trans (Nat.le_succ _) ih
  | case2 k h hp => exact Nat.le_refl _
  | case3 k h => exact Nat.le_refl _

theorem index_lt_skipWhile {p : Char → Bool} (h : k.index < chars.size)
    (hp : p chars[k.index] = true) : k.index < (skipWhile chars p k).index := by
  rw [skipWhile, dif_pos h, if_pos hp]
  exact Nat.lt_of_lt_of_le (Nat.lt_succ_self _) (index_le_skipWhile p (k.past 1))

theorem index_lt_past (k : Counters) (n : Nat) : k.index < (k.past (n + 1)).index :=
  Nat.lt_add_of_pos_right (Nat.succ_pos n)

theorem index_lt_newline (k : Counters) : k.index < k.newline.index := Nat.lt_succ_self _

theorem index_lt_of_skipComment {opening : Position} {depth : Nat}
    (hrun : skipComment chars opening depth k = .ok k') : k.index < k'.index := by
  fun_induction skipComment chars opening depth k with
  | case1 depth k h c next? hopen ih => exact Nat.lt_trans (index_lt_past k 1) (ih hrun)
  | case2 depth k h c next? hopen hclose hdepth =>
      cases hrun
      exact index_lt_past k 1
  | case3 depth k h c next? hopen hclose hdepth ih =>
      exact Nat.lt_trans (index_lt_past k 1) (ih hrun)
  | case4 depth k h c next? hopen hclose hline ih =>
      exact Nat.lt_trans (index_lt_newline k) (ih hrun)
  | case5 depth k h c next? hopen hclose hline ih =>
      exact Nat.lt_trans (index_lt_past k 0) (ih hrun)
  | case6 depth k h => cases hrun

theorem index_lt_of_readString {opening : Position} {content : List Char} {text : String}
    (hrun : readString chars opening content k = .ok (k', text)) : k.index < k'.index := by
  fun_induction readString chars opening content k with
  | case1 content k =>
      cases hrun
      exact index_lt_past k 0
  | case2 content k _ _ _ ih => exact Nat.lt_trans (index_lt_past k 0) (ih hrun)
  | case3 content k _ _ _ _ _ _ _ ih => exact Nat.lt_trans (index_lt_past k 1) (ih hrun)
  | case4 => cases hrun
  | case5 content k _ _ ih => exact Nat.lt_trans (index_lt_newline k) (ih hrun)
  | case6 content k _ _ _ _ ih => exact Nat.lt_trans (index_lt_past k 0) (ih hrun)
  | case7 => cases hrun

theorem isNameChar_of_isNameStart {c : Char} (h : isNameStart c = true) : isNameChar c = true := by
  unfold isNameStart at h
  unfold isNameChar Text.isAlphanumeric
  simp only [Bool.or_eq_true, decide_eq_true_eq] at h ⊢
  rcases h with h | h
  · exact .inl (.inl (.inl h))
  · exact .inl (.inr h)

/-- Every turn goes past some character. -/
theorem index_lt_of_turn {h : k.index < chars.size} {token? : Option Token}
    (hturn : turn chars k h = .ok (k', token?)) : k.index < k'.index := by
  unfold turn at hturn
  dsimp only at hturn
  split at hturn
  · cases hturn
    exact index_lt_newline k
  split at hturn
  · cases hturn
    exact index_lt_past k 0
  next hline hblank =>
  split at hturn
  · cases hturn
    exact index_lt_skipWhile h (by simpa using hline)
  split at hturn
  · cases hrun : skipComment chars k.position 0 k with
    | error e =>
        rw [hrun] at hturn
        cases hturn
    | ok after =>
        rw [hrun] at hturn
        cases hturn
        exact index_lt_of_skipComment hrun
  split at hturn
  · cases hrun : readString chars k.position [] (k.past 1) with
    | error e =>
        rw [hrun] at hturn
        cases hturn
    | ok r =>
        rw [hrun] at hturn
        cases hturn
        exact Nat.lt_trans (index_lt_past k 0) (index_lt_of_readString hrun)
  split at hturn
  · next hdigit =>
      split at hturn
      · cases hturn
      · cases hturn
        exact index_lt_skipWhile h hdigit
  split at hturn
  · split at hturn
    · cases hturn
    · cases hturn
      exact Nat.lt_of_lt_of_le (index_lt_past k 0) (index_le_skipWhile _ _)
  split at hturn
  · next hname =>
      cases hturn
      exact index_lt_skipWhile h (isNameChar_of_isNameStart hname)
  split at hturn
  · next s hs =>
      cases hturn
      have hlength : ∀ s ∈ symbols, s.length ≠ 0 := by decide
      exact Nat.lt_add_of_pos_right (Nat.pos_of_ne_zero (hlength s (List.mem_of_find?_eq_some hs)))
  · cases hturn

variable (chars)

/-- The tokens of the rest of the text, after those found before in reverse order. -/
def readAll (found : List Token) (k : Counters) : Except LexError (List Token) :=
  if h : k.index < chars.size then
    match _hturn : turn chars k h with
    | .error e => .error e
    | .ok (after, token?) => readAll (token?.toList ++ found) after
  else .ok (⟨.eof, "", .source k.position k.position⟩ :: found).reverse
termination_by chars.size - k.index
decreasing_by
  have := index_lt_of_turn _hturn
  omega

end Reading

/-- The tokens of a program text, with an end mark as the last one. -/
def lex (text : String) : Except LexError (List Token) := readAll text.toList.toArray [] .start

end Token

end FieldML
