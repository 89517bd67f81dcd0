import FieldML.Token.Lexer
import Mathlib.Data.List.Find
import Mathlib.Data.List.TakeWhile

/-!
# Reading in pieces

A text can be cut into pieces from the left. A piece is blank space, a comment or a token, and it
always holds at least one character, so the cutting ends. The counters of the reading follow from the
characters of the pieces alone.
-/

namespace FieldML.Token

open Position

/-- How many characters go on until the comment closes that `depth` openings precede. -/
def commentLength (depth : Nat) (count : Nat) : List Char → Option Nat
  | [] => none
  | '(' :: '*' :: rest => commentLength (depth + 1) (count + 2) rest
  | '*' :: ')' :: rest =>
      if depth ≤ 1 then some (count + 2) else commentLength (depth - 1) (count + 2) rest
  | _ :: rest => commentLength depth (count + 1) rest

/-- What follows the opening quote of a string: the number of characters up to and with the closing
quote, and the characters that the string holds. -/
def stringBody (opening : Position) (pos : Position) (count : Nat) (content : List Char) :
    List Char → Except LexError (Nat × String)
  | [] => .error ⟨.unterminatedString, .source opening pos⟩
  | '"' :: _ => .ok (count + 1, String.ofList content.reverse)
  | ['\\'] => .error ⟨.unterminatedString, .source opening (pos.next '\\')⟩
  | '\\' :: c :: rest =>
      match unescape c with
      | some d => stringBody opening ⟨pos.line, pos.column + 2⟩ (count + 2) (d :: content) rest
      | none => .error ⟨.unknownEscape c, .source pos ⟨pos.line, pos.column + 2⟩⟩
  | c :: rest => stringBody opening (pos.next c) (count + 1) (c :: content) rest

/-- A piece of program text: the number of characters after its first, and the token it is, if
it is not blank space or a comment. -/
structure Piece where
  extra : Nat
  token? : Option (TokenKind × String)
  deriving Repr

/-- The piece that begins with `c` at `pos`, where `cs` follows. -/
def scan (pos : Position) (c : Char) (cs : List Char) : Except LexError Piece :=
  if Text.isBlank c then .ok ⟨0, none⟩
  else if c = '-' && cs.head? = some '-' then
    .ok ⟨(cs.takeWhile (· ≠ '\n')).length, none⟩
  else if c = '(' && cs.head? = some '*' then
    match commentLength 1 1 cs.tail with
    | some extra => .ok ⟨extra, none⟩
    | none => .error ⟨.unterminatedComment, .source pos (pos.advance (c :: cs))⟩
  else if c = '"' then do
    let (extra, content) ← stringBody pos (pos.next c) 0 [] cs
    return ⟨extra, some (.string, content)⟩
  else if c.isDigit then
    let digits := c :: cs.takeWhile Char.isDigit
    let text := String.ofList digits
    if maxMagnitude < Text.natOfDigits digits then
      .error ⟨.integerOutOfRange text, .source pos (pos.advance digits)⟩
    else .ok ⟨digits.length - 1, some (.number, text)⟩
  else if c = '\'' then
    match cs.takeWhile isNameChar with
    | [] => .error ⟨.missingTypeVariable, .source pos (pos.next c)⟩
    | name => .ok ⟨name.length, some (.typeVar, String.ofList name)⟩
  else if isNameStart c then
    let name := c :: cs.takeWhile isNameChar
    let text := String.ofList name
    .ok ⟨name.length - 1, some (kindOfName c text, text)⟩
  else
    match symbols.find? (fun s => s.toList.isPrefixOf (c :: cs)) with
    | some s => .ok ⟨s.length - 1, some (.symbol, s)⟩
    | none => .error ⟨.unexpectedCharacter c, .source pos (pos.next c)⟩

/-- The tokens of the text that begins at `pos`, after those found before in reverse order. -/
def lexFrom (pos : Position) (found : List Token) : List Char → Except LexError (List Token)
  | [] => .ok (⟨.eof, "", .source pos pos⟩ :: found).reverse
  | c :: cs => do
      let piece ← scan pos c cs
      let after := pos.advance (c :: cs.take piece.extra)
      let found := match piece.token? with
        | some (kind, text) => ⟨kind, text, .source pos after⟩ :: found
        | none => found
      lexFrom after found (cs.drop piece.extra)
termination_by cs => cs.length
decreasing_by simp only [List.length_cons, List.length_drop]; omega

/-! ### Counters and characters -/

namespace Counters

/-- Past some characters of the text. -/
def moved (k : Counters) (cs : List Char) : Counters :=
  ⟨k.index + cs.length, (k.position.advance cs).line, (k.position.advance cs).column⟩

variable {k : Counters} {c : Char} {cs ds : List Char}

@[simp] theorem position_moved : (k.moved cs).position = k.position.advance cs := rfl

@[simp] theorem index_moved : (k.moved cs).index = k.index + cs.length := rfl

theorem moved_nil : k.moved [] = k := rfl

theorem moved_append : k.moved (cs ++ ds) = (k.moved cs).moved ds := by
  simp [moved, position, advance_append, Nat.add_assoc]

theorem moved_newline : k.moved ['\n'] = k.newline := rfl

theorem moved_singleton (hc : c ≠ '\n') : k.moved [c] = k.past 1 := by
  simp [moved, past, next, hc, position]

theorem moved_line (hcs : ∀ c ∈ cs, c ≠ '\n') : k.moved cs = k.past cs.length := by
  induction cs generalizing k with
  | nil => rfl
  | cons c cs ih =>
      obtain ⟨hc, hcs⟩ := List.forall_mem_cons.1 hcs
      rw [← List.singleton_append, moved_append, moved_singleton hc, ih hcs, past, past]
      simp only [List.length_append, List.length_singleton, Nat.add_assoc]
      rfl

end Counters

open Counters

variable {chars : Array Char} {k : Counters} {c : Char} {cs ds : List Char}

/-- What the counters leave of the text. -/
def Leaves (chars : Array Char) (k : Counters) (cs : List Char) : Prop :=
  chars.toList.drop k.index = cs

namespace Leaves

theorem moved {ds : List Char} (h : Leaves chars k (ds ++ cs)) : Leaves chars (k.moved ds) cs := by
  unfold Leaves at h ⊢
  rw [index_moved, ← List.drop_drop, h, List.drop_left]

theorem not_lt (h : Leaves chars k []) : ¬k.index < chars.size := by
  simpa using List.drop_eq_nil_iff.1 h

theorem lt (h : Leaves chars k (c :: cs)) : k.index < chars.size := by
  by_contra hge
  have hnil : chars.toList.drop k.index = [] := List.drop_eq_nil_of_le (by simpa using hge)
  cases hnil.symm.trans h

theorem getElem?_eq (h : Leaves chars k cs) (n : Nat) : chars[k.index + n]? = cs[n]? := by
  rw [← Array.getElem?_toList, ← h, List.getElem?_drop]

theorem getElem_eq (h : Leaves chars k (c :: cs)) (hlt : k.index < chars.size) :
    chars[k.index] = c := by
  have hget := h.getElem?_eq 0
  rw [Nat.add_zero, Array.getElem?_eq_getElem hlt] at hget
  exact Option.some.inj hget

theorem next_eq (h : Leaves chars k (c :: cs)) : chars[k.index + 1]? = cs.head? := by
  rw [h.getElem?_eq 1, List.head?_eq_getElem?]
  rfl

theorem slice_eq (h : Leaves chars k (ds ++ cs)) :
    slice chars k.index (k.moved ds).index = ds := by
  unfold slice
  rw [Array.toList_extract, List.extract_eq_take_drop, h, index_moved, Nat.add_sub_cancel_left,
    List.take_left]

end Leaves

theorem take_length_takeWhile (p : Char → Bool) (cs : List Char) :
    cs.take (cs.takeWhile p).length = cs.takeWhile p :=
  (List.prefix_iff_eq_take.1 (List.takeWhile_prefix p)).symm

theorem skipWhile_eq {p : Char → Bool} (hp : p '\n' = false) (h : Leaves chars k cs) :
    skipWhile chars p k = k.moved (cs.takeWhile p) := by
  induction cs generalizing k with
  | nil =>
      rw [skipWhile, dif_neg h.not_lt]
      rfl
  | cons c cs ih =>
      rw [skipWhile, dif_pos h.lt, h.getElem_eq h.lt]
      by_cases hc : p c = true
      · have hne : c ≠ '\n' := by
          rintro rfl
          cases hc.symm.trans hp
        have hrest : Leaves chars (k.moved [c]) cs := Leaves.moved h
        rw [if_pos hc, List.takeWhile_cons_of_pos hc, ← moved_singleton hne, ih hrest,
          ← moved_append]
        rfl
      · rw [if_neg hc, List.takeWhile_cons_of_neg hc, moved_nil]

/-- No symbol is longer than the part of the text in which it is looked for. -/
theorem Leaves.find_symbol (h : Leaves chars k (c :: cs)) :
    (symbols.find? fun s => s.toList.isPrefixOf
        (slice chars k.index (min chars.size (k.index + 2)))) =
      symbols.find? fun s => s.toList.isPrefixOf (c :: cs) := by
  have hlength : ∀ s ∈ symbols, s.toList.length ≤ 2 := by decide
  have hsize : (c :: cs).length = chars.size - k.index := by
    rw [← h, List.length_drop, Array.length_toList]
  have hslice : slice chars k.index (min chars.size (k.index + 2)) = (c :: cs).take 2 := by
    unfold slice
    rw [Array.toList_extract, List.extract_eq_take_drop, h, List.take_eq_take_iff, hsize]
    omega
  refine List.find?_congr fun s hs => ?_
  rw [hslice, Bool.eq_iff_iff, List.isPrefixOf_iff_prefix, List.isPrefixOf_iff_prefix,
    List.prefix_take_iff]
  exact and_iff_left (hlength s hs)

theorem slice_skipWhile {p : Char → Bool} (hp : p '\n' = false) (h : Leaves chars k cs) :
    slice chars k.index (skipWhile chars p k).index = cs.takeWhile p := by
  have hsplit : Leaves chars k (cs.takeWhile p ++ cs.dropWhile p) := by
    rw [List.takeWhile_append_dropWhile]
    exact h
  rw [skipWhile_eq hp h, hsplit.slice_eq]

theorem le_of_commentLength {depth count n : Nat} (h : commentLength depth count cs = some n) :
    count ≤ n := by
  fun_induction commentLength depth count cs with
  | case1 => cases h
  | case2 depth count cs ih => exact (Nat.le_add_right count 2).trans (ih h)
  | case3 depth count cs hle => exact Option.some.inj h ▸ Nat.le_add_right count 2
  | case4 depth count cs hle ih => exact (Nat.le_add_right count 2).trans (ih h)
  | case5 depth count c cs hopen hclose ih => exact (Nat.le_succ count).trans (ih h)

theorem moved_take {count n : Nat} (hle : count + ds.length ≤ n) :
    k.moved ((ds ++ cs).take (n - count)) =
      (k.moved ds).moved (cs.take (n - (count + ds.length))) := by
  obtain ⟨m, rfl⟩ := Nat.exists_eq_add_of_le hle
  have hmore : count + ds.length + m - count = ds.length + m := by omega
  rw [← moved_append, hmore, List.take_length_add_append, Nat.add_sub_cancel_left]

/-- The counters behind a comment that goes on for a number of characters, `count` of which are read,
or the fault that it does not end. -/
def behindComment (opening : Position) (k : Counters) (count : Nat) (cs : List Char) :
    Option Nat → Except LexError Counters
  | some n => .ok (k.moved (cs.take (n - count)))
  | none => .error ⟨.unterminatedComment, .source opening (k.position.advance cs)⟩

theorem behindComment_moved {opening : Position} {count : Nat} {length? : Option Nat}
    (h : ∀ n, length? = some n → count + ds.length ≤ n) :
    behindComment opening (k.moved ds) (count + ds.length) cs length? =
      behindComment opening k count (ds ++ cs) length? := by
  cases length? with
  | none =>
      rw [behindComment, behindComment, advance_append]
      rfl
  | some n => rw [behindComment, behindComment, moved_take (h n rfl)]

theorem skipComment_eq {opening : Position} {depth : Nat} (hdepth : depth ≠ 0) (count : Nat)
    (h : Leaves chars k cs) : skipComment chars opening depth k =
      behindComment opening k count cs (commentLength depth count cs) := by
  fun_induction commentLength depth count cs generalizing k with
  | case1 =>
      rw [skipComment, dif_neg h.not_lt]
      rfl
  | case2 depth count cs ih =>
      have hrest : Leaves chars (k.moved ['(', '*']) cs := Leaves.moved h
      rw [skipComment, dif_pos h.lt]
      simp only [h.getElem_eq h.lt, h.next_eq, List.head?_cons]
      rw [if_pos (by decide)]
      exact (ih (Nat.succ_ne_zero depth) hrest).trans
        (behindComment_moved fun n hn => le_of_commentLength hn)
  | case3 depth count cs hle =>
      rw [skipComment, dif_pos h.lt]
      simp only [h.getElem_eq h.lt, h.next_eq, List.head?_cons]
      rw [if_neg (by decide), if_pos (by decide), if_pos (by omega), behindComment,
        Nat.add_sub_cancel_left]
      rfl
  | case4 depth count cs hle ih =>
      have hrest : Leaves chars (k.moved ['*', ')']) cs := Leaves.moved h
      rw [skipComment, dif_pos h.lt]
      simp only [h.getElem_eq h.lt, h.next_eq, List.head?_cons]
      rw [if_neg (by decide), if_pos (by decide), if_neg (by omega)]
      exact (ih (by omega) hrest).trans (behindComment_moved fun n hn => le_of_commentLength hn)
  | case5 depth count c cs hopen hclose ih =>
      have hrest : Leaves chars (k.moved [c]) cs := Leaves.moved h
      have hnext : ∀ d, cs.head? = some d → ∃ rest, cs = d :: rest := fun d hd =>
        List.head?_eq_some_iff.1 hd
      rw [skipComment, dif_pos h.lt]
      simp only [h.getElem_eq h.lt, h.next_eq, Bool.and_eq_true, decide_eq_true_eq]
      rw [if_neg fun hc => (hnext _ hc.2).elim fun rest hcs => hopen rest hc.1 hcs,
        if_neg fun hc => (hnext _ hc.2).elim fun rest hcs => hclose rest hc.1 hcs]
      have hone : (if c = '\n' then skipComment chars opening depth k.newline
          else skipComment chars opening depth (k.past 1)) =
            skipComment chars opening depth (k.moved [c]) := by
        split
        · next hc => rw [hc, moved_newline]
        · next hc => rw [moved_singleton hc]
      rw [hone]
      exact (ih hdepth hrest).trans (behindComment_moved fun n hn => le_of_commentLength hn)

theorem le_of_stringBody {opening pos : Position} {count n : Nat} {content : List Char}
    {text : String} (h : stringBody opening pos count content cs = .ok (n, text)) : count ≤ n := by
  fun_induction stringBody opening pos count content cs with
  | case1 => cases h
  | case2 pos count => 
      cases h
      exact Nat.le_succ count
  | case3 => cases h
  | case4 pos count content c rest d hescape ih => exact (Nat.le_add_right count 2).trans (ih h)
  | case5 => cases h
  | case6 pos count content c rest _ _ _ ih => exact (Nat.le_succ count).trans (ih h)

/-- What is read of a string behind some characters, where `count` characters were read before them. -/
theorem stringBody_moved {opening pos : Position} {count : Nat} {content : List Char} :
    (stringBody opening pos (count + ds.length) content cs).map
        (fun r => ((k.moved ds).moved (cs.take (r.1 - (count + ds.length))), r.2)) =
      (stringBody opening pos (count + ds.length) content cs).map
        fun r => (k.moved ((ds ++ cs).take (r.1 - count)), r.2) := by
  cases hbody : stringBody opening pos (count + ds.length) content cs with
  | error e => rfl
  | ok r => simp only [Except.map, moved_take (le_of_stringBody hbody)]

theorem readString_eq {opening : Position} {content : List Char} (count : Nat)
    (h : Leaves chars k cs) : readString chars opening content k =
      (stringBody opening k.position count content cs).map fun r =>
        (k.moved (cs.take (r.1 - count)), r.2) := by
  generalize hpos : k.position = pos
  fun_induction stringBody opening pos count content cs generalizing k with
  | case1 =>
      rw [readString, dif_neg h.not_lt, hpos]
      rfl
  | case2 pos count content rest =>
      rw [readString, dif_pos h.lt, h.getElem_eq h.lt]
      simp only [Except.map, Nat.add_sub_cancel_left, List.take_succ_cons, List.take_zero]
      rfl
  | case3 pos count content =>
      have hrest : Leaves chars (k.moved ['\\']) [] := Leaves.moved h
      rw [readString, dif_pos h.lt, h.getElem_eq h.lt, h.next_eq]
      simp only [List.head?_nil]
      rw [show k.past 1 = k.moved ['\\'] from rfl, readString, dif_neg hrest.not_lt, position_moved,
        hpos]
      rfl
  | case4 pos count content c rest d hescape ih =>
      have hc : c ≠ '\n' := by
        rintro rfl
        cases hescape
      have hrest : Leaves chars (k.moved ['\\', c]) rest := Leaves.moved h
      have hpast : k.moved ['\\', c] = k.past 2 := moved_line (by simp [hc])
      have hnext : (k.moved ['\\', c]).position = ⟨pos.line, pos.column + 2⟩ := by
        rw [hpast, ← hpos]
        rfl
      rw [readString, dif_pos h.lt, h.getElem_eq h.lt, h.next_eq]
      simp only [List.head?_cons, hescape]
      rw [← hpast]
      exact (ih hrest hnext).trans stringBody_moved
  | case5 pos count content c rest hescape =>
      rw [readString, dif_pos h.lt, h.getElem_eq h.lt, h.next_eq]
      simp only [List.head?_cons, hescape]
      subst hpos
      rfl
  | case6 pos count content c rest hquote hlast hslash ih =>
      have hrest : Leaves chars (k.moved [c]) rest := Leaves.moved h
      have hne : c ≠ '\\' := by
        intro hc
        cases rest with
        | nil => exact hlast hc rfl
        | cons d rest => exact hslash d rest hc rfl
      have hone : readString chars opening content k =
          readString chars opening (c :: content) (k.moved [c]) := by
        rw [readString, dif_pos h.lt, h.getElem_eq h.lt]
        split
        · exact absurd rfl hquote
        · exact absurd rfl hne
        · rw [moved_newline]
        · next hline => rw [moved_singleton hline]
      have hnext : (k.moved [c]).position = pos.next c := by
        rw [← hpos]
        rfl
      rw [hone]
      exact (ih hrest hnext).trans stringBody_moved

theorem skipComment_opening {opening : Position} (h : Leaves chars k ('(' :: '*' :: cs)) :
    skipComment chars opening 0 k =
      behindComment opening (k.moved ['(', '*']) 1 cs (commentLength 1 1 cs) := by
  have hrest : Leaves chars (k.moved ['(', '*']) cs := Leaves.moved h
  rw [skipComment, dif_pos h.lt]
  simp only [h.getElem_eq h.lt, h.next_eq, List.head?_cons]
  rw [if_pos (by decide)]
  exact skipComment_eq Nat.one_ne_zero 1 hrest

/-- The counters behind a piece, and the token that it is. -/
def behindPiece (k : Counters) (c : Char) (cs : List Char) (piece : Piece) :
    Counters × Option Token :=
  let after := k.moved (c :: cs.take piece.extra)
  (after, piece.token?.map fun word => ⟨word.1, word.2, .source k.position after.position⟩)

theorem isNameChar_newline : isNameChar '\n' = false := by decide +kernel

theorem over_cons_take {p : Char → Bool} :
    k.moved (c :: cs.take (cs.takeWhile p).length) = k.moved (c :: cs.takeWhile p) := by
  rw [take_length_takeWhile]

/-- A turn of the reading goes past a piece. -/
theorem turn_eq (h : Leaves chars k (c :: cs)) :
    turn chars k h.lt = (scan k.position c cs).map (behindPiece k c cs) := by
  unfold turn scan
  simp only [h.getElem_eq h.lt, h.next_eq]
  by_cases hline : c = '\n'
  · subst hline
    have hblank : Text.isBlank '\n' = true := by decide +kernel
    rw [if_pos rfl, if_pos hblank]
    rfl
  rw [if_neg hline]
  by_cases hblank : Text.isBlank c = true
  · rw [if_pos hblank, if_pos hblank, ← moved_singleton hline]
    rfl
  rw [if_neg hblank, if_neg hblank]
  by_cases hcomment : (decide (c = '-') && decide (cs.head? = some '-')) = true
  · rw [if_pos hcomment, if_pos hcomment, skipWhile_eq (by simp) h,
      List.takeWhile_cons_of_pos (by simpa using hline)]
    simp only [Except.map, behindPiece, Option.map_none, over_cons_take]
  rw [if_neg hcomment, if_neg hcomment]
  by_cases hblock : (decide (c = '(') && decide (cs.head? = some '*')) = true
  · rw [if_pos hblock, if_pos hblock]
    simp only [Bool.and_eq_true, decide_eq_true_eq] at hblock
    obtain ⟨rfl, rest, rfl⟩ : c = '(' ∧ ∃ rest, cs = '*' :: rest :=
      ⟨hblock.1, List.head?_eq_some_iff.1 hblock.2⟩
    rw [skipComment_opening h, List.tail_cons]
    cases hlength : commentLength 1 1 rest with
    | none => rfl
    | some n =>
        obtain ⟨m, rfl⟩ := Nat.exists_eq_add_of_le' (le_of_commentLength hlength)
        rw [behindComment, ← moved_append]
        rfl
  rw [if_neg hblock, if_neg hblock]
  by_cases hstring : c = '"'
  · subst hstring
    have hrest : Leaves chars (k.moved ['"']) cs := Leaves.moved h
    rw [if_pos rfl, if_pos rfl, show k.past 1 = k.moved ['"'] from rfl, readString_eq 0 hrest,
      position_moved, advance_cons, advance_nil]
    cases stringBody k.position (k.position.next '"') 0 [] cs with
    | error e => rfl
    | ok r => 
        simp only [Except.map, Nat.sub_zero, ← moved_append]
        rfl
  rw [if_neg hstring, if_neg hstring]
  by_cases hdigit : c.isDigit = true
  · have hdigits : (c :: cs).takeWhile Char.isDigit = c :: cs.takeWhile Char.isDigit :=
      List.takeWhile_cons_of_pos hdigit
    rw [if_pos hdigit, if_pos hdigit, slice_skipWhile (by decide) h, skipWhile_eq (by decide) h,
      hdigits]
    split
    · rfl
    · simp only [Except.map, behindPiece, List.length_cons, Nat.add_sub_cancel, over_cons_take,
        Option.map_some]
  rw [if_neg hdigit, if_neg hdigit]
  by_cases hvar : c = '\''
  · subst hvar
    have hrest : Leaves chars (k.moved ['\'']) cs := Leaves.moved h
    rw [if_pos rfl, if_pos rfl, show k.past 1 = k.moved ['\''] from rfl,
      slice_skipWhile isNameChar_newline hrest, skipWhile_eq isNameChar_newline hrest]
    cases hname : cs.takeWhile isNameChar with
    | nil =>
        rw [moved_nil, if_pos rfl]
        rfl
    | cons d name =>
        have hmore : ((k.moved ['\'']).moved (d :: name)).index ≠ (k.moved ['\'']).index := by
          simp
        rw [if_neg hmore, ← moved_append]
        simp only [Except.map, behindPiece, Option.map_some]
        rw [← hname, over_cons_take]
        rfl
  rw [if_neg hvar, if_neg hvar]
  by_cases hname : isNameStart c = true
  · have hnames : (c :: cs).takeWhile isNameChar = c :: cs.takeWhile isNameChar :=
      List.takeWhile_cons_of_pos (isNameChar_of_isNameStart hname)
    rw [if_pos hname, if_pos hname, slice_skipWhile isNameChar_newline h,
      skipWhile_eq isNameChar_newline h, hnames]
    simp only [Except.map, behindPiece, List.length_cons, Nat.add_sub_cancel, over_cons_take,
      Option.map_some]
  rw [if_neg hname, if_neg hname, h.find_symbol]
  cases hfind : symbols.find? fun s => s.toList.isPrefixOf (c :: cs) with
  | none => 
      rw [← moved_singleton hline]
      rfl
  | some s =>
      have hprefix : s.toList <+: c :: cs := by simpa using List.find?_some hfind
      have hsymbol : ∀ s ∈ symbols, s.length ≠ 0 ∧ '\n' ∉ s.toList := by decide
      obtain ⟨hlength, hnewline⟩ := hsymbol s (List.mem_of_find?_eq_some hfind)
      have htake : c :: cs.take (s.length - 1) = s.toList := by
        obtain ⟨n, hn⟩ := Nat.exists_eq_succ_of_ne_zero hlength
        rw [List.prefix_iff_eq_take.1 hprefix, String.length_toList, hn]
        rfl
      have hpast : k.past s.length = k.moved s.toList := by
        rw [moved_line fun c hc => ne_of_mem_of_not_mem hc hnewline, String.length_toList]
      simp only [Except.map, behindPiece, htake, hpast, String.ofList_toList, Option.map_some]

theorem readAll_eq (found : List Token) (h : Leaves chars k cs) :
    readAll chars found k = lexFrom k.position found cs := by
  induction hn : cs.length using Nat.strongRecOn generalizing cs k found with
  | ind n ih =>
      cases cs with
      | nil =>
          rw [readAll, dif_neg h.not_lt, lexFrom]
      | cons c cs =>
          have hturn := turn_eq h
          rw [readAll, dif_pos h.lt, lexFrom]
          cases hscan : scan k.position c cs with
          | error e =>
              rw [hscan] at hturn
              split
              · next e' he =>
                  cases he.symm.trans hturn
                  rfl
              · next he => cases he.symm.trans hturn
          | ok piece =>
              rw [hscan] at hturn
              split
              · next he => cases he.symm.trans hturn
              · next after token? he =>
                  cases he.symm.trans hturn
                  have hsplit : Leaves chars k
                      ((c :: cs.take piece.extra) ++ cs.drop piece.extra) := by
                    rw [List.cons_append, List.take_append_drop]
                    exact h
                  have hrest := hsplit.moved
                  have hshorter : (cs.drop piece.extra).length < n := by
                    rw [← hn, List.length_drop, List.length_cons]
                    omega
                  refine (ih _ hshorter _ hrest rfl).trans ?_
                  rcases piece with ⟨extra, _ | word⟩ <;> rfl

/-- The tokens of a text are those of its pieces. -/
theorem lex_eq (text : String) : lex text = lexFrom .start [] text.toList :=
  readAll_eq [] rfl

end FieldML.Token
