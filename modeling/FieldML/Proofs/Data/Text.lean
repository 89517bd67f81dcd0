import FieldML.Proofs.Reading.Lexeme
import FieldML.Proofs.Reading.Token
import FieldML.Text.Quoted

/-!
# Constants in print

A numeral is read as it is printed, and the sign before it as a word of its own. A string is read as
it is printed if it is legible: what cannot be seen, and a single quote, is printed by escapes that
the text of a program does not have.
-/

namespace FieldML

open Token

namespace Text

/-- Where it stands between the quotes, the character is printed as itself or by an escape that the
text of a program has, too. -/
def IsLegible (isFirst : Bool) (c : Char) : Prop :=
  c ≠ '\'' ∧ ((isFirst && graphemeExtend.mem c.toNat || invisible.mem c.toNat) = true →
    c = '\t' ∨ c = '\r' ∨ c = '\n')

instance (isFirst : Bool) (c : Char) : Decidable (IsLegible isFirst c) :=
  inferInstanceAs (Decidable (_ ∧ _))

/-- Each character, and whether it is the first one. -/
def marked : List Char → List (Bool × Char)
  | [] => []
  | c :: cs => (true, c) :: cs.map fun c => (false, c)

/-- All characters of the string are legible where they stand. -/
def Legible (s : String) : Prop := ∀ m ∈ marked s.toList, IsLegible m.1 m.2

instance (s : String) : Decidable (Legible s) :=
  inferInstanceAs (Decidable (∀ m ∈ marked s.toList, IsLegible m.1 m.2))

theorem map_snd_marked (cs : List Char) : (marked cs).map (·.2) = cs := by
  cases cs with
  | nil => rfl
  | cons c cs => simp [marked]

theorem toList_escape (s : String) :
    (escape s).toList = (marked s.toList).flatMap fun m => (escapeChar m.1 m.2).toList := by
  unfold escape
  cases s.toList with
  | nil => rfl
  | cons c cs => rw [String.toList_join, marked, List.flatMap_cons, List.flatMap_cons,
      List.flatMap_map, List.flatMap_map]

theorem isLegible_of_unescape (isFirst : Bool) {c : Char}
    (hc : c = '\\' ∨ c = '"' ∨ c = '\t' ∨ c = '\r' ∨ c = '\n') : IsLegible isFirst c := by
  rcases hc with rfl | rfl | rfl | rfl | rfl <;> cases isFirst <;> decide +kernel

/-- What is printed of a legible character stands for it in program text. -/
theorem decodes_escapeChar {isFirst : Bool} {c : Char} (h : IsLegible isFirst c) :
    Decodes (escapeChar isFirst c).toList [c] := by
  obtain ⟨htick, hvisible⟩ := h
  unfold escapeChar
  split
  · exact absurd (hvisible (by cases isFirst <;> decide +kernel)) (by decide)
  · exact .escape (c := 't') rfl .nil
  · exact .escape (c := 'r') rfl .nil
  · exact .escape (c := 'n') rfl .nil
  · exact .escape (c := '\\') rfl .nil
  · exact .escape (c := '"') rfl .nil
  · exact absurd rfl htick
  · next htab hreturn hline hslash hquote _ =>
    split
    · next hescaped =>
      rcases hvisible hescaped with rfl | rfl | rfl
      · exact absurd rfl htab
      · exact absurd rfl hreturn
      · exact absurd rfl hline
    · rw [Char.toString, String.toList_singleton]
      exact .char hquote hslash .nil

/-- Any other character is printed by an escape that program text has not. -/
theorem escapeChar_of_not_legible {isFirst : Bool} {c : Char} (h : ¬IsLegible isFirst c) :
    ∃ d ds, (escapeChar isFirst c).toList = '\\' :: d :: ds ∧ unescape d = none := by
  unfold escapeChar
  split
  · exact ⟨'0', [], rfl, rfl⟩
  · exact absurd (isLegible_of_unescape isFirst (by decide)) h
  · exact absurd (isLegible_of_unescape isFirst (by decide)) h
  · exact absurd (isLegible_of_unescape isFirst (by decide)) h
  · exact absurd (isLegible_of_unescape isFirst (by decide)) h
  · exact absurd (isLegible_of_unescape isFirst (by decide)) h
  · exact ⟨'\'', [], rfl, rfl⟩
  · next htick =>
    split
    · refine ⟨'u', '\x7b' :: ((hex c.toNat).toList ++ ['\x7d']), ?_, rfl⟩
      simp [escapeCode]
    · next hseen => exact absurd ⟨htick, fun hescaped => absurd hescaped hseen⟩ h

theorem decodes_append {body body' content content' : List Char} (h : Decodes body content)
    (h' : Decodes body' content') : Decodes (body ++ body') (content ++ content') := by
  induction h with
  | nil => exact h'
  | escape hc _ ih => exact .escape hc ih
  | char hquote hslash _ ih => exact .char hquote hslash ih

/-- What is printed of characters that are legible where they stand stands for them. -/
theorem decodes_marked {ms : List (Bool × Char)} (h : ∀ m ∈ ms, IsLegible m.1 m.2) :
    Decodes (ms.flatMap fun m => (escapeChar m.1 m.2).toList) (ms.map (·.2)) := by
  induction ms with
  | nil => exact .nil
  | cons m ms ih =>
      obtain ⟨hm, hms⟩ := List.forall_mem_cons.1 h
      exact decodes_append (decodes_escapeChar hm) (ih hms)

/-- The first character that is not legible ends what can be read of the others. -/
theorem exists_unknown_escape {ms : List (Bool × Char)} (h : ¬∀ m ∈ ms, IsLegible m.1 m.2) :
    ∃ body content d ds, (ms.flatMap fun m => (escapeChar m.1 m.2).toList) =
      body ++ '\\' :: d :: ds ∧ Decodes body content ∧ unescape d = none := by
  induction ms with
  | nil => exact absurd (List.forall_mem_nil _) h
  | cons m ms ih =>
      rw [List.flatMap_cons]
      by_cases hm : IsLegible m.1 m.2
      · obtain ⟨body, content, d, ds, hbody, hdecodes, hd⟩ :=
          ih fun hms => h (List.forall_mem_cons.2 ⟨hm, hms⟩)
        refine ⟨_, _, d, ds, ?_, decodes_append (decodes_escapeChar hm) hdecodes, hd⟩
        rw [hbody, List.append_assoc]
      · obtain ⟨d, ds, hescape, hd⟩ := escapeChar_of_not_legible hm
        refine ⟨[], [], d, ds ++ ms.flatMap fun m => (escapeChar m.1 m.2).toList, ?_, .nil, hd⟩
        rw [hescape]
        rfl

theorem isDigit_of_mem_repr {n : Nat} {d : Char} (hd : d ∈ n.repr.toList) : d.isDigit = true :=
  Nat.isDigit_of_mem_toDigits (by decide) (by decide) (Nat.toList_repr ▸ hd)

theorem natOfDigits_repr (n : Nat) : natOfDigits n.repr.toList = n := by
  rw [Nat.toList_repr]
  exact Nat.ofDigitChars_ten_toDigits

theorem toList_quoted (s : String) : (quoted s).toList = '"' :: ((escape s).toList ++ ['"']) := by
  simp [quoted]

end Text

namespace Token

variable {c : Char} {cs ds body content rest : List Char} {ws : List Word} {s : String} {n : Nat}

/-! ### Strings -/

/-- What stands for some characters is read, and the reading goes on behind it. -/
theorem stringBody_append (h : Decodes body content) (cs : List Char) (opening pos : Position)
    (count : Nat) (before : List Char) : ∃ pos', stringBody opening pos count before (body ++ cs) =
      stringBody opening pos' (count + body.length) (content.reverse ++ before) cs := by
  induction h generalizing pos count before with
  | nil => exact ⟨pos, rfl⟩
  | @escape c d body content hc _ ih =>
      obtain ⟨pos', hrest⟩ := ih ⟨pos.line, pos.column + 2⟩ (count + 2) (d :: before)
      refine ⟨pos', ?_⟩
      rw [List.cons_append, List.cons_append, stringBody, hc]
      dsimp only
      rw [hrest]
      congr 1
      · simp only [List.length_cons]
        omega
      · simp
  | @char c body content hquote hslash _ ih =>
      obtain ⟨pos', hrest⟩ := ih (pos.next c) (count + 1) (c :: before)
      refine ⟨pos', ?_⟩
      have hchar : stringBody opening pos count before (c :: (body ++ cs)) =
          stringBody opening (pos.next c) (count + 1) (c :: before) (body ++ cs) := by
        rw [stringBody]
        · exact hquote
        · exact fun hc _ => hslash hc
        · exact fun _ _ hc _ => hslash hc
      rw [List.cons_append, hchar, hrest]
      congr 1
      · simp only [List.length_cons]
        omega
      · simp

theorem lexes_string (h : Decodes body content) (hrest : Lexes rest ws) :
    Lexes ('"' :: (body ++ '"' :: rest)) ((.string, String.ofList content) :: ws) := by
  have hpiece : ∀ pos, scan pos '"' (body ++ '"' :: rest) =
      .ok ⟨body.length + 1, some (.string, String.ofList content)⟩ := by
    intro pos
    obtain ⟨pos', hbody⟩ := stringBody_append h ('"' :: rest) pos (pos.next '"') 0 []
    unfold scan
    rw [if_neg (by decide), if_neg (by simp), if_neg (by simp), if_pos rfl, hbody, stringBody]
    simp [bind, Except.bind, pure, Except.pure]
  have hdrop : Lexes ((body ++ '"' :: rest).drop (body.length + 1)) ws := by
    simpa using hrest
  exact lexes_piece hpiece hdrop

theorem writes_quoted (h : Text.Legible s) : Writes (Text.quoted s) [(.string, s)] where
  lexes {cs rest} _ hrest := by
    have hbody := Text.decodes_marked h
    rw [← Text.toList_escape, Text.map_snd_marked] at hbody
    have hlexes := lexes_string hbody hrest
    rw [String.ofList_toList] at hlexes
    rw [Text.toList_quoted]
    simpa using hlexes
  start := ⟨'"', _, Text.toList_quoted s, by decide⟩

/-- The printed form of a string has words if and only if the string is legible. -/
theorem lex_quoted_iff : (∃ tokens, lex (Text.quoted s) = .ok tokens) ↔ Text.Legible s := by
  constructor
  · rintro ⟨tokens, htokens⟩
    by_contra hs
    obtain ⟨body, content, d, ds, hescape, hbody, hd⟩ := Text.exists_unknown_escape hs
    rw [← Text.toList_escape] at hescape
    obtain ⟨pos, hstring⟩ := stringBody_append hbody ('\\' :: d :: (ds ++ ['"']))
      .start (Position.start.next '"') 0 []
    rw [stringBody, hd] at hstring
    rw [lex_eq, Text.toList_quoted, hescape, List.append_assoc, lexFrom, scan, if_neg (by decide),
      if_neg (by simp), if_neg (by simp), if_pos rfl] at htokens
    simp only [List.cons_append, hstring] at htokens
    cases htokens
  · intro hs
    have hlexes : Lexes (Text.quoted s).toList [(.string, s)] := by
      simpa using (writes_quoted hs).lexes (by simp [Stops]) lexes_nil
    obtain ⟨tokens, htokens, -⟩ := hlexes.lex
    exact ⟨tokens, htokens⟩

/-! ### Numerals -/

theorem ne_of_isDigit {d : Char} (hc : c.isDigit = true) (hd : d.isDigit = false) : c ≠ d := by
  rintro rfl
  rw [hc] at hd
  cases hd

theorem lexes_number (hne : ds ≠ []) (hds : ∀ d ∈ ds, d.isDigit = true)
    (hmax : Text.natOfDigits ds ≤ maxMagnitude) (hstop : Stops rest) (h : Lexes rest ws) :
    Lexes (ds ++ rest) ((.number, String.ofList ds) :: ws) := by
  obtain ⟨c, ds, rfl⟩ := List.exists_cons_of_ne_nil hne
  obtain ⟨hc, htail⟩ := List.forall_mem_cons.1 hds
  have htake : (ds ++ rest).takeWhile Char.isDigit = ds := by
    rw [List.takeWhile_append_of_pos htail]
    cases rest with
    | nil => rw [List.takeWhile_nil, List.append_nil]
    | cons d rest =>
        have hd : d.isDigit ≠ true := fun hd =>
          absurd (isNameChar_of_isDigit hd) (by simp [hstop d rfl])
        rw [List.takeWhile_cons_of_neg hd, List.append_nil]
  have hpiece : ∀ pos, scan pos c (ds ++ rest) =
      .ok ⟨ds.length, some (.number, String.ofList (c :: ds))⟩ := by
    intro pos
    have hblank := of_isDigit (P := fun c => ¬Text.isBlank c = true) (by decide +kernel) hc
    have hminus := ne_of_isDigit hc (by decide : '-'.isDigit = false)
    have hopen := ne_of_isDigit hc (by decide : '('.isDigit = false)
    have hquote := ne_of_isDigit hc (by decide : '"'.isDigit = false)
    unfold scan
    rw [if_neg hblank, if_neg (by simp [hminus]), if_neg (by simp [hopen]), if_neg hquote, if_pos hc]
    dsimp only
    rw [htake, if_neg (Nat.not_lt.2 hmax)]
    simp
  have hdrop : Lexes ((ds ++ rest).drop ds.length) ws := by
    rwa [List.drop_left]
  exact lexes_piece hpiece hdrop

theorem exists_toList_repr (n : Nat) : ∃ c cs, n.repr.toList = c :: cs ∧ c.isDigit = true := by
  have hne : n.repr.toList ≠ [] := Nat.toList_repr ▸ Nat.toDigits_ne_nil
  obtain ⟨c, cs, htext⟩ := List.exists_cons_of_ne_nil hne
  exact ⟨c, cs, htext, Text.isDigit_of_mem_repr (htext ▸ List.mem_cons_self)⟩

theorem writes_number (hmax : n ≤ maxMagnitude) : Writes n.repr [(.number, n.repr)] where
  lexes {cs rest} hstop h := by
    have hlexes := lexes_number (Nat.toList_repr ▸ Nat.toDigits_ne_nil)
      (fun d => Text.isDigit_of_mem_repr) ((Text.natOfDigits_repr n).symm ▸ hmax) hstop h
    rwa [String.ofList_toList] at hlexes
  start := by
    obtain ⟨c, cs, htext, hc⟩ := exists_toList_repr n
    exact ⟨c, cs, htext, ne_of_isDigit hc (by decide)⟩

/-- A minus sign before a numeral opens no comment and is no part of an arrow. -/
theorem writes_minus (hmax : n ≤ maxMagnitude) :
    Writes ("-" ++ n.repr) [(.symbol, "-"), (.number, n.repr)] where
  lexes {cs rest} hstop h := by
    obtain ⟨c, ds, htext, hc⟩ := exists_toList_repr n
    have hminus := ne_of_isDigit hc (by decide : '-'.isDigit = false)
    have harrow := ne_of_isDigit hc (by decide : '>'.isDigit = false)
    have hsymbol : symbols.find? (fun s => s.toList.isPrefixOf ('-' :: c :: (ds ++ cs))) =
        some "-" := by
      simp [symbols, Ne.symm harrow]
    have hpiece : ∀ pos, scan pos '-' (n.repr.toList ++ cs) = .ok ⟨0, some (.symbol, "-")⟩ := by
      intro pos
      rw [htext, List.cons_append]
      unfold scan
      rw [if_neg (by decide), if_neg (by simpa using hminus), if_neg (by simp), if_neg (by decide),
        if_neg (by decide), if_neg (by decide), if_neg (by decide)]
      rw [hsymbol]
      rfl
    have hlexes := lexes_piece hpiece ((writes_number hmax).lexes hstop h)
    simpa using hlexes
  start := ⟨'-', n.repr.toList, by simp, by decide⟩

/-- An integer is printed as a numeral, with a minus sign before it if it is negative. -/
theorem writes_int (i : Int64) :
    ¬i < 0 ∧ Writes (toString i.toInt) [(.number, toString i.toInt)] ∨
      i < 0 ∧ ∃ digits, toString i.toInt = "-" ++ digits ∧
        Writes (toString i.toInt) [(.symbol, "-"), (.number, digits)] := by
  have hle := Int64.minValue_le_toInt i
  have hge := Int64.toInt_le i
  have hmax : maxMagnitude = 9223372036854775808 := rfl
  rw [Int64.toInt_minValue] at hle
  rw [Int64.toInt_maxValue] at hge
  rw [Int64.lt_iff_toInt_lt, Int.toString_eq_repr]
  cases hi : i.toInt with
  | ofNat n =>
      rw [hi, Int.ofNat_eq_natCast] at hge
      exact Or.inl ⟨by simp, writes_number (by omega)⟩
  | negSucc n =>
      rw [hi] at hle
      exact Or.inr ⟨Int.negSucc_lt_zero n, _, rfl, writes_minus (by omega)⟩

end Token

namespace Text

variable {n : Nat}

theorem natOfDecimal?_repr (n : Nat) : natOfDecimal? n.repr.toList = some n := by
  have hds : ∀ d ∈ n.repr.toList, d.isDigit = true := fun d => isDigit_of_mem_repr
  rw [natOfDecimal?, if_pos ⟨Nat.toList_repr ▸ Nat.toDigits_ne_nil, List.all_eq_true.2 hds⟩,
    natOfDigits_repr]

theorem intOfDecimal?_toString (i : Int) : intOfDecimal? (toString i).toList = some i := by
  rw [Int.toString_eq_repr]
  cases i with
  | ofNat n =>
      have hds : ∀ d ∈ n.repr.toList, d.isDigit = true := fun d => isDigit_of_mem_repr
      rw [Int.repr, intOfDecimal?_of_digits hds, natOfDecimal?_repr]
      rfl
  | negSucc n =>
      have htext : (Int.negSucc n).repr.toList = '-' :: (n + 1).repr.toList := by
        rw [Int.repr, String.toList_append]
        rfl
      rw [htext, intOfDecimal?_minus, natOfDecimal?_repr]
      rfl

/-- Every integer is the value of its printed form. -/
theorem int64OfDecimal?_toString (i : Int64) : int64OfDecimal? (toString i.toInt) = some i := by
  have hle := Int64.minValue_le_toInt i
  have hge := Int64.toInt_le i
  rw [int64OfDecimal?, intOfDecimal?_toString, Option.bind_some, int64OfInt?, if_pos ⟨hle, hge⟩,
    Int64.ofInt_toInt]

end Text

end FieldML
