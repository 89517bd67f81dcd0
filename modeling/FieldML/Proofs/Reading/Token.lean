import FieldML.Proofs.Fields
import FieldML.Proofs.Place.Pieces

/-!
# Words of a text

What a text is read as, without the places of the words. A text is read from its end: each piece that
is put before a text puts at most one word before those of the text. A name ends where no character
follows that it may go on with, and no other piece of printed text depends on more than one
character after it.
-/

namespace FieldML

/-- A word without its place. -/
abbrev Word := TokenKind × String

namespace Token

/-- The token without its place. -/
def word (t : Token) : Word := (t.kind, t.text)

variable {c : Char} {cs rest : List Char} {ws : List Word} {kind : TokenKind} {name : String}

/-- The text is read as these words, from whatever position. -/
def Lexes (cs : List Char) (ws : List Word) : Prop :=
  ∀ pos found, ∃ ts, lexFrom pos found cs = .ok (found.reverse ++ ts) ∧
    ts.map word = ws ++ [(.eof, "")]

/-- No name goes on into the text. -/
def Stops (cs : List Char) : Prop := ∀ c ∈ cs.head?, isNameChar c = false

theorem Lexes.lex {text : String} (h : Lexes text.toList ws) :
    ∃ ts, lex text = .ok ts ∧ ts.map word = ws ++ [(.eof, "")] :=
  lex_eq text ▸ h .start []

theorem lexes_nil : Lexes [] [] := fun pos found =>
  ⟨[⟨.eof, "", .source pos pos⟩], by rw [lexFrom, List.reverse_cons], rfl⟩

theorem lexes_piece {piece : Piece} (hscan : ∀ pos, scan pos c cs = .ok piece)
    (hrest : Lexes (cs.drop piece.extra) ws) : Lexes (c :: cs) (piece.token?.toList ++ ws) := by
  intro pos found
  have hcut : ∀ found', (∃ ts, lexFrom (pos.advance (c :: cs.take piece.extra)) found'
      (cs.drop piece.extra) = .ok (found'.reverse ++ ts) ∧ ts.map word = ws ++ [(.eof, "")]) :=
    fun found' => hrest _ found'
  rw [lexFrom, hscan pos]
  simp only [bind, Except.bind]
  cases htoken : piece.token? with
  | none =>
      obtain ⟨ts, hlex, hwords⟩ := hcut found
      exact ⟨ts, hlex, hwords⟩
  | some w =>
      obtain ⟨kind, name⟩ := w
      let token : Token := ⟨kind, name, .source pos (pos.advance (c :: cs.take piece.extra))⟩
      obtain ⟨ts, hlex, hwords⟩ := hcut (token :: found)
      refine ⟨token :: ts, hlex.trans ?_, congrArg (token.word :: ·) hwords⟩
      rw [List.reverse_cons, List.append_assoc]
      rfl

theorem lexes_blank (h : Lexes cs ws) : Lexes (' ' :: cs) ws := by
  have hblank : ∀ pos, scan pos ' ' cs = .ok ⟨0, none⟩ := fun _ => rfl
  exact lexes_piece hblank h

theorem stops_blank (cs : List Char) : Stops (' ' :: cs) := by
  intro c hc
  obtain rfl := Option.some.inj hc
  rfl

/-! ### Names -/

/-- The text is one word of this sort, which stands for itself. -/
def Spells (kind : TokenKind) (name : String) : Prop :=
  ∃ c cs, name.toList = c :: cs ∧ scan .start c cs = .ok ⟨cs.length, some (kind, name)⟩

theorem of_isDigit {P : Char → Prop} (h : ∀ m < 10, P (Char.ofNat (48 + m)))
    (hc : c.isDigit = true) : P c := by
  have hbounds : 48 ≤ c.toNat ∧ c.toNat ≤ 57 := by
    simpa [Char.isDigit, UInt32.le_iff_toNat_le] using hc
  have hdigit := h (c.toNat - 48) (by omega)
  rwa [Nat.add_sub_cancel' hbounds.1, Char.ofNat_toNat] at hdigit

theorem isNameChar_of_isDigit (hc : c.isDigit = true) : isNameChar c = true :=
  of_isDigit (P := fun c => isNameChar c = true) (by decide +kernel) hc

/-- The sorts of words that a letter begins. -/
def IsNameKind (kind : TokenKind) : Prop := kind = .ident ∨ kind = .constructor ∨ kind = .keyword

theorem takeWhile_append_of_stops (hcs : ∀ c ∈ cs, isNameChar c = true) (hrest : Stops rest) :
    (cs ++ rest).takeWhile isNameChar = cs := by
  rw [List.takeWhile_append_of_pos hcs]
  cases rest with
  | nil => rw [List.takeWhile_nil, List.append_nil]
  | cons d rest => rw [List.takeWhile_cons_of_neg (by simpa using hrest d rfl), List.append_nil]

/-- What is known of the first character of a name and of those after it. -/
theorem name_of_scan {pos : Position} {n : Nat} (hkind : IsNameKind kind)
    (h : scan pos c cs = .ok ⟨n, some (kind, name)⟩) :
    Text.isBlank c = false ∧ c ≠ '"' ∧ c.isDigit = false ∧ isNameStart c = true ∧
      n = (cs.takeWhile isNameChar).length ∧ name = String.ofList (c :: cs.takeWhile isNameChar) ∧
      kind = kindOfName c name := by
  have hother : .string ≠ kind ∧ .number ≠ kind ∧ .typeVar ≠ kind ∧ .symbol ≠ kind := by
    rcases hkind with rfl | rfl | rfl <;> decide
  obtain ⟨hstring, hnumber, hvar, hsymbol⟩ := hother
  unfold scan at h
  split_ifs at h with hblank hline hcomment hquote hdigit htick hstart
  · simp at h
  · simp at h
  · split at h <;> simp at h
  · cases hbody : stringBody pos (pos.next c) 0 [] cs with
    | error e => simp [hbody, bind, Except.bind] at h
    | ok r => simp [hbody, hstring, bind, Except.bind, pure, Except.pure] at h
  · dsimp only at h
    split_ifs at h
    simp [hnumber] at h
  · split at h <;> simp [hvar] at h
  · simp only [Except.ok.injEq, Piece.mk.injEq, Option.some.injEq, Prod.mk.injEq] at h
    obtain ⟨rfl, rfl, rfl⟩ := h
    simp_all
  · split at h <;> simp [hsymbol] at h

/-- A name is read wherever it stands before a text into which it does not go on. -/
theorem lexes_name (hname : Spells kind name) (hkind : IsNameKind kind) (hstop : Stops rest)
    (h : Lexes rest ws) : Lexes (name.toList ++ rest) ((kind, name) :: ws) := by
  obtain ⟨c, cs, htext, hscan⟩ := hname
  obtain ⟨hblank, hquote, hdigit, hstart, hlength, hspell, hsort⟩ := name_of_scan hkind hscan
  have hcs : cs.takeWhile isNameChar = cs :=
    (List.takeWhile_prefix _).eq_of_length hlength.symm
  have hall : ∀ d ∈ cs, isNameChar d = true := List.takeWhile_eq_self_iff.1 hcs
  have hnames := takeWhile_append_of_stops hall hstop
  have hminus : c ≠ '-' := by
    rintro rfl
    cases hstart
  have hopen : c ≠ '(' := by
    rintro rfl
    cases hstart
  have htick : c ≠ '\'' := by
    rintro rfl
    cases hstart
  have hpiece : ∀ pos, scan pos c (cs ++ rest) = .ok ⟨cs.length, some (kind, name)⟩ := by
    intro pos
    unfold scan
    simp only [hblank, hminus, hopen, hquote, hdigit, htick, hstart, hnames, decide_false,
      Bool.false_and, if_true, if_false, Bool.false_eq_true, List.length_cons, Nat.add_sub_cancel]
    rw [hsort, hspell, hcs]
  rw [htext, List.cons_append]
  have hdrop : Lexes ((cs ++ rest).drop cs.length) ws := by
    rwa [List.drop_left]
  exact lexes_piece hpiece hdrop

/-- Of a type variable only the name behind the quote is kept. -/
theorem lexes_typeVar (hname : name.toList ≠ []) (hall : ∀ c ∈ name.toList, isNameChar c = true)
    (hstop : Stops rest) (h : Lexes rest ws) :
    Lexes ('\'' :: (name.toList ++ rest)) ((.typeVar, name) :: ws) := by
  have hnames := takeWhile_append_of_stops hall hstop
  have hpiece : ∀ pos, scan pos '\'' (name.toList ++ rest) =
      .ok ⟨name.toList.length, some (.typeVar, name)⟩ := by
    intro pos
    obtain ⟨c, cs, hlist⟩ := List.exists_cons_of_ne_nil hname
    unfold scan
    rw [if_neg (by decide), if_neg (by simp), if_neg (by simp), if_neg (by decide),
      if_neg (by decide), if_pos rfl, hnames, ← String.ofList_toList (s := name), hlist]
    simp
  have hdrop : Lexes ((name.toList ++ rest).drop name.toList.length) ws := by
    rwa [List.drop_left]
  exact lexes_piece hpiece hdrop

/-! ### Symbols -/

/-- An opening parenthesis, unless it opens a comment. -/
theorem lexes_open (hcs : cs.head? ≠ some '*') (h : Lexes cs ws) :
    Lexes ('(' :: cs) ((.symbol, "(") :: ws) := by
  have hopen : ∀ pos, scan pos '(' cs = .ok ⟨0, some (.symbol, "(")⟩ := by
    intro pos
    unfold scan
    rw [if_neg (by decide), if_neg (by simp), if_neg (by simpa using hcs)]
    rfl
  exact lexes_piece hopen h

/-- A character that is a symbol whatever follows it. -/
def IsSymbol (c : Char) (s : String) : Prop :=
  isNameChar c = false ∧ ∀ pos cs, scan pos c cs = .ok ⟨0, some (.symbol, s)⟩

theorem IsSymbol.lexes {s : String} (hc : IsSymbol c s) (h : Lexes cs ws) :
    Lexes (c :: cs) ((.symbol, s) :: ws) :=
  lexes_piece (fun pos => hc.2 pos cs) h

theorem IsSymbol.stops {s : String} (hc : IsSymbol c s) (cs : List Char) : Stops (c :: cs) := by
  intro d hd
  obtain rfl := Option.some.inj hd
  exact hc.1

theorem isSymbol_close : IsSymbol ')' ")" := ⟨rfl, fun _ _ => rfl⟩

theorem isSymbol_openBracket : IsSymbol '[' "[" := ⟨rfl, fun _ _ => rfl⟩

theorem isSymbol_closeBracket : IsSymbol ']' "]" := ⟨rfl, fun _ _ => rfl⟩

theorem isSymbol_openBrace : IsSymbol '\x7b' "\x7b" := ⟨rfl, fun _ _ => rfl⟩

theorem isSymbol_closeBrace : IsSymbol '\x7d' "\x7d" := ⟨rfl, fun _ _ => rfl⟩

/-- Between two texts the separator ends the first one and is read as one word. -/
structure Separates (sep : String) (w : Word) : Prop where
  stops : ∀ cs, Stops (sep.toList ++ cs)
  lexes : ∀ {cs ws}, Lexes cs ws → Lexes (sep.toList ++ cs) (w :: ws)

theorem separates_comma : Separates ", " (.symbol, ",") where
  stops _ := IsSymbol.stops (s := ",") ⟨rfl, fun _ _ => rfl⟩ _
  lexes h := IsSymbol.lexes ⟨rfl, fun _ _ => rfl⟩ (lexes_blank h)

/-- A symbol with blank space around it. -/
theorem separates_spaced {sep s : String} (c : Char) (cs : List Char)
    (hsep : sep.toList = ' ' :: c :: (cs ++ [' ']))
    (hscan : ∀ pos rest, scan pos c (cs ++ ' ' :: rest) = .ok ⟨cs.length, some (.symbol, s)⟩) :
    Separates sep (.symbol, s) := by
  refine ⟨fun rest => hsep ▸ stops_blank _, fun {rest ws} h => ?_⟩
  have htext : sep.toList ++ rest = ' ' :: c :: (cs ++ ' ' :: rest) := by
    rw [hsep]
    simp
  rw [htext]
  have hdrop : Lexes ((cs ++ ' ' :: rest).drop cs.length) ws := by
    rw [List.drop_left]
    exact lexes_blank h
  exact lexes_blank (lexes_piece (fun pos => hscan pos rest) hdrop)

theorem separates_arrow : Separates " -> " (.symbol, "->") :=
  separates_spaced '-' ['>'] rfl fun _ _ => rfl

theorem separates_star : Separates " * " (.symbol, "*") :=
  separates_spaced '*' [] rfl fun _ _ => rfl

theorem separates_cons : Separates " :: " (.symbol, "::") :=
  separates_spaced ':' [':'] rfl fun _ _ => rfl

theorem separates_colon : Separates " : " (.symbol, ":") :=
  separates_spaced ':' [] rfl fun _ _ => rfl

theorem separates_equals : Separates " = " (.symbol, "=") :=
  separates_spaced '=' [] rfl fun _ _ => rfl

/-! ### Texts of several words -/

/-- The text is read as these words wherever no name goes on after it, also behind an opening
parenthesis. -/
structure Writes (text : String) (ws : List Word) : Prop where
  lexes : ∀ {cs rest}, Stops cs → Lexes cs rest → Lexes (text.toList ++ cs) (ws ++ rest)
  start : ∃ c cs, text.toList = c :: cs ∧ c ≠ '*'

variable {a b : String} {ws' : List Word}

theorem writes_name (hname : Spells kind name) (hkind : IsNameKind kind) :
    Writes name [(kind, name)] := by
  refine ⟨fun hstop h => lexes_name hname hkind hstop h, ?_⟩
  obtain ⟨c, cs, htext, hscan⟩ := hname
  obtain ⟨-, -, -, hstart, -⟩ := name_of_scan hkind hscan
  refine ⟨c, cs, htext, ?_⟩
  rintro rfl
  cases hstart

theorem Writes.start_append (ha : Writes a ws) (cs : List Char) :
    ∃ c cs', a.toList ++ cs = c :: cs' ∧ c ≠ '*' := by
  obtain ⟨c, cs', htext, hc⟩ := ha.start
  exact ⟨c, cs' ++ cs, by rw [htext, List.cons_append], hc⟩

theorem Writes.separated {sep : String} {w : Word} (ha : Writes a ws) (hsep : Separates sep w)
    (hb : Writes b ws') : Writes (a ++ sep ++ b) (ws ++ w :: ws') where
  lexes {cs rest} hstop h := by
    have hrest := ha.lexes (hsep.stops (b.toList ++ cs)) (hsep.lexes (hb.lexes hstop h))
    simpa [List.append_assoc] using hrest
  start := by
    rw [String.toList_append, String.toList_append, List.append_assoc]
    exact ha.start_append _

theorem Writes.spaced (ha : Writes a ws) (hb : Writes b ws') :
    Writes (a ++ " " ++ b) (ws ++ ws') where
  lexes {cs rest} hstop h := by
    have hrest := ha.lexes (stops_blank (b.toList ++ cs)) (lexes_blank (hb.lexes hstop h))
    simpa [List.append_assoc] using hrest
  start := by
    rw [String.toList_append, String.toList_append, List.append_assoc]
    exact ha.start_append _

theorem Writes.parens (ha : Writes a ws) :
    Writes ("(" ++ a ++ ")") ((.symbol, "(") :: (ws ++ [(.symbol, ")")])) where
  lexes {cs rest} hstop h := by
    have hinside := ha.lexes (isSymbol_close.stops cs) (isSymbol_close.lexes h)
    obtain ⟨c, cs', htext, hc⟩ := ha.start
    have hopen : (a.toList ++ ')' :: cs).head? ≠ some '*' := by
      rw [htext]
      simpa using hc
    have hrest := lexes_open hopen hinside
    simpa [List.append_assoc] using hrest
  start := ⟨'(', a.toList ++ [')'], by simp, by decide⟩

theorem Writes.brackets (ha : Writes a ws) :
    Writes ("[" ++ a ++ "]") ((.symbol, "[") :: (ws ++ [(.symbol, "]")])) where
  lexes {cs rest} hstop h := by
    have hinside := ha.lexes (isSymbol_closeBracket.stops cs) (isSymbol_closeBracket.lexes h)
    have hrest := isSymbol_openBracket.lexes hinside
    simpa [List.append_assoc] using hrest
  start := ⟨'[', a.toList ++ [']'], by simp, by decide⟩

theorem Writes.braces (ha : Writes a ws) :
    Writes ("\x7b" ++ a ++ "\x7d") ((.symbol, "\x7b") :: (ws ++ [(.symbol, "\x7d")])) where
  lexes {cs rest} hstop h := by
    have hinside := ha.lexes (isSymbol_closeBrace.stops cs) (isSymbol_closeBrace.lexes h)
    have hrest := isSymbol_openBrace.lexes hinside
    simpa [List.append_assoc] using hrest
  start := ⟨'\x7b', a.toList ++ ['\x7d'], by simp, by decide⟩

theorem writes_parens_nil : Writes "()" [(.symbol, "("), (.symbol, ")")] where
  lexes _ h := lexes_open (fun hstar => nomatch hstar) (isSymbol_close.lexes h)
  start := ⟨_, _, rfl, by decide⟩

theorem writes_brackets_nil : Writes "[]" [(.symbol, "["), (.symbol, "]")] where
  lexes _ h := isSymbol_openBracket.lexes (isSymbol_closeBracket.lexes h)
  start := ⟨_, _, rfl, by decide⟩

theorem writes_braces_nil : Writes "\x7b\x7d" [(.symbol, "\x7b"), (.symbol, "\x7d")] where
  lexes _ h := isSymbol_openBrace.lexes (isSymbol_closeBrace.lexes h)
  start := ⟨_, _, rfl, by decide⟩

/-- The words of some texts, each with a separator before it. -/
def separated (sep : Word) (items : List (List Word)) : List Word :=
  items.flatMap fun ws => sep :: ws

/-- The words of some texts with separators between them. -/
def listed (sep : Word) : List (List Word) → List Word
  | [] => []
  | ws :: items => ws ++ separated sep items

theorem writes_intercalate {sep : String} {w : Word} {texts : List String} {wss : List (List Word)}
    (hsep : Separates sep w) (ha : Writes a ws) (htexts : List.Forall₂ Writes texts wss) :
    Writes (sep.intercalate (a :: texts)) (listed w (ws :: wss)) := by
  unfold listed
  induction htexts generalizing a ws with
  | nil => simpa [separated] using ha
  | cons hb hrest ih =>
      rw [String.intercalate_cons_cons]
      have htail := ih hb
      have hboth := ha.separated hsep htail
      simpa [separated, listed] using hboth

end Token

end FieldML
