import FieldML.Proofs.Parser.Chain
import FieldML.Proofs.Parser.Recursion

/-!
# Opening symbols

Every opening parenthesis and bracket and every exclamation mark opens one more nested form. An
opening brace does not: the record that is changed is read on the level of the brace. So it is the
levels and the braces together that bound how deep the parser goes.
-/

namespace FieldML

/-- The token opens a form that can begin with an expression. -/
def Token.IsOpener (t : Token) : Prop :=
  t.kind = .symbol ∧ t.text ∈ ["(", "[", "!", "\x7b"]

/-- The form that the token opens counts as nested. -/
def Token.isCounted (t : Token) : Bool := t.text ≠ "\x7b"

namespace Cursor

variable {s : Cursor} {t : Token} {rest : List Token} {text : String}

/-- What comes next is an opening symbol or the end. -/
def AtOpener (s : Cursor) : Prop := ∀ t ∈ s.rest.head?, t.IsOpener

theorem found_of_rest (h : s.rest = t :: rest) : s.found = some t.text := by
  rw [found, h]
  rfl

theorem atOpener_cons (h : s.rest = t :: rest) (ht : t.IsOpener) : s.AtOpener := by
  intro u hu
  rw [h, List.head?_cons, Option.mem_some] at hu
  exact hu ▸ ht

namespace AtOpener

theorem peek (h : s.AtOpener) : s.peek.kind = .eof ∨ s.peek.IsOpener := by
  cases hrest : s.rest with
  | nil =>
      rw [Cursor.peek, hrest]
      exact Or.inl rfl
  | cons t rest =>
      rw [Parser.peek_of_rest hrest]
      exact Or.inr (h t (by rw [hrest, List.head?_cons, Option.mem_some]))

theorem kind_ne (h : s.AtOpener) (kind : TokenKind) (hend : kind ≠ .eof) (hkind : kind ≠ .symbol) :
    s.peek.kind ≠ kind := by
  rintro rfl
  rcases h.peek with hpeek | ⟨hpeek, -⟩
  · exact hend hpeek
  · exact hkind hpeek

theorem isWord_keyword (h : s.AtOpener) : s.peek.isWord .keyword text = false := by
  simp [Token.isWord, h.kind_ne .keyword (by decide) (by decide)]

theorem isWord_symbol (h : s.AtOpener) (htext : text ∉ ["(", "[", "!", "\x7b"]) :
    s.peek.isWord .symbol text = false := by
  rcases h.peek with hpeek | ⟨-, hmem⟩
  · simp [Token.isWord, hpeek]
  · have hne : s.peek.text ≠ text := fun heq => htext (heq ▸ hmem)
    simp [Token.isWord, hne]

end AtOpener

end Cursor

namespace Parser

variable {α β : Type} {p : Parser α} {f : α → Parser β} {s : Cursor} {g : Grammar} {e : ParseError}
  {t : Token} {rest : List Token}

/-- The parser fails with this fault, or for want of fuel. -/
def Raises (e : ParseError) (p : Parser α) (s : Cursor) : Prop :=
  ∃ fault, p s = .error fault ∧ (fault = e ∨ fault.cause = .outOfFuel)

theorem Raises.bind (hp : Raises e p s) : Raises e (p >>= f) s := by
  obtain ⟨fault, hrun, hfault⟩ := hp
  exact ⟨fault, by rw [bind_apply, hrun], hfault⟩

theorem Raises.closing (hp : Raises e p s) : Raises e (closing p) s := by
  obtain ⟨fault, hrun, hfault⟩ := hp
  exact ⟨fault, by rw [closing_apply, hrun], hfault⟩

theorem Raises.nested (hdepth : s.depth < maxNesting)
    (hp : Raises e p { s with depth := s.depth + 1 }) : Raises e (nested p) s := by
  refine Raises.closing ?_
  obtain ⟨fault, hrun, hfault⟩ := hp
  refine ⟨fault, ?_, hfault⟩
  rw [bind_apply, descend_apply, if_neg (Nat.not_le.2 hdepth)]
  exact hrun

theorem raises_nested_of_full (hdepth : maxNesting ≤ s.depth) :
    Raises ⟨.nestedTooDeeply s.found, s.peek.range⟩ (nested p) s := by
  refine Raises.closing (Raises.bind ⟨_, ?_, Or.inl rfl⟩)
  rw [descend_apply, if_pos hdepth]

theorem raises_stuck : Raises e (stuck : Parser α) s := ⟨_, rfl, Or.inr rfl⟩

theorem raises_peek_bind {f : Token → Parser β} (hf : Raises e (f s.peek) s) :
    Raises e (peek >>= f) s := hf

theorem raises_get_bind {f : Cursor → Parser β} (hf : Raises e (f s) s) :
    Raises e (get >>= f) s := hf

theorem raises_advance_bind {f : Token → Parser β} (hf : Raises e (f s.peek) s.advance) :
    Raises e (advance >>= f) s := hf

theorem raises_nextIs_bind {kind : TokenKind} {f : Bool → Parser β}
    (hf : Raises e (f (decide (s.peek.kind = kind))) s) : Raises e (nextIs kind >>= f) s := hf

theorem raises_nextIsSymbol_bind {text : String} {f : Bool → Parser β}
    (hf : Raises e (f (s.peek.isWord .symbol text)) s) :
    Raises e (nextIsSymbol text >>= f) s := hf

theorem raises_nextIsKeyword_bind {text : String} {f : Bool → Parser β}
    (hf : Raises e (f (s.peek.isWord .keyword text)) s) :
    Raises e (nextIsKeyword text >>= f) s := hf

/-! ### From a statement to its first atom -/

theorem raises_access (h : Raises e (atom g) s) : Raises e (access g) s := h.bind.closing

theorem raises_assignment (hs : s.AtOpener) (h : Raises e (atom g) s) :
    Raises e (assignment g) s := by
  have happ : Raises e (application g) s := by
    refine raises_nextIs_bind ?_
    rw [decide_eq_false (hs.kind_ne .constructor (by decide) (by decide))]
    exact (raises_access h).bind.closing
  have hunary : Raises e (unary g) s := by
    refine raises_nextIsSymbol_bind ?_
    rw [hs.isWord_symbol (by decide)]
    refine raises_nextIsKeyword_bind ?_
    rw [hs.isWord_keyword]
    exact happ
  exact Raises.bind (Raises.closing hunary.bind)

theorem raises_statement (hs : s.AtOpener) (hdepth : s.depth < maxNesting)
    (h : Raises e (atom g) { s with depth := s.depth + 1 }) : Raises e (statement g) s := by
  refine Raises.nested hdepth ?_
  have hnext : ∀ text, ({ s with depth := s.depth + 1 } : Cursor).peek.isWord .keyword text = false :=
    fun _ => hs.isWord_keyword
  refine raises_nextIsKeyword_bind ?_
  rw [hnext]
  refine raises_nextIsKeyword_bind ?_
  rw [hnext]
  refine raises_nextIsKeyword_bind ?_
  rw [hnext]
  refine raises_nextIsKeyword_bind ?_
  rw [hnext]
  exact raises_assignment hs h

/-! ### One opening symbol -/

theorem raises_recordForm {start : Range} (hs : s.AtOpener) (h : Raises e g.access s) :
    Raises e (recordForm g start) s := by
  refine raises_get_bind (raises_nextIsSymbol_bind ?_)
  rw [hs.isWord_symbol (by decide), Bool.or_false, if_neg]
  · exact h.bind
  · split
    · next first second after heq =>
        have hfirst : first.kind = .symbol := (hs first (by rw [heq]; rfl)).1
        simp [hfirst]
    · exact Bool.false_ne_true

/-- An atom that begins with an opening symbol fails as what comes behind that symbol does. -/
theorem raises_atom (hrest : s.rest = t :: rest) (ht : t.IsOpener)
    (hs : s.advance.AtOpener)
    (hexpr : t.isCounted → Raises e g.expr s.advance)
    (hatom : t.isCounted → Raises e (nested g.atom) s.advance)
    (haccess : t.isCounted = false → Raises e g.access s.advance) :
    Raises e (atom g) s := by
  obtain ⟨hkind, htext⟩ := ht
  have hpeek := peek_of_rest hrest
  refine raises_peek_bind ?_
  rw [hpeek, hkind]
  dsimp only
  simp only [List.mem_cons, List.not_mem_nil, or_false] at htext
  rcases htext with htext | htext | htext | htext
  · rw [if_neg (by simp [htext]), if_pos htext]
    refine raises_advance_bind (raises_nextIsSymbol_bind ?_)
    rw [hs.isWord_symbol (by decide)]
    exact (hexpr (by simp [Token.isCounted, htext])).bind
  · rw [if_neg (by simp [htext]), if_neg (by simp [htext]), if_pos htext]
    refine raises_advance_bind (Raises.bind (raises_nextIsSymbol_bind ?_))
    rw [hs.isWord_symbol (by decide)]
    exact Raises.bind (hexpr (by simp [Token.isCounted, htext]))
  · rw [if_pos htext]
    exact raises_advance_bind (hatom (by simp [Token.isCounted, htext])).bind
  · rw [if_neg (by simp [htext]), if_neg (by simp [htext]), if_neg (by simp [htext]), if_pos htext]
    exact raises_advance_bind (raises_recordForm hs (haccess (by simp [Token.isCounted, htext])))

/-! ### Many opening symbols -/

theorem raises_grammar_atom (h : ∀ n, Raises e (atom (grammar n)) s) (n : Nat) :
    Raises e (grammar n).atom s := by
  cases n with
  | zero => exact raises_stuck
  | succ n => exact h n

theorem raises_grammar_access (h : ∀ n, Raises e (atom (grammar n)) s) (n : Nat) :
    Raises e (grammar n).access s := by
  cases n with
  | zero => exact raises_stuck
  | succ n => exact raises_access (h n)

theorem raises_grammar_expr (h : ∀ n, Raises e (statement (grammar n)) s) (n : Nat) :
    Raises e (grammar n).expr s := by
  cases n with
  | zero => exact raises_stuck
  | succ n => exact (h n).bind

/-- Opening symbols are read as long as there is room for the nested forms that they open. -/
theorem raises_openers {openers : List Token} (hopeners : ∀ t ∈ openers, t.IsOpener)
    (hnext : ∀ t ∈ rest.head?, t.IsOpener) (hrest : s.rest = openers ++ rest)
    (hroom : s.depth + openers.countP Token.isCounted ≤ maxNesting)
    (hlast : ∀ n (s' : Cursor), s'.rest = rest → s'.stop = s.stop →
      s'.depth = s.depth + openers.countP Token.isCounted → Raises e (atom (grammar n)) s')
    (n : Nat) : Raises e (atom (grammar n)) s := by
  induction openers generalizing s n with
  | nil => exact hlast n s hrest rfl rfl
  | cons t openers ih =>
      obtain ⟨ht, hopeners⟩ := List.forall_mem_cons.1 hopeners
      have hadvance : s.advance = { s with rest := openers ++ rest, previous := t.range } := by
        rw [Cursor.advance, hrest]
        rfl
      have hat : s.advance.AtOpener := by
        rw [hadvance]
        cases openers with
        | nil => exact hnext
        | cons u openers => exact Cursor.atOpener_cons rfl (hopeners u List.mem_cons_self)
      -- A symbol that counts leaves the rest on the next level.
      have hcounted : t.isCounted → s.depth < maxNesting ∧
          ∀ n, Raises e (atom (grammar n)) { s.advance with depth := s.advance.depth + 1 } := by
        intro ht
        rw [List.countP_cons_of_pos ht] at hroom hlast
        refine ⟨by omega, ih hopeners (by rw [hadvance]) ?_ ?_⟩
        · rw [hadvance]
          dsimp only
          omega
        · intro n s' hrest' hstop hdepth
          rw [hadvance] at hstop hdepth
          exact hlast n s' hrest' hstop (by rw [hdepth]; dsimp only; omega)
      have huncounted : t.isCounted = false → ∀ n, Raises e (atom (grammar n)) s.advance := by
        intro ht
        rw [List.countP_cons_of_neg (by simp [ht])] at hroom hlast
        refine ih hopeners (by rw [hadvance]) (by rw [hadvance]; exact hroom) ?_
        intro n s' hrest' hstop hdepth
        rw [hadvance] at hstop hdepth
        exact hlast n s' hrest' hstop hdepth
      have hdepth : s.advance.depth = s.depth := by rw [hadvance]
      refine raises_atom hrest ht hat (fun ht => ?_) (fun ht => ?_) fun ht => ?_
      · obtain ⟨hless, h⟩ := hcounted ht
        exact raises_grammar_expr (fun n => raises_statement hat (hdepth ▸ hless) (h n)) n
      · obtain ⟨hless, h⟩ := hcounted ht
        exact Raises.nested (hdepth ▸ hless) (raises_grammar_atom h n)
      · exact raises_grammar_access (huncounted ht) n

/-- On the deepest level no further form is opened. -/
theorem raises_atom_of_full {last : Token} (hrest : s.rest = last :: t :: rest)
    (hlast : last.IsOpener) (hcounted : last.isCounted) (ht : t.IsOpener)
    (hdepth : maxNesting ≤ s.depth) (n : Nat) :
    Raises ⟨.nestedTooDeeply (some t.text), t.range⟩ (atom (grammar n)) s := by
  have hadvance : s.advance = { s with rest := t :: rest, previous := last.range } := by
    rw [Cursor.advance, hrest]
  have hafter : s.advance.rest = t :: rest := by rw [hadvance]
  have hfull : maxNesting ≤ s.advance.depth := by rwa [hadvance]
  rw [← Cursor.found_of_rest hafter, ← peek_of_rest hafter]
  refine raises_atom hrest hlast (Cursor.atOpener_cons hafter ht) (fun _ => ?_) (fun _ => ?_)
    fun h => absurd hcounted (by simp [h])
  · exact raises_grammar_expr (fun n => raises_nested_of_full hfull) n
  · exact raises_nested_of_full hfull

theorem raises_atom_end (hrest : s.rest = []) (n : Nat) :
    Raises ⟨.expected "an expression" none, s.stop⟩ (atom (grammar n)) s := by
  have hpeek : s.peek = ⟨.eof, "", s.stop⟩ := by
    rw [Cursor.peek, hrest]
    rfl
  refine raises_peek_bind ?_
  rw [hpeek]
  refine ⟨_, rfl, Or.inl ?_⟩
  rw [hpeek, Cursor.found, hrest]
  rfl

/-! ### Whole programs -/

theorem loop_of_none {step : α → Parser (Option α)} {a : α} (h : step a s = .ok (none, s)) :
    loop step a s = .ok (a, s) := by
  have hloop : loop step a s = steps step (s.rest.length + 1) a s := rfl
  rw [hloop, steps, bind_apply, h]
  rfl

theorem raises_wholeProgram (hs : s.AtOpener) (h : Raises e (expr g) s) :
    Raises e (wholeProgram g) s := by
  have hskip : skipKeyword "type" s = .ok (false, s) := skipKeyword_of_not hs.isWord_keyword
  refine Raises.bind ?_
  obtain ⟨fault, hrun, hfault⟩ := Raises.bind (f := fun body => pure (Program.mk [] body)) h
  refine ⟨fault, ?_, hfault⟩
  unfold program
  rw [bind_apply, loop_of_none (by rw [bind_apply, hskip]; rfl)]
  exact hrun

end Parser

open FieldML.Parser

namespace Program

variable {openers rest : List Token} {t : Token} {e : ParseError}

theorem depth_ofTokens (tokens : List Token) : (Cursor.ofTokens tokens).depth = 0 := rfl

/-- What the first atom raises is the outcome, since a whole parse has enough fuel. -/
theorem ofTokens_of_raises {tokens : List Token} (hs : (Cursor.ofTokens tokens).AtOpener)
    (h : ∀ n, Raises e (atom (grammar n)) { Cursor.ofTokens tokens with depth := 1 }) :
    ofTokens tokens = .error e := by
  have hdepth : (Cursor.ofTokens tokens).depth < maxNesting := by
    rw [depth_ofTokens]
    decide
  obtain ⟨fault, hrun, hfault⟩ := raises_wholeProgram hs
    (Raises.bind (raises_statement hs hdepth (h ((Cursor.ofTokens tokens).rest.length + 1))))
  have herror : ofTokens tokens = .error fault := by
    unfold ofTokens
    dsimp only [bind, Except.bind]
    rw [hrun]
  rcases hfault with rfl | hfuel
  · exact herror
  · exact absurd hfuel (ofTokens_error_ne_outOfFuel herror)

theorem rest_ofTokens_openers (rest : List Token) (h : ∀ u ∈ openers, u.IsOpener) :
    (Cursor.ofTokens (openers ++ rest)).rest =
      openers ++ rest.takeWhile fun t => decide (t.kind ≠ .eof) := by
  unfold Cursor.ofTokens
  exact List.takeWhile_append_of_pos fun u hu => by simp [(h u hu).1]

theorem ofTokens_full {before after : List Token} {last : Token} (h : ∀ u ∈ before, u.IsOpener)
    (hlast : last.IsOpener) (hcounted : last.isCounted) (ht : t.IsOpener)
    (hcount : before.countP Token.isCounted + 1 = maxNesting) :
    ofTokens (before ++ last :: t :: after) =
      .error ⟨.nestedTooDeeply (some t.text), t.range⟩ := by
  have hrest := rest_ofTokens_openers (last :: t :: after) h
  rw [List.takeWhile_cons_of_pos (by simp [hlast.1]), List.takeWhile_cons_of_pos (by simp [ht.1])]
    at hrest
  have hs : (Cursor.ofTokens (before ++ last :: t :: after)).AtOpener := by
    cases before with
    | nil => exact Cursor.atOpener_cons hrest hlast
    | cons u before => exact Cursor.atOpener_cons hrest (h u List.mem_cons_self)
  refine ofTokens_of_raises hs (raises_openers h (by simpa using hlast) hrest ?_ ?_)
  · exact (Nat.add_comm _ _).trans_le hcount.le
  · intro n s' hs' _ hdepth
    refine raises_atom_of_full hs' hlast hcounted ht ?_ n
    rw [hdepth, ← hcount, Nat.add_comm]

/-- Opening symbols alone, among them not too many that count, are no program for another reason. -/
theorem ofTokens_only_openers (h : ∀ u ∈ openers, u.IsOpener)
    (hcount : openers.countP Token.isCounted < maxNesting) :
    ofTokens openers = .error ⟨.expected "an expression" none, (Cursor.ofTokens openers).stop⟩ := by
  have hrest := rest_ofTokens_openers [] h
  rw [List.append_nil, List.takeWhile_nil] at hrest
  have hs : (Cursor.ofTokens openers).AtOpener := by
    intro u hu
    rw [hrest, List.append_nil] at hu
    exact h u (List.mem_of_mem_head? hu)
  refine ofTokens_of_raises hs (raises_openers h (by simp) hrest ?_ ?_)
  · exact (Nat.add_comm _ _).trans_le hcount
  · intro n s' hs' hstop _
    have hend := raises_atom_end hs' n
    rwa [hstop] at hend

theorem exists_counted {k : Nat} (hcount : k < openers.countP Token.isCounted) :
    ∃ before last after, openers = before ++ last :: after ∧ last.isCounted ∧
      before.countP Token.isCounted = k := by
  induction openers generalizing k with
  | nil => exact absurd hcount (Nat.not_lt_zero k)
  | cons u openers ih =>
      by_cases hu : u.isCounted
      · rw [List.countP_cons_of_pos hu] at hcount
        cases k with
        | zero => exact ⟨[], u, openers, rfl, hu, rfl⟩
        | succ k =>
            obtain ⟨before, last, after, rfl, hlast, hbefore⟩ := ih (Nat.lt_of_succ_lt_succ hcount)
            refine ⟨u :: before, last, after, rfl, hlast, ?_⟩
            rw [List.countP_cons_of_pos hu, hbefore]
      · rw [List.countP_cons_of_neg hu] at hcount
        obtain ⟨before, last, after, rfl, hlast, hbefore⟩ := ih hcount
        refine ⟨u :: before, last, after, rfl, hlast, ?_⟩
        rw [List.countP_cons_of_neg hu, hbefore]

/-- The first opening symbol before which no level is left is refused. -/
theorem ofTokens_openers (h : ∀ u ∈ openers, u.IsOpener) (ht : t.IsOpener)
    (hcount : maxNesting ≤ openers.countP Token.isCounted) :
    ∃ before u after, openers ++ [t] = before ++ u :: after ∧
      before.countP Token.isCounted = maxNesting ∧
      before.dropLast.countP Token.isCounted < maxNesting ∧
      ofTokens (openers ++ t :: rest) = .error ⟨.nestedTooDeeply (some u.text), u.range⟩ := by
  have hless : maxNesting - 1 < openers.countP Token.isCounted := by
    have hpos : 0 < maxNesting := by decide
    omega
  obtain ⟨before, last, after, rfl, hlast, hbefore⟩ := exists_counted hless
  obtain ⟨hopeners, hafter⟩ := List.forall_mem_append.1 h
  obtain ⟨hlastOpener, hafter⟩ := List.forall_mem_cons.1 hafter
  have hcount' : before.countP Token.isCounted + 1 = maxNesting := by
    rw [hbefore]
    rfl
  have hcounts : (before ++ [last]).countP Token.isCounted = maxNesting ∧
      (before ++ [last]).dropLast.countP Token.isCounted < maxNesting := by
    rw [List.dropLast_concat, List.countP_append, List.countP_singleton, if_pos hlast]
    omega
  obtain ⟨hfull, hroom⟩ := hcounts
  cases after with
  | nil =>
      refine ⟨before ++ [last], t, [], by simp, hfull, hroom, ?_⟩
      rw [List.append_assoc]
      exact ofTokens_full hopeners hlastOpener hlast ht hcount'
  | cons u after =>
      refine ⟨before ++ [last], u, after ++ [t], by simp, hfull, hroom, ?_⟩
      rw [List.append_assoc]
      exact ofTokens_full hopeners hlastOpener hlast (hafter u List.mem_cons_self) hcount'

/-- No parse goes deeper than the levels and the braces allow. -/
theorem ne_outOfFuel_of_room {tokens : List Token} {n : Nat}
    (hroom : maxNesting + (Cursor.ofTokens tokens).braces < n)
    (hrun : wholeProgram (grammar n) (Cursor.ofTokens tokens) = .error e) :
    e.cause ≠ .outOfFuel := by
  set s := Cursor.ofTokens tokens with hs
  have heq : wholeProgram (grammar (n + s.rest.length)) s = wholeProgram (grammar n) s :=
    wholeProgram_grammar_eq hroom (Nat.le_add_right n _)
  have hreads : Shortens (wholeProgram (grammar (n + s.rest.length))) s :=
    shortens_wholeProgram (enough_grammar _) (Nat.le_add_left _ n)
  unfold Shortens Reads at hreads
  rwa [heq, hrun] at hreads

/-- Behind as many opening parentheses, opening brackets and exclamation marks as there may be
levels, whatever braces stand among them, the next opening symbol is refused as nested too deeply.
And whatever the tokens are, the parser never goes deeper than one level for each of those that may
be nested and one for each brace: as many unfoldings of the grammar are enough, and more of them
change nothing. -/
theorem nesting_limited (tokens : List Token) :
    (∀ openers t rest, tokens = openers ++ t :: rest → (∀ u ∈ openers, u.IsOpener) → t.IsOpener →
      maxNesting ≤ openers.countP Token.isCounted →
      ∃ before u after, openers ++ [t] = before ++ u :: after ∧
        before.countP Token.isCounted = maxNesting ∧
        before.dropLast.countP Token.isCounted < maxNesting ∧
        ofTokens tokens = .error ⟨.nestedTooDeeply (some u.text), u.range⟩) ∧
    ∀ n, maxNesting + (Cursor.ofTokens tokens).braces < n →
      (∀ e, wholeProgram (grammar n) (Cursor.ofTokens tokens) = .error e →
        e.cause ≠ .outOfFuel) ∧
      ∀ m, n ≤ m → wholeProgram (grammar m) (Cursor.ofTokens tokens) =
        wholeProgram (grammar n) (Cursor.ofTokens tokens) := by
  refine ⟨?_, fun n hroom => ⟨fun e hrun => ne_outOfFuel_of_room hroom hrun, fun m hle => ?_⟩⟩
  · rintro openers t rest rfl h ht hcount
    exact ofTokens_openers h ht hcount
  · exact wholeProgram_grammar_eq hroom hle

/-- A parenthesis for each level, and a bracket behind them. -/
theorem nesting_limited_parentheses :
    let paren : Token := ⟨.symbol, "(", .erased⟩
    let bracket : Token := ⟨.symbol, "[", .erased⟩
    let tokens := List.replicate maxNesting paren ++ [bracket]
    (∃ before u after, tokens = before ++ u :: after ∧
      before.countP Token.isCounted = maxNesting ∧
      before.dropLast.countP Token.isCounted < maxNesting ∧
      ofTokens tokens = .error ⟨.nestedTooDeeply (some u.text), u.range⟩) ∧
    (Cursor.ofTokens tokens).braces = 0 ∧
    ∀ e, wholeProgram (grammar (maxNesting + 1)) (Cursor.ofTokens tokens) = .error e →
      e.cause ≠ .outOfFuel := by
  intro paren bracket tokens
  have hparen : ∀ u ∈ List.replicate maxNesting paren, u.IsOpener := by
    intro u hu
    rw [List.eq_of_mem_replicate hu]
    exact ⟨rfl, by decide⟩
  have hcount : maxNesting ≤ (List.replicate maxNesting paren).countP Token.isCounted := by
    rw [List.countP_replicate, if_pos (by decide)]
  have hbraces : (Cursor.ofTokens tokens).braces = 0 := by
    rw [Cursor.braces, rest_ofTokens_openers [bracket] hparen, List.countP_append,
      List.countP_replicate, if_neg (by decide)]
    rfl
  obtain ⟨hrefused, hbounded⟩ := nesting_limited tokens
  refine ⟨hrefused _ bracket [] rfl hparen ⟨rfl, by decide⟩ hcount, hbraces, ?_⟩
  exact (hbounded (maxNesting + 1) (by rw [hbraces]; decide)).1

/-- Opening braces are not counted, however many there are. -/
theorem nesting_unlimited_braces :
    ¬ ∀ openers rest : List Token, (∀ u ∈ openers, u.IsOpener) → maxNesting < openers.length →
      ∃ found range, ofTokens (openers ++ rest) = .error ⟨.nestedTooDeeply found, range⟩ := by
  intro hall
  let brace : Token := ⟨.symbol, "\x7b", .erased⟩
  have hbrace : ∀ u ∈ List.replicate (maxNesting + 1) brace, u.IsOpener := by
    intro u hu
    rw [List.eq_of_mem_replicate hu]
    exact ⟨rfl, by decide⟩
  obtain ⟨found, range, hdeep⟩ := hall _ [] hbrace (by simp)
  have hcount : (List.replicate (maxNesting + 1) brace).countP Token.isCounted < maxNesting := by
    rw [List.countP_replicate, if_neg (by decide)]
    decide
  rw [List.append_nil, ofTokens_only_openers hbrace hcount] at hdeep
  cases hdeep

end Program

end FieldML
