import FieldML.Parser.Program
import FieldML.Proofs.Parser.Expr
import FieldML.Proofs.Place.Program
import FieldML.Proofs.Reading.Token

/-!
# What parsers make of words

A parser that is given the right words reads them and leaves the rest, unless they are nested too
deeply. Running out of fuel is allowed for here as well, so that nothing has to be said about the
number of steps; that a whole parse never runs out of it is known already.
-/

namespace FieldML

/-- The words that are left. -/
def Cursor.words (s : Cursor) : List Word := s.rest.map Token.word

/-- The word that comes first, which may be the end mark. -/
def Word.first (ws : List Word) : Word := ws.headD (.eof, "")

/-- The parser gave up because of nested forms. -/
def ParseError.IsLimit (e : ParseError) : Prop :=
  (∃ found, e.cause = .nestedTooDeeply found) ∨ e.cause = .outOfFuel

theorem Cursor.word_peek (s : Cursor) : s.peek.word = Word.first s.words := by
  unfold Cursor.peek Cursor.words Word.first
  cases s.rest <;> rfl

namespace Parser

open Token

variable {α β : Type} {p : Parser α} {f : α → Parser β} {ws ws' rest : List Word} {Q : α → Prop}
  {R : β → Prop} {k : TokenKind} {text : String}

/-- Before the rest the parser reads these words, and `Q` holds of the outcome. -/
def Gives (p : Parser α) (ws rest : List Word) (Q : α → Prop) : Prop :=
  ∀ s : Cursor, s.words = ws ++ rest → match p s with
    | .ok (a, s') => s'.words = rest ∧ Q a
    | .error e => e.IsLimit

theorem gives_pure {a : α} (h : Q a) : Gives (pure a) [] rest Q := fun _ hs => ⟨hs, h⟩

theorem Gives.bind (hp : Gives p ws (ws' ++ rest) Q) (hf : ∀ a, Q a → Gives (f a) ws' rest R) :
    Gives (p >>= f) (ws ++ ws') rest R := by
  intro s hs
  have hfirst := hp s (by rw [hs, List.append_assoc])
  rw [bind_apply]
  cases hrun : p s with
  | error e => rwa [hrun] at hfirst
  | ok r =>
      rw [hrun] at hfirst
      exact hf r.1 hfirst.2 r.2 hfirst.1

/-- The parser only looks at what is next. -/
theorem Gives.look (hp : Gives p [] (ws ++ rest) Q) (hf : ∀ a, Q a → Gives (f a) ws rest R) :
    Gives (p >>= f) ws rest R := hp.bind hf

/-- The parser reads all the words. -/
theorem Gives.last (hp : Gives p ws rest Q) (hf : ∀ a, Q a → Gives (f a) [] rest R) :
    Gives (p >>= f) ws rest R := by
  have hbind : Gives (p >>= f) (ws ++ []) rest R := hp.bind hf
  rwa [List.append_nil] at hbind

theorem Gives.mono {Q' : α → Prop} (hp : Gives p ws rest Q) (h : ∀ a, Q a → Q' a) :
    Gives p ws rest Q' := by
  intro s hs
  have hfirst := hp s hs
  cases hrun : p s with
  | error e => rwa [hrun] at hfirst
  | ok r =>
      rw [hrun] at hfirst
      exact ⟨hfirst.1, h r.1 hfirst.2⟩

theorem gives_peek : Gives peek [] ws fun t => t.word = Word.first ws :=
  fun s hs => ⟨hs, s.word_peek.trans (congrArg Word.first hs)⟩

/-- What is known of a token that was looked at. -/
theorem word_of_first {w : Word} {t : Token} (ht : t.word = Word.first (w :: ws)) :
    t.kind = w.1 ∧ t.text = w.2 := Prod.mk.inj (show (t.kind, t.text) = w from ht)

theorem gives_nextIs (k : TokenKind) :
    Gives (nextIs k) [] ws fun b => b = decide ((Word.first ws).1 = k) := by
  apply gives_peek.last
  rintro t ht
  exact gives_pure (by rw [← ht]; rfl)

theorem isWord_of_word {t : Token} {w : Word} (h : t.word = w) :
    t.isWord k text = decide (w = (k, text)) := by
  subst h
  simp [Token.isWord, Token.word]

theorem gives_nextIsSymbol (text : String) :
    Gives (nextIsSymbol text) [] ws fun b => b = decide (Word.first ws = (.symbol, text)) := by
  apply gives_peek.last
  intro t ht
  exact gives_pure (isWord_of_word ht)

theorem gives_nextIsKeyword (text : String) :
    Gives (nextIsKeyword text) [] ws fun b => b = decide (Word.first ws = (.keyword, text)) := by
  apply gives_peek.last
  intro t ht
  exact gives_pure (isWord_of_word ht)

theorem gives_advance (w : Word) : Gives advance [w] rest fun t => t.word = w := by
  intro s hs
  have hpeek := s.word_peek
  unfold Cursor.words at hs
  rw [List.singleton_append, List.map_eq_cons_iff] at hs
  obtain ⟨t, ts, hrest, hword, hts⟩ := hs
  simp only [advance, Cursor.advance, Cursor.peek, hrest, List.headD_cons]
  exact ⟨hts, hword⟩

theorem gives_name (k : TokenKind) (text : String) :
    Gives name [(k, text)] rest fun n => n.text = text := by
  apply (gives_advance _).last
  intro t ht
  exact gives_pure (congrArg Prod.snd ht)

theorem gives_nameOf (k : TokenKind) (text what : String) :
    Gives (nameOf k what) [(k, text)] rest fun n => n.text = text := by
  apply (gives_nextIs k).look
  rintro _ rfl
  have hnext : decide ((Word.first ([(k, text)] ++ rest)).1 = k) = true := decide_eq_true rfl
  rw [hnext]
  exact gives_name k text

theorem gives_symbol (text : String) :
    Gives (symbol text) [(.symbol, text)] rest fun _ => True := by
  apply (gives_nextIsSymbol text).look
  rintro _ rfl
  have hnext : decide (Word.first ([(TokenKind.symbol, text)] ++ rest) = (.symbol, text)) = true :=
    decide_eq_true rfl
  rw [hnext]
  apply (gives_advance _).last
  intro t _
  exact gives_pure trivial

theorem gives_skipSymbol (text : String) :
    Gives (skipSymbol text) [(.symbol, text)] rest fun b => b = true := by
  apply (gives_nextIsSymbol text).look
  rintro _ rfl
  have hnext : decide (Word.first ([(TokenKind.symbol, text)] ++ rest) = (.symbol, text)) = true :=
    decide_eq_true rfl
  rw [hnext]
  apply (gives_advance _).last
  intro t _
  exact gives_pure rfl

theorem gives_skipSymbol_not (h : Word.first ws ≠ (.symbol, text)) :
    Gives (skipSymbol text) [] ws fun b => b = false := by
  apply (gives_nextIsSymbol text).last
  rintro _ rfl
  rw [decide_eq_false h]
  exact gives_pure rfl

theorem gives_skipKeyword_not (h : Word.first ws ≠ (.keyword, text)) :
    Gives (skipKeyword text) [] ws fun b => b = false := by
  apply (gives_nextIsKeyword text).last
  rintro _ rfl
  rw [decide_eq_false h]
  exact gives_pure rfl

theorem gives_descend : Gives descend [] ws fun _ => True := by
  intro s hs
  rw [descend_apply]
  by_cases hdeep : maxNesting ≤ s.depth
  · rw [if_pos hdeep]
    exact Or.inl ⟨s.found, rfl⟩
  · rw [if_neg hdeep]
    exact ⟨hs, trivial⟩

theorem closing_apply (p : Parser α) (s : Cursor) : closing p s = match p s with
    | .ok (a, s') => .ok (a, { s' with depth := s.depth })
    | .error e => .error e := by
  have hrun : closing p s =
      (p >>= fun a => modify (fun s' => { s' with depth := s.depth }) >>= fun _ => pure a) s := rfl
  rw [hrun, bind_apply]
  cases p s <;> rfl

/-- What is put back at the end of the second parser is not read. -/
theorem Gives.bind_closing (h : Gives (p >>= f) ws rest R) :
    Gives (p >>= fun a => Parser.closing (f a)) ws rest R := by
  intro s hs
  have hrun := h s hs
  rw [bind_apply] at hrun ⊢
  cases hfirst : p s with
  | error e => rwa [hfirst] at hrun
  | ok r =>
      rw [hfirst] at hrun
      dsimp only at hrun ⊢
      rw [closing_apply]
      cases hsecond : f r.1 r.2 with
      | error e => rwa [hsecond] at hrun
      | ok r' =>
          rw [hsecond] at hrun
          exact hrun

theorem Gives.closing (hp : Gives p ws rest Q) : Gives (closing p) ws rest Q := by
  have hpure : Gives (Pure.pure () >>= fun _ => p) ws rest Q := by
    rwa [pure_bind]
  have hclosed := hpure.bind_closing
  rwa [pure_bind] at hclosed

theorem Gives.nested (hp : Gives p ws rest Q) : Gives (nested p) ws rest Q :=
  (gives_descend.look fun _ _ => hp).closing

theorem gives_stuck : Gives (stuck : Parser α) ws rest Q := fun _ _ => Or.inr rfl

section Loops

variable {step : α → Parser (Option α)} {a : α} {I : α → Prop}

theorem gives_steps_more {n : Nat}
    (hstep : Gives (step a) ws (ws' ++ rest) fun o => ∃ b, o = some b ∧ I b)
    (hmore : ∀ n b, I b → Gives (steps step n b) ws' rest Q) :
    Gives (steps step n a) (ws ++ ws') rest Q := by
  cases n with
  | zero => exact gives_stuck
  | succ n =>
      apply hstep.bind
      rintro _ ⟨b, rfl, hb⟩
      exact hmore n b hb

theorem gives_steps_done {n : Nat} (hstep : Gives (step a) [] rest fun o => o = none)
    (h : Q a) : Gives (steps step n a) [] rest Q := by
  cases n with
  | zero => exact gives_stuck
  | succ n =>
      apply hstep.last
      rintro _ rfl
      exact gives_pure h

theorem gives_loop (h : ∀ n, Gives (steps step n a) ws rest Q) : Gives (loop step a) ws rest Q :=
  fun s hs => h _ s hs

end Loops

/-! ### Several items -/

/-- What may follow an item: another separator or the rest. -/
def MayFollow (sep : Word) (rest after : List Word) : Prop :=
  after = rest ∨ Word.first after = sep

theorem mayFollow_separated (sep : Word) (items : List (List Word)) (rest : List Word) :
    MayFollow sep rest (separated sep items ++ rest) := by
  cases items with
  | nil => exact Or.inl rfl
  | cons ws items => exact Or.inr rfl

variable {γ : Type} {item : Parser α} {S : γ → α → Prop} {words : γ → List Word} {cs : List γ}

/-- The items after a first one, latest first. -/
theorem gives_items (hrest : Word.first rest ≠ (.symbol, text))
    (hitem : ∀ c ∈ cs, ∀ after, MayFollow (.symbol, text) rest after →
      Gives item (words c) after (S c)) (n : Nat) (before : List α) :
    Gives (steps (fun items => do
      if ← skipSymbol text then return some ((← item) :: items) else return none) n before)
      (separated (.symbol, text) (cs.map words)) rest
      fun items => ∃ after, items = after.reverse ++ before ∧ List.Forall₂ S cs after := by
  induction cs generalizing n before with
  | nil =>
      refine gives_steps_done ?_ ⟨[], rfl, .nil⟩
      apply (gives_skipSymbol_not hrest).last
      rintro _ rfl
      exact gives_pure rfl
  | cons c cs ih =>
      obtain ⟨hc, hcs⟩ := List.forall_mem_cons.1 hitem
      have hstep : Gives (do
          if ← skipSymbol text then return some ((← item) :: before) else return none)
          ([(.symbol, text)] ++ words c) (separated (.symbol, text) (cs.map words) ++ rest)
          fun o => ∃ items, o = some items ∧ ∃ a, items = a :: before ∧ S c a := by
        apply (gives_skipSymbol text).bind
        rintro _ rfl
        apply (hc _ (mayFollow_separated _ _ _)).last
        intro a ha
        exact gives_pure ⟨_, rfl, a, rfl, ha⟩
      refine gives_steps_more (I := fun items => ∃ a, items = a :: before ∧ S c a) hstep ?_
      rintro n _ ⟨a, rfl, ha⟩
      refine (ih hcs n (a :: before)).mono ?_
      rintro _ ⟨after, rfl, hafter⟩
      exact ⟨a :: after, by simp, .cons ha hafter⟩

/-- All items once the first one is read, latest first. -/
theorem gives_moreItems {c : γ} {a : α} (ha : S c a) (hrest : Word.first rest ≠ (.symbol, text))
    (hitem : ∀ d ∈ cs, ∀ after, MayFollow (.symbol, text) rest after →
      Gives item (words d) after (S d)) :
    Gives (loop (fun items => do
      if ← skipSymbol text then return some ((← item) :: items) else return none) [a])
      (separated (.symbol, text) (cs.map words)) rest
      fun items => List.Forall₂ S (c :: cs) items.reverse := by
  refine (gives_loop fun n => gives_items hrest hitem n [a]).mono ?_
  rintro _ ⟨after, rfl, hafter⟩
  rw [List.reverse_append, List.reverse_reverse]
  exact .cons ha hafter

theorem gives_sepBy1 {c : γ} (hrest : Word.first rest ≠ (.symbol, text))
    (hitem : ∀ d ∈ c :: cs, ∀ after, MayFollow (.symbol, text) rest after →
      Gives item (words d) after (S d)) :
    Gives (sepBy1 item (skipSymbol text)) (listed (.symbol, text) ((c :: cs).map words))
      rest fun items => List.Forall₂ S (c :: cs) items := by
  obtain ⟨hc, hcs⟩ := List.forall_mem_cons.1 hitem
  apply (hc _ (mayFollow_separated _ _ _)).bind
  intro a ha
  apply (gives_moreItems ha hrest hcs).last
  intro items hitems
  exact gives_pure hitems

/-- Items before a closing symbol, which no item begins with. -/
theorem gives_commaList {close : String} (hclose : close ≠ ",")
    (hstart : ∀ c ∈ cs, words c ≠ [] ∧ Word.first (words c) ≠ (.symbol, close))
    (hitem : ∀ c ∈ cs, ∀ after, MayFollow (.symbol, ",") ((.symbol, close) :: rest) after →
      Gives item (words c) after (S c)) :
    Gives (commaList item close) (listed (.symbol, ",") (cs.map words)) ((.symbol, close) :: rest)
      fun items => List.Forall₂ S cs items := by
  apply (gives_nextIsSymbol close).look
  rintro _ rfl
  cases cs with
  | nil =>
      have hnext : Word.first ([] ++ (TokenKind.symbol, close) :: rest) = (.symbol, close) := rfl
      rw [List.map_nil, listed, decide_eq_true hnext]
      exact gives_pure .nil
  | cons c cs =>
      obtain ⟨⟨hne, hc⟩, -⟩ := List.forall_mem_cons.1 hstart
      have hnext : Word.first (listed (.symbol, ",") ((c :: cs).map words) ++
          (TokenKind.symbol, close) :: rest) ≠ (.symbol, close) := by
        obtain ⟨w, ws, hws⟩ := List.exists_cons_of_ne_nil hne
        rw [List.map_cons, listed]
        rw [hws] at hc ⊢
        exact hc
      rw [decide_eq_false hnext]
      refine gives_sepBy1 ?_ hitem
      simpa [Word.first] using hclose

/-! ### Whole texts -/

/-- Reads something and nothing after it. -/
def whole (p : Parser α) : Parser α := do
  let a ← p
  if ← nextIs .eof then return a else failHere .leftOver

/-- What the tokens are read as from their first to their last. -/
def ofTokens (form : Grammar → Parser α) (tokens : List Token) : Except ParseError α :=
  let start := Cursor.ofTokens tokens
  (whole (form (grammar (start.rest.length + 1))) start).map Prod.fst

/-- The parser read something for which `Q` holds, unless the forms are nested too deeply. -/
def ReadsAs (outcome : Except ParseError α) (Q : α → Prop) : Prop :=
  match outcome with
  | .ok a => Q a
  | .error e => ∃ found, e.cause = .nestedTooDeeply found

theorem ReadsAs.mono {outcome : Except ParseError α} {Q' : α → Prop} (h : ReadsAs outcome Q)
    (hQ : ∀ a, outcome = .ok a → Q a → Q' a) : ReadsAs outcome Q' := by
  cases outcome with
  | ok a => exact hQ a rfl h
  | error e => exact h

theorem gives_whole (hp : Gives p ws [] Q) : Gives (whole p) ws [] Q := by
  apply hp.last
  intro a ha
  apply (gives_nextIs .eof).last
  rintro _ rfl
  exact gives_pure ha

theorem shortens_whole {s : Cursor} (hp : Shortens p s) : Shortens (whole p) s := by
  refine hp.bind fun a s' h => reads_nextIs_bind ?_
  split
  · exact .pure h
  · exact reads_failHere (by simp)

/-- The tokens of a text are the words that it is written as. -/
theorem exists_tokens (htext : Writes text ws) :
    ∃ tokens, lex text = .ok tokens ∧ (Cursor.ofTokens tokens).words = ws := by
  have hlexes : Lexes text.toList ws := by
    simpa using htext.lexes (by simp [Stops]) lexes_nil
  obtain ⟨tokens, hlex, hwords⟩ := hlexes.lex
  have hparts := inOrder_lex text
  rw [hlex] at hparts
  obtain ⟨before, stop, rfl, hkinds, -⟩ := hparts
  refine ⟨_, hlex, ?_⟩
  rw [Cursor.ofTokens_append_eof hkinds]
  rw [List.map_append] at hwords
  exact List.append_inj_left' hwords rfl

/-- What the text is written as is read from it, unless that is nested too deeply. -/
theorem reads_text {form : Grammar → Parser α}
    (hshort : ∀ n (s : Cursor), s.rest.length ≤ n → Shortens (form (grammar (n + 1))) s)
    (htext : Writes text ws) (hgives : ∀ n, Gives (form (grammar n)) ws [] Q) :
    ∃ tokens, lex text = .ok tokens ∧ ReadsAs (ofTokens form tokens) Q := by
  obtain ⟨tokens, hlex, hwords⟩ := exists_tokens htext
  refine ⟨tokens, hlex, ?_⟩
  let start := Cursor.ofTokens tokens
  have hgiven := gives_whole (hgives (start.rest.length + 1)) start (by rwa [List.append_nil])
  have hends : Shortens (whole (form (grammar (start.rest.length + 1)))) start :=
    shortens_whole (hshort _ start (Nat.le_refl _))
  unfold Shortens Reads at hends
  unfold ofTokens
  cases hrun : whole (form (grammar (start.rest.length + 1))) start with
  | error e =>
      rw [hrun] at hgiven hends
      dsimp only
      rw [hrun]
      exact hgiven.resolve_right hends
  | ok r =>
      rw [hrun] at hgiven
      dsimp only
      rw [hrun]
      exact hgiven.2

/-- Where words are left the reading fails. -/
theorem ofTokens_ne_ok {form : Grammar → Parser α} {tokens : List Token} {w : Word}
    (hwords : (Cursor.ofTokens tokens).words = ws ++ w :: ws') (hw : w.1 ≠ .eof)
    (hgives : ∀ n, Gives (form (grammar n)) ws (w :: ws') Q) (a : α) :
    ofTokens form tokens ≠ .ok a := by
  intro h
  unfold ofTokens whole at h
  dsimp only at h
  have hgiven := hgives ((Cursor.ofTokens tokens).rest.length + 1) _ hwords
  rw [bind_apply] at h
  cases hrun : form (grammar ((Cursor.ofTokens tokens).rest.length + 1)) (Cursor.ofTokens tokens) with
  | error e =>
      rw [hrun] at h
      cases h
  | ok r =>
      obtain ⟨b, s⟩ := r
      rw [hrun] at h hgiven
      have hkind : s.peek.kind ≠ .eof := by
        have hpeek := s.word_peek
        rw [hgiven.1] at hpeek
        exact fun heof => hw ((congrArg Prod.fst hpeek).symm.trans heof)
      have hnext : nextIs .eof s = .ok (decide (s.peek.kind = .eof), s) := rfl
      dsimp only at h
      rw [bind_apply, hnext, decide_eq_false hkind] at h
      cases h

end Parser

end FieldML
