import FieldML.Proofs.Parser.Basic
import FieldML.Proofs.Place.Lexer
import FieldML.Proofs.Place.Syntax

/-!
# Parsers keep to the order of the tokens

The tokens that a parser has before it lie after those that it has read. So what it reads lies between
two positions: the one from which it starts, and the end of the last token that it reads. This
passes from the parts of a sequence to the whole.
-/

namespace FieldML

variable {P : Position → Prop} {lo lo' hi hi' : Position} {s s' : Cursor}

/-- The tokens to read lie in order from a position on. -/
def Cursor.Ready (P : Position → Prop) (lo : Position) (s : Cursor) : Prop :=
  Token.InOrder P s.stop lo s.rest

/-- The token that was read last ends at the position, too. -/
structure Cursor.Passed (P : Position → Prop) (lo : Position) (s : Cursor) : Prop where
  ready : s.Ready P lo
  previous : ∃ a, s.previous = .source a lo

theorem Cursor.Passed.deeper (hs : s.Passed P lo) (depth : Nat) :
    ({ s with depth := depth } : Cursor).Passed P lo := ⟨hs.ready, hs.previous⟩

theorem Cursor.Ready.peek (hs : s.Ready P lo) : s.peek.range.Points P := by
  unfold Ready at hs
  cases hrest : s.rest with
  | nil =>
      rw [hrest] at hs
      obtain ⟨hi, hstop⟩ := hs
      rw [Cursor.peek, hrest]
      exact hstop.points
  | cons t rest =>
      rw [hrest] at hs
      obtain ⟨a, hi, hrange, ha, -, hle, -⟩ := hs
      rw [Cursor.peek, hrest]
      exact ⟨a, hi, hrange, ha, hle⟩

namespace Parser

variable {α β : Type} {p : Parser α} {f : α → Parser β} {Q R : α → Position → Prop}
  {Q' : β → Position → Prop}

/-- If the parser succeeds from a position on, it has read up to another one, and `Q` holds of its
outcome and that position; if it fails, the fault points into the text. -/
def Yields (P : Position → Prop) (lo : Position) (p : Parser α) (s : Cursor)
    (Q : α → Position → Prop) : Prop :=
  match p s with
  | .ok (a, s') => ∃ hi, lo ≤ hi ∧ s'.Passed P hi ∧ Q a hi
  | .error e => e.range.Points P

/-- What is read lies between the position from which the parser starts and the one up to which it
reads. -/
abbrev Places [Tree α] (P : Position → Prop) (lo : Position) (p : Parser α) (s : Cursor) : Prop :=
  Yields P lo p s fun a hi => Tree.Lies P lo hi a

theorem Yields.bind (hp : Yields P lo p s Q)
    (hf : ∀ a s' hi, lo ≤ hi → s'.Passed P hi → Q a hi → Yields P hi (f a) s' Q') :
    Yields P lo (p >>= f) s Q' := by
  unfold Yields at hp ⊢
  rw [bind_apply]
  rcases hrun : p s with e | ⟨a, s'⟩
  · rwa [hrun] at hp
  · rw [hrun] at hp
    obtain ⟨hi, hle, hs', hq⟩ := hp
    have hrest := hf a s' hi hle hs' hq
    unfold Yields at hrest
    dsimp only
    rcases hrun' : f a s' with e | ⟨b, s''⟩
    · rwa [hrun'] at hrest
    · rw [hrun'] at hrest
      obtain ⟨hi', hle', hs'', hq'⟩ := hrest
      exact ⟨hi', hle.trans hle', hs'', hq'⟩

theorem Yields.mono (hp : Yields P lo p s Q) (h : ∀ a hi, lo ≤ hi → Q a hi → R a hi) :
    Yields P lo p s R := by
  unfold Yields at hp ⊢
  rcases hrun : p s with e | ⟨a, s'⟩
  · rwa [hrun] at hp
  · rw [hrun] at hp
    obtain ⟨hi, hle, hs', hq⟩ := hp
    exact ⟨hi, hle, hs', h a hi hle hq⟩

theorem Yields.from_le (hle : lo ≤ hi) (hp : Yields P hi p s Q) : Yields P lo p s Q := by
  unfold Yields at hp ⊢
  rcases hrun : p s with e | ⟨a, s'⟩
  · rwa [hrun] at hp
  · rw [hrun] at hp
    obtain ⟨hi', hle', hs', hq⟩ := hp
    exact ⟨hi', hle.trans hle', hs', hq⟩

theorem Yields.pure {a : α} (hs : s.Passed P lo) (h : Q a lo) : Yields P lo (Pure.pure a) s Q :=
  ⟨lo, le_refl lo, hs, h⟩

theorem Yields.map {f : α → β} (hp : Yields P lo p s fun a hi => Q' (f a) hi) :
    Yields P lo (f <$> p) s Q' :=
  hp.bind fun _ _ _ _ hs' h => .pure hs' h

/-! ### Looking at the next token -/

theorem yields_peek_bind {f : Token → Parser β} (hf : Yields P lo (f s.peek) s Q') :
    Yields P lo (peek >>= f) s Q' := hf

theorem yields_get_bind {f : Cursor → Parser β} (hf : Yields P lo (f s) s Q') :
    Yields P lo (get >>= f) s Q' := hf

theorem yields_nextIs_bind {kind : TokenKind} {f : Bool → Parser β}
    (hf : Yields P lo (f (decide (s.peek.kind = kind))) s Q') :
    Yields P lo (nextIs kind >>= f) s Q' := hf

theorem yields_nextIsSymbol_bind {text : String} {f : Bool → Parser β}
    (hf : Yields P lo (f (s.peek.isWord .symbol text)) s Q') :
    Yields P lo (nextIsSymbol text >>= f) s Q' := hf

theorem yields_nextIsKeyword_bind {text : String} {f : Bool → Parser β}
    (hf : Yields P lo (f (s.peek.isWord .keyword text)) s Q') :
    Yields P lo (nextIsKeyword text >>= f) s Q' := hf

theorem yields_previousRange_bind {f : Range → Parser β}
    (hf : Yields P lo (f s.previous) s Q') : Yields P lo (previousRange >>= f) s Q' := hf

theorem yields_failHere (hs : s.Ready P lo) (cause : Option String → ParseError.Cause) :
    Yields P lo (failHere cause : Parser α) s Q := hs.peek

theorem yields_failExpected (hs : s.Ready P lo) (what : String) :
    Yields P lo (failExpected what : Parser α) s Q := hs.peek

theorem yields_advance (hs : s.Ready P lo) (h : s.rest ≠ []) :
    Yields P lo advance s fun t hi => t = s.peek ∧ t.range.Lies P lo hi := by
  obtain ⟨t, rest, hrest⟩ := List.exists_cons_of_ne_nil h
  unfold Cursor.Ready at hs
  rw [hrest] at hs
  obtain ⟨a, hi, hrange, ha, hlo, hle, hafter⟩ := hs
  have hpeek : s.peek = t := by rw [Cursor.peek, hrest]; rfl
  have hnext : s.advance = { s with rest := rest, previous := t.range } := by
    rw [Cursor.advance, hrest]
  unfold Yields
  rw [advance, hpeek, hnext]
  exact ⟨hi, hlo.trans hle, ⟨hafter, a, hrange⟩, rfl, a, hi, hrange, ha, hlo, hle, le_refl hi⟩

theorem places_name (hs : s.Ready P lo) (h : s.rest ≠ []) : Places P lo name s :=
  (yields_advance hs h).bind fun _ _ _ _ hs' ht => .pure hs' ⟨ht.2.points, ht.2⟩

theorem places_nameOf (hs : s.Ready P lo) {kind : TokenKind} (hkind : kind ≠ .eof)
    (what : String) : Places P lo (nameOf kind what) s := by
  apply yields_nextIs_bind
  split
  · next h => exact places_name hs (rest_ne_nil (of_decide_eq_true h ▸ hkind))
  · exact yields_failExpected hs _

theorem yields_symbol (hs : s.Ready P lo) (text : String) :
    Yields P lo (symbol text) s fun r hi => r.Lies P lo hi := by
  apply yields_nextIsSymbol_bind
  split
  · next h =>
      exact (yields_advance hs (rest_ne_nil_of_isWord h (by decide))).bind
        fun _ _ _ _ hs' ht => .pure hs' ht.2
  · exact yields_failExpected hs _

theorem yields_keyword (hs : s.Ready P lo) (text : String) :
    Yields P lo (keyword text) s fun r hi => r.Lies P lo hi := by
  apply yields_nextIsKeyword_bind
  split
  · next h =>
      exact (yields_advance hs (rest_ne_nil_of_isWord h (by decide))).bind
        fun _ _ _ _ hs' ht => .pure hs' ht.2
  · exact yields_failExpected hs _

theorem yields_skipSymbol (hs : s.Passed P lo) (text : String) :
    Yields P lo (skipSymbol text) s fun _ _ => True := by
  apply yields_nextIsSymbol_bind
  split
  · next h =>
      exact (yields_advance hs.ready (rest_ne_nil_of_isWord h (by decide))).bind
        fun _ _ _ _ hs' _ => .pure hs' trivial
  · exact .pure hs trivial

theorem yields_skipKeyword (hs : s.Passed P lo) (text : String) :
    Yields P lo (skipKeyword text) s fun _ _ => True := by
  apply yields_nextIsKeyword_bind
  split
  · next h =>
      exact (yields_advance hs.ready (rest_ne_nil_of_isWord h (by decide))).bind
        fun _ _ _ _ hs' _ => .pure hs' trivial
  · exact .pure hs trivial

theorem yields_freshName (hs : s.Passed P lo) (range : Range) :
    Yields P lo (freshName range) s fun name _ => name.range = range :=
  ⟨lo, le_refl lo, ⟨hs.ready, hs.previous⟩, rfl⟩

theorem yields_integer (hs : s.Passed P lo) (text : String) {range : Range}
    (hrange : range.Points P) : Yields P lo (integer text range) s fun _ _ => True := by
  unfold integer
  split
  · exact .pure hs trivial
  · exact hrange

/-! ### Nesting and repetition -/

theorem Yields.closing (hp : Yields P lo p s Q) : Yields P lo (closing p) s Q := by
  have hclose : ∀ depth a s' hi, s'.Passed P hi → Q a hi → Yields P hi (do
      modify fun s : Cursor => { s with depth := depth }
      return a) s' Q := fun _ _ _ hi hs' hq => ⟨hi, le_refl hi, ⟨hs'.ready, hs'.previous⟩, hq⟩
  exact yields_get_bind (hp.bind fun a s' hi _ hs' hq => hclose s.depth a s' hi hs' hq)

/-- Opening a form leaves the tokens where they are. -/
theorem yields_descend_bind {f : Unit → Parser β} (hs : s.Ready P lo)
    (hf : ∀ depth, Yields P lo (f ()) { s with depth := depth } Q') :
    Yields P lo (descend >>= f) s Q' := by
  unfold Yields
  rw [bind_apply, descend_apply]
  split_ifs
  · exact hs.peek
  · exact hf (s.depth + 1)

theorem Yields.nested (hs : s.Ready P lo)
    (hp : ∀ depth, Yields P lo p { s with depth := depth } Q) : Yields P lo (nested p) s Q :=
  (yields_descend_bind hs hp).closing

theorem Yields.steps {step : α → Parser (Option α)} {I : α → Position → Prop}
    (hstep : ∀ a s mid, lo ≤ mid → s.Passed P mid → I a mid →
      Yields P mid (step a) s fun o hi => ∀ b, o.getD a = b → I b hi)
    (n : Nat) {a : α} {mid : Position} (hle : lo ≤ mid) (hs : s.Passed P mid) (ha : I a mid) :
    Yields P mid (steps step n a) s I := by
  induction n generalizing a s mid with
  | zero => exact hs.ready.peek
  | succ n ih =>
      apply (hstep a s mid hle hs ha).bind
      intro o s' hi hle' hs' ho
      cases o with
      | none => exact .pure hs' (ho a rfl)
      | some b => exact ih (hle.trans hle') hs' (ho b rfl)

/-- What one step keeps is kept by all of them. -/
theorem Yields.loop {step : α → Parser (Option α)} {I : α → Position → Prop}
    (hstep : ∀ a s mid, lo ≤ mid → s.Passed P mid → I a mid →
      Yields P mid (step a) s fun o hi => ∀ b, o.getD a = b → I b hi)
    {a : α} (hs : s.Passed P lo) (ha : I a lo) : Yields P lo (loop step a) s I :=
  yields_get_bind (Yields.steps hstep _ (le_refl lo) hs ha)

/-- Items that lie between two positions are collected as long as a separator comes next. -/
theorem yields_items [Tree α] {item : Parser α} {separator : Parser Bool} {items : List α}
    {mid : Position} (hle : lo ≤ mid) (hs : s.Passed P mid)
    (hitem : ∀ s mid, lo ≤ mid → s.Passed P mid → Places P mid item s)
    (hseparator : ∀ s mid, s.Passed P mid → Yields P mid separator s fun _ _ => True)
    (hitems : ∀ a ∈ items, Tree.Lies P lo mid a) :
    Yields P mid (loop (fun items => do
        if ← separator then return some ((← item) :: items) else return none) items) s
      fun items hi => ∀ a ∈ items, Tree.Lies P lo hi a := by
  refine Yields.loop (I := fun items hi => ∀ a ∈ items, Tree.Lies P lo hi a)
    (fun items s₁ m₁ h₁ hs₁ hitems₁ => ?_) hs hitems
  apply (hseparator s₁ m₁ hs₁).bind
  intro more s₂ m₂ h₂ hs₂ _
  have hold : ∀ hi, m₁ ≤ hi → ∀ a ∈ items, Tree.Lies P lo hi a :=
    fun hi hle a ha => (hitems₁ a ha).mono (le_refl lo) hle
  split
  · have hlo := hle.trans (h₁.trans h₂)
    apply (hitem s₂ m₂ hlo hs₂).bind
    intro a s₃ m₃ h₃ hs₃ ha
    apply Yields.pure hs₃
    rintro _ rfl
    exact List.forall_mem_cons.2 ⟨ha.mono hlo (le_refl m₃), hold m₃ (h₂.trans h₃)⟩
  · refine .pure hs₂ ?_
    rintro _ rfl
    exact hold m₂ h₂

theorem yields_sepBy1 [Tree α] {item : Parser α} {separator : Parser Bool} (hs : s.Passed P lo)
    (hitem : ∀ s mid, lo ≤ mid → s.Passed P mid → Places P mid item s)
    (hseparator : ∀ s mid, s.Passed P mid → Yields P mid separator s fun _ _ => True) :
    Yields P lo (sepBy1 item separator) s fun items hi => ∀ a ∈ items, Tree.Lies P lo hi a := by
  apply (hitem s lo (le_refl lo) hs).bind
  intro first s₁ m₁ h₁ hs₁ hfirst
  have hitems := yields_items h₁ hs₁ hitem hseparator (List.forall_mem_singleton.2 hfirst)
  exact hitems.bind fun items s₂ m₂ _ hs₂ hitems => .pure hs₂ fun a ha =>
    hitems a (List.mem_reverse.1 ha)

theorem yields_commaList [Tree α] {item : Parser α} (hs : s.Passed P lo)
    (hitem : ∀ s mid, lo ≤ mid → s.Passed P mid → Places P mid item s) (close : String) :
    Yields P lo (commaList item close) s fun items hi => ∀ a ∈ items, Tree.Lies P lo hi a := by
  apply yields_nextIsSymbol_bind
  split
  · exact .pure hs (List.forall_mem_nil _)
  · exact yields_sepBy1 hs hitem fun s mid hs => yields_skipSymbol hs ","

end Parser

end FieldML
