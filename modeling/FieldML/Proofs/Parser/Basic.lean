import FieldML.Parser.Basic
import Mathlib.Tactic.Common

/-!
# How much parsers read

A parser never puts tokens back. What is said about a parser here is how many tokens it leaves when
it succeeds, and that it does not run out of fuel.
-/

namespace FieldML.Parser

variable {α β : Type} {s s' : Cursor} {p : Parser α} {f : α → Parser β} {Q R : α → Nat → Prop}
  {Q' : β → Nat → Prop}

/-- If the parser succeeds, `Q` holds of its outcome and the number of tokens that are left; if it
fails, that is not for want of fuel. -/
def Reads (p : Parser α) (s : Cursor) (Q : α → Nat → Prop) : Prop :=
  match p s with
  | .ok (a, s') => Q a s'.rest.length
  | .error e => e.cause ≠ .outOfFuel

theorem bind_apply (p : Parser α) (f : α → Parser β) (s : Cursor) :
    (p >>= f) s = match p s with
      | .ok (a, s') => f a s'
      | .error e => .error e := by
  change Except.bind (p s) _ = _
  rcases p s with _ | ⟨a, s'⟩ <;> rfl

theorem Reads.bind (hp : Reads p s Q)
    (hf : ∀ a s', Q a s'.rest.length → Reads (f a) s' Q') : Reads (p >>= f) s Q' := by
  unfold Reads at hp ⊢
  rw [bind_apply]
  rcases hrun : p s with e | ⟨a, s'⟩
  · rwa [hrun] at hp
  · rw [hrun] at hp
    exact hf a s' hp

theorem Reads.mono (hp : Reads p s Q) (h : ∀ a n, Q a n → R a n) : Reads p s R := by
  unfold Reads at hp ⊢
  rcases hrun : p s with e | ⟨a, s'⟩
  · rwa [hrun] at hp
  · rw [hrun] at hp
    exact h a _ hp

theorem Reads.pure {a : α} (h : Q a s.rest.length) : Reads (Pure.pure a) s Q := h

theorem Reads.map {f : α → β} (hp : Reads p s fun a n => Q' (f a) n) : Reads (f <$> p) s Q' :=
  hp.bind fun _ _ h => .pure h

/-- The parser leaves fewer tokens than there were. -/
abbrev Shortens (p : Parser α) (s : Cursor) : Prop := Reads p s fun _ n => n < s.rest.length

/-- The parser leaves no more tokens than there were. -/
abbrev Keeps (p : Parser α) (s : Cursor) : Prop := Reads p s fun _ n => n ≤ s.rest.length

theorem Reads.keeps (hp : Shortens p s) : Keeps p s := hp.mono fun _ _ h => Nat.le_of_lt h

theorem reads_peek_bind {f : Token → Parser β} (hf : Reads (f s.peek) s Q') :
    Reads (peek >>= f) s Q' := hf

theorem reads_get_bind {f : Cursor → Parser β} (hf : Reads (f s) s Q') :
    Reads (get >>= f) s Q' := hf

theorem reads_nextIs_bind {kind : TokenKind} {f : Bool → Parser β}
    (hf : Reads (f (decide (s.peek.kind = kind))) s Q') : Reads (nextIs kind >>= f) s Q' := hf

theorem reads_nextIsSymbol_bind {text : String} {f : Bool → Parser β}
    (hf : Reads (f (s.peek.isWord .symbol text)) s Q') : Reads (nextIsSymbol text >>= f) s Q' := hf

theorem reads_nextIsKeyword_bind {text : String} {f : Bool → Parser β}
    (hf : Reads (f (s.peek.isWord .keyword text)) s Q') :
    Reads (nextIsKeyword text >>= f) s Q' := hf

theorem reads_previousRange_bind {f : Range → Parser β} (hf : Reads (f s.previous) s Q') :
    Reads (previousRange >>= f) s Q' := hf

/-- The next token is not the end mark, so there is one. -/
theorem rest_ne_nil (h : s.peek.kind ≠ .eof) : s.rest ≠ [] := by
  intro hnil
  simp [Cursor.peek, hnil] at h

theorem rest_ne_nil_of_isWord {kind : TokenKind} {text : String}
    (h : s.peek.isWord kind text = true) (hkind : kind ≠ .eof) : s.rest ≠ [] := by
  refine rest_ne_nil fun heof => hkind ?_
  simp only [Token.isWord, Bool.and_eq_true, decide_eq_true_eq] at h
  exact h.1.symm.trans heof

theorem shortens_advance (h : s.rest ≠ []) : Shortens advance s := by
  obtain ⟨t, rest, hrest⟩ := List.exists_cons_of_ne_nil h
  simp [Reads, advance, Cursor.advance, hrest]

theorem shortens_name (h : s.rest ≠ []) : Shortens name s :=
  (shortens_advance h).bind fun _ _ hn => .pure hn

theorem reads_failHere {cause : Option String → ParseError.Cause}
    (h : ∀ found, cause found ≠ .outOfFuel) : Reads (failHere cause : Parser α) s Q := h _

theorem reads_failExpected (what : String) : Reads (failExpected what : Parser α) s Q :=
  reads_failHere (by simp)

theorem reads_skipSymbol (text : String) :
    Reads (skipSymbol text) s fun b n => n + b.toNat ≤ s.rest.length := by
  refine reads_nextIsSymbol_bind ?_
  split
  · next h =>
      exact (shortens_advance (rest_ne_nil_of_isWord h (by decide))).bind fun _ _ hn => .pure hn
  · exact .pure (Nat.le_refl _)

theorem reads_skipKeyword (text : String) :
    Reads (skipKeyword text) s fun b n => n + b.toNat ≤ s.rest.length := by
  refine reads_nextIsKeyword_bind ?_
  split
  · next h =>
      exact (shortens_advance (rest_ne_nil_of_isWord h (by decide))).bind fun _ _ hn => .pure hn
  · exact .pure (Nat.le_refl _)

theorem skipSymbol_of_not {text : String} (h : s.peek.isWord .symbol text = false) :
    skipSymbol text s = .ok (false, s) := by
  change (if s.peek.isWord .symbol text = true then _ else pure false : Parser Bool) s = _
  rw [h]
  rfl

theorem skipKeyword_of_not {text : String} (h : s.peek.isWord .keyword text = false) :
    skipKeyword text s = .ok (false, s) := by
  change (if s.peek.isWord .keyword text = true then _ else pure false : Parser Bool) s = _
  rw [h]
  rfl

theorem shortens_symbol (text : String) : Shortens (symbol text) s := by
  refine reads_nextIsSymbol_bind ?_
  split
  · next h =>
      exact (shortens_advance (rest_ne_nil_of_isWord h (by decide))).bind fun _ _ hn => .pure hn
  · exact reads_failExpected _

theorem shortens_keyword (text : String) : Shortens (keyword text) s := by
  refine reads_nextIsKeyword_bind ?_
  split
  · next h =>
      exact (shortens_advance (rest_ne_nil_of_isWord h (by decide))).bind fun _ _ hn => .pure hn
  · exact reads_failExpected _

theorem shortens_nameOf {kind : TokenKind} (hkind : kind ≠ .eof) (what : String) :
    Shortens (nameOf kind what) s := by
  refine reads_nextIs_bind ?_
  split
  · next h => exact shortens_name (rest_ne_nil (of_decide_eq_true h ▸ hkind))
  · exact reads_failExpected _

theorem keeps_freshName (range : Range) : Keeps (freshName range) s := Nat.le_refl s.rest.length

theorem keeps_integer (text : String) (range : Range) : Keeps (integer text range) s := by
  unfold integer
  split
  · exact .pure (Nat.le_refl _)
  · simp [Reads, throw, throwThe, MonadExceptOf.throw, StateT.lift, Except.bind, bind]

theorem descend_apply (s : Cursor) :
    descend s = if maxNesting ≤ s.depth then .error ⟨.nestedTooDeeply s.found, s.peek.range⟩
      else .ok ((), { s with depth := s.depth + 1 }) := by
  change (if maxNesting ≤ s.depth then failHere .nestedTooDeeply
    else modify fun s => { s with depth := s.depth + 1 } : Parser Unit) s = _
  split <;> rfl

theorem keeps_descend : Reads descend s fun _ n => n = s.rest.length := by
  refine reads_get_bind ?_
  split
  · exact reads_failHere (by simp)
  · rfl

theorem Reads.closing (hp : Reads p s Q) : Reads (closing p) s Q := by
  refine reads_get_bind (hp.bind fun a s' hq => ?_)
  exact hq

theorem Reads.nested (hp : ∀ s', s'.rest.length = s.rest.length → Reads p s' Q) :
    Reads (nested p) s Q :=
  (keeps_descend.bind fun _ s' hn => hp s' hn).closing

theorem shortens_nested (hp : ∀ s', s'.rest.length = s.rest.length → Shortens p s') :
    Shortens (nested p) s :=
  Reads.nested fun s' h => (hp s' h).mono fun _ _ hn => h ▸ hn

/-- A step that may be the last one, and otherwise reads a token. -/
def Stepwise (step : α → Parser (Option α)) (n : Nat) : Prop :=
  ∀ a s, s.rest.length ≤ n → Reads (step a) s fun o m => m + o.isSome.toNat ≤ s.rest.length

theorem keeps_steps {step : α → Parser (Option α)} {n : Nat} (h : Stepwise step n) {fuel : Nat}
    {a : α} (hs : s.rest.length ≤ n) (hfuel : s.rest.length < fuel) :
    Keeps (steps step fuel a) s := by
  induction fuel generalizing a s with
  | zero => exact absurd hfuel (Nat.not_lt_zero _)
  | succ fuel ih =>
      refine (h a s hs).bind fun o s' hn => ?_
      cases o with
      | none => exact .pure hn
      | some b =>
          simp only [Option.isSome_some, Bool.toNat_true] at hn
          exact (ih (by omega) (by omega)).mono fun _ _ hm => by omega

theorem Stepwise.loop {step : α → Parser (Option α)} (h : Stepwise step s.rest.length) (a : α) :
    Keeps (loop step a) s :=
  reads_get_bind (keeps_steps h (Nat.le_refl _) (Nat.lt_succ_self _))

theorem stepwise_separated {item : Parser α} {separator : Parser Bool} {n : Nat}
    (hitem : ∀ s, s.rest.length < n → Shortens item s)
    (hsep : ∀ s, Reads separator s fun b m => m + b.toNat ≤ s.rest.length) :
    Stepwise (fun items => do
      if ← separator then return some ((← item) :: items) else return none) n := by
  intro items s hs
  refine (hsep s).bind fun b s₁ h₁ => ?_
  split
  · next hb =>
      rw [hb, Bool.toNat_true] at h₁
      exact (hitem s₁ (by omega)).bind fun item s₂ h₂ => .pure (by simp; omega)
  · exact .pure (by simp; omega)

theorem shortens_sepBy1 {item : Parser α} {separator : Parser Bool}
    (hitem : ∀ s', s'.rest.length ≤ s.rest.length → Shortens item s')
    (hsep : ∀ s', Reads separator s' fun b n => n + b.toNat ≤ s'.rest.length) :
    Shortens (sepBy1 item separator) s := by
  refine (hitem s (Nat.le_refl _)).bind fun first s₁ h₁ => ?_
  have hstep := stepwise_separated (n := s₁.rest.length) (fun s₂ h₂ => hitem s₂ (by omega)) hsep
  exact (hstep.loop _).bind fun items s₂ h₂ => .pure (by omega)

theorem keeps_commaList {item : Parser α} {close : String}
    (hitem : ∀ s', s'.rest.length ≤ s.rest.length → Shortens item s') :
    Keeps (commaList item close) s := by
  refine reads_nextIsSymbol_bind ?_
  split
  · exact .pure (Nat.le_refl _)
  · exact (shortens_sepBy1 hitem fun s' => reads_skipSymbol _).keeps

end FieldML.Parser
