import FieldML.Proofs.Parser.Expr

/-!
# How deep the parser goes

A form that is read inside another one costs a level of nesting or an opening brace. The levels that
are left and the braces to come therefore bound how many unfoldings of the grammar take part in a
parse: with more of them nothing changes, whatever the tokens are.
-/

namespace FieldML

namespace Cursor

/-- How many opening braces there are to read. -/
def braces (s : Cursor) : Nat := s.rest.countP fun t => t.isWord .symbol "\x7b"

/-- How many more forms can be opened inside one another. -/
def room (s : Cursor) : Nat := (Parser.maxNesting - s.depth) + s.braces

/-- From the first state to the second no room is gained. -/
structure Within (s s' : Cursor) : Prop where
  depth : s.depth ≤ s'.depth
  braces : s'.braces ≤ s.braces

namespace Within

variable {s s₁ s₂ : Cursor} {n : Nat}

theorem refl (s : Cursor) : s.Within s := ⟨Nat.le_refl _, Nat.le_refl _⟩

theorem trans (h₁ : s.Within s₁) (h₂ : s₁.Within s₂) : s.Within s₂ :=
  ⟨Nat.le_trans h₁.depth h₂.depth, Nat.le_trans h₂.braces h₁.braces⟩

theorem room_lt (h : s.Within s₁) (hs : s.room < n) : s₁.room < n := by
  have hdepth := h.depth
  have hbraces := h.braces
  unfold room at hs ⊢
  omega

end Within

theorem within_advance (s : Cursor) : s.Within s.advance := by
  unfold advance
  split
  · exact .refl s
  · next t rest hrest =>
      refine ⟨Nat.le_refl _, ?_⟩
      unfold braces
      rw [hrest]
      exact (List.sublist_cons_self t rest).countP_le

theorem room_advance_lt {s : Cursor} (h : s.peek.isWord .symbol "\x7b" = true) :
    s.advance.room < s.room := by
  obtain ⟨t, rest, hrest⟩ := List.exists_cons_of_ne_nil (Parser.rest_ne_nil_of_isWord h (by decide))
  have hpeek : s.peek = t := by
    rw [peek, hrest]
    rfl
  rw [hpeek] at h
  have hadvance : s.advance = { s with rest := rest, previous := t.range } := by
    rw [advance, hrest]
  unfold room braces
  simp only [hadvance, hrest, List.countP_cons, h, if_pos]
  omega

theorem room_descend_lt {s : Cursor} (h : s.depth < Parser.maxNesting) :
    ({ s with depth := s.depth + 1 } : Cursor).room < s.room := by
  unfold room braces
  dsimp only
  omega

end Cursor

namespace Parser

variable {α β : Type} {p p' q q' : Parser α} {f f' : α → Parser β} {s : Cursor} {n : Nat}

/-- The two parsers do the same, and gain no room. -/
def Agrees (p p' : Parser α) (s : Cursor) : Prop :=
  p' s = p s ∧ ∀ a s', p s = .ok (a, s') → s.Within s'

theorem Agrees.bind (hp : Agrees p p' s)
    (hf : ∀ a s', s.Within s' → Agrees (f a) (f' a) s') : Agrees (p >>= f) (p' >>= f') s := by
  obtain ⟨heq, hwithin⟩ := hp
  unfold Agrees
  rw [bind_apply, bind_apply, heq]
  cases hrun : p s with
  | error e => exact ⟨rfl, nofun⟩
  | ok r =>
      have hs' := hwithin r.1 r.2 hrun
      obtain ⟨hrest, hafter⟩ := hf r.1 r.2 hs'
      exact ⟨hrest, fun b s'' hb => hs'.trans (hafter b s'' hb)⟩

theorem agrees_of_state {a : α} {s' : Cursor} (hp : p s = .ok (a, s')) (hs : s.Within s') :
    Agrees p p s := by
  refine ⟨rfl, fun b s'' h => ?_⟩
  rw [hp] at h
  cases h
  exact hs

theorem agrees_of_error {e : ParseError} (hp : p s = .error e) : Agrees p p s :=
  ⟨rfl, fun _ _ h => nomatch hp.symm.trans h⟩

theorem agrees_pure (a : α) : Agrees (pure a) (pure a) s := agrees_of_state rfl (.refl s)

theorem Agrees.map {f : α → β} (hp : Agrees p p' s) : Agrees (f <$> p) (f <$> p') s :=
  hp.bind fun a _ _ => agrees_pure (f a)

theorem agrees_ite {c : Prop} [Decidable c] (hp : c → Agrees p p' s) (hq : ¬c → Agrees q q' s) :
    Agrees (if c then p else q) (if c then p' else q') s := by
  by_cases hc : c
  · rw [if_pos hc, if_pos hc]
    exact hp hc
  · rw [if_neg hc, if_neg hc]
    exact hq hc

/-! ### Looking at the next token -/

theorem agrees_peek_bind {f f' : Token → Parser β} (hf : Agrees (f s.peek) (f' s.peek) s) :
    Agrees (peek >>= f) (peek >>= f') s := hf

theorem agrees_get_bind {f f' : Cursor → Parser β} (hf : Agrees (f s) (f' s) s) :
    Agrees (get >>= f) (get >>= f') s := hf

theorem agrees_previousRange : Agrees previousRange previousRange s :=
  agrees_of_state rfl (.refl s)

theorem agrees_nextIs (kind : TokenKind) : Agrees (nextIs kind) (nextIs kind) s :=
  agrees_of_state rfl (.refl s)

theorem agrees_nextIsSymbol (text : String) : Agrees (nextIsSymbol text) (nextIsSymbol text) s :=
  agrees_of_state rfl (.refl s)

theorem agrees_nextIsKeyword (text : String) :
    Agrees (nextIsKeyword text) (nextIsKeyword text) s := agrees_of_state rfl (.refl s)

theorem agrees_failHere (cause : Option String → ParseError.Cause) :
    Agrees (failHere cause : Parser α) (failHere cause) s := agrees_of_error rfl

theorem agrees_failExpected (what : String) :
    Agrees (failExpected what : Parser α) (failExpected what) s := agrees_of_error rfl

theorem agrees_stuck : Agrees (stuck : Parser α) stuck s := agrees_of_error rfl

/-! ### Reading a token -/

theorem agrees_advance : Agrees advance advance s := agrees_of_state rfl s.within_advance

theorem agrees_advance_bind {f f' : Token → Parser β}
    (hf : Agrees (f s.peek) (f' s.peek) s.advance) : Agrees (advance >>= f) (advance >>= f') s :=
  ⟨hf.1, fun a s' h => s.within_advance.trans (hf.2 a s' h)⟩

theorem agrees_name : Agrees name name s := agrees_advance.bind fun _ _ _ => agrees_pure _

theorem agrees_nameOf (kind : TokenKind) (what : String) :
    Agrees (nameOf kind what) (nameOf kind what) s :=
  (agrees_nextIs kind).bind fun _ _ _ =>
    agrees_ite (fun _ => agrees_name) fun _ => agrees_failExpected what

theorem agrees_symbol (text : String) : Agrees (symbol text) (symbol text) s :=
  (agrees_nextIsSymbol text).bind fun _ _ _ => agrees_ite
    (fun _ => agrees_advance.bind fun _ _ _ => agrees_pure _) fun _ => agrees_failExpected _

theorem agrees_keyword (text : String) : Agrees (keyword text) (keyword text) s :=
  (agrees_nextIsKeyword text).bind fun _ _ _ => agrees_ite
    (fun _ => agrees_advance.bind fun _ _ _ => agrees_pure _) fun _ => agrees_failExpected _

theorem agrees_skipSymbol (text : String) : Agrees (skipSymbol text) (skipSymbol text) s :=
  (agrees_nextIsSymbol text).bind fun _ _ _ => agrees_ite
    (fun _ => agrees_advance.bind fun _ _ _ => agrees_pure _) fun _ => agrees_pure _

theorem agrees_skipKeyword (text : String) : Agrees (skipKeyword text) (skipKeyword text) s :=
  (agrees_nextIsKeyword text).bind fun _ _ _ => agrees_ite
    (fun _ => agrees_advance.bind fun _ _ _ => agrees_pure _) fun _ => agrees_pure _

theorem agrees_freshName (range : Range) : Agrees (freshName range) (freshName range) s :=
  agrees_of_state rfl ⟨Nat.le_refl _, Nat.le_refl _⟩

theorem agrees_integer (text : String) (range : Range) :
    Agrees (integer text range) (integer text range) s := by
  unfold integer
  split
  · exact agrees_pure _
  · exact agrees_of_error rfl

/-! ### Nesting and repetition -/

theorem Agrees.closing (hp : Agrees p p' s) : Agrees (closing p) (closing p') s := by
  obtain ⟨heq, hwithin⟩ := hp
  have hclosing : ∀ p : Parser α, Parser.closing p s =
      (p >>= fun a => modify (fun s' => { s' with depth := s.depth }) >>= fun _ => pure a) s :=
    fun _ => rfl
  unfold Agrees
  rw [hclosing, hclosing, bind_apply, bind_apply, heq]
  refine ⟨rfl, fun a s' h => ?_⟩
  cases hrun : p s with
  | error e =>
      rw [hrun] at h
      cases h
  | ok r =>
      rw [hrun] at h
      cases h
      exact ⟨Nat.le_refl _, (hwithin r.1 r.2 hrun).braces⟩

/-- A further level is opened only if there is one left. -/
theorem agrees_descend_bind {f f' : Unit → Parser β} (hf : s.depth < maxNesting →
    Agrees (f ()) (f' ()) { s with depth := s.depth + 1 }) :
    Agrees (descend >>= f) (descend >>= f') s := by
  unfold Agrees
  rw [bind_apply, bind_apply, descend_apply]
  by_cases hdepth : maxNesting ≤ s.depth
  · rw [if_pos hdepth]
    exact ⟨rfl, nofun⟩
  · rw [if_neg hdepth]
    obtain ⟨heq, hwithin⟩ := hf (by omega)
    have hopen : s.Within { s with depth := s.depth + 1 } := ⟨Nat.le_succ _, Nat.le_refl _⟩
    exact ⟨heq, fun a s' h => hopen.trans (hwithin a s' h)⟩

theorem Agrees.nested (hs : s.room < n + 1) (hp : ∀ s' : Cursor, s'.room < n → Agrees p p' s') :
    Agrees (nested p) (nested p') s :=
  Agrees.closing (agrees_descend_bind fun hdepth =>
    hp _ (Nat.lt_of_lt_of_le (Cursor.room_descend_lt hdepth) (Nat.le_of_lt_succ hs)))

theorem agrees_loop {step step' : α → Parser (Option α)}
    (hstep : ∀ a s', s.Within s' → Agrees (step a) (step' a) s') (a : α) :
    Agrees (loop step a) (loop step' a) s := by
  have hsteps : ∀ k a s', s.Within s' → Agrees (steps step k a) (steps step' k a) s' := by
    intro k
    induction k with
    | zero => exact fun _ _ _ => agrees_stuck
    | succ k ih =>
        intro a s' hs'
        refine (hstep a s' hs').bind fun o s'' hs'' => ?_
        cases o with
        | none => exact agrees_pure a
        | some b => exact ih b s'' (hs'.trans hs'')
  exact hsteps _ a s (.refl s)

theorem agrees_items {item item' : Parser α} {separator : Parser Bool}
    (hitem : ∀ s', s.Within s' → Agrees item item' s')
    (hseparator : ∀ s', Agrees separator separator s') (items : List α) :
    Agrees (loop (fun items => do
        if ← separator then return some ((← item) :: items) else return none) items)
      (loop (fun items => do
        if ← separator then return some ((← item') :: items) else return none) items) s :=
  agrees_loop (fun _ s₁ h₁ => (hseparator s₁).bind fun _ s₂ h₂ => agrees_ite
    (fun _ => (hitem s₂ (h₁.trans h₂)).bind fun _ _ _ => agrees_pure _) fun _ => agrees_pure _) items

theorem agrees_sepBy1 {item item' : Parser α} {separator : Parser Bool}
    (hitem : ∀ s', s.Within s' → Agrees item item' s')
    (hseparator : ∀ s', Agrees separator separator s') :
    Agrees (sepBy1 item separator) (sepBy1 item' separator) s := by
  refine (hitem s (.refl s)).bind fun first s₁ h₁ => ?_
  exact (agrees_items (fun s₂ h₂ => hitem s₂ (h₁.trans h₂)) hseparator _).bind
    fun _ _ _ => agrees_pure _

theorem agrees_commaList {item item' : Parser α} {close : String}
    (hitem : ∀ s', s.Within s' → Agrees item item' s') :
    Agrees (commaList item close) (commaList item' close) s := by
  refine (agrees_nextIsSymbol close).bind fun _ s₁ h₁ => agrees_ite (fun _ => agrees_pure _) ?_
  exact fun _ => agrees_sepBy1 (fun s₂ h₂ => hitem s₂ (h₁.trans h₂)) fun _ => agrees_skipSymbol _

/-! ### Types -/

/-- The forms of the two grammars do the same where there is less room than this. Those that read no
token of their own before they turn to another form need one unfolding more. -/
structure Grammar.Agree (n : Nat) (g g' : Grammar) : Prop where
  type : ∀ s, s.room < n → Agrees g.type g'.type s
  pattern : ∀ s, s.room < n → Agrees g.pattern g'.pattern s
  patternCons : ∀ s, s.room + 1 < n → Agrees g.patternCons g'.patternCons s
  expr : ∀ s, s.room < n → Agrees g.expr g'.expr s
  statement : ∀ s, s.room < n → Agrees g.statement g'.statement s
  chain : ∀ least s, s.room + 1 < n → Agrees (g.chain least) (g'.chain least) s
  unary : ∀ s, s.room + 1 < n → Agrees g.unary g'.unary s
  access : ∀ s, s.room + 1 < n → Agrees g.access g'.access s
  atom : ∀ s, s.room + 1 < n → Agrees g.atom g'.atom s

variable {g g' : Grammar}

theorem agrees_typeField (hg : g.Agree n g') (hs : s.room < n) :
    Agrees (typeField g) (typeField g') s := by
  refine (agrees_nameOf _ _).bind fun field s₁ h₁ => ?_
  refine (agrees_symbol _).bind fun _ s₂ h₂ => ?_
  exact (hg.type s₂ ((h₁.trans h₂).room_lt hs)).bind fun _ _ _ => agrees_pure _

theorem agrees_typeAtom (hg : g.Agree n g') (hs : s.room < n) :
    Agrees (typeAtom g) (typeAtom g') s := by
  refine agrees_peek_bind ?_
  cases s.peek.kind with
  | typeVar => exact agrees_name.bind fun _ _ _ => agrees_pure _
  | ident => exact agrees_name.bind fun _ _ _ => agrees_pure _
  | symbol =>
      refine agrees_ite (fun _ => ?_) fun _ => agrees_ite (fun _ => ?_) fun _ =>
        agrees_failExpected _
      · refine agrees_advance.bind fun _ s₁ h₁ => ?_
        refine (agrees_sepBy1 (fun s₂ h₂ => hg.type s₂ ((h₁.trans h₂).room_lt hs))
          fun _ => agrees_skipSymbol _).bind fun items s₂ h₂ => ?_
        exact (agrees_symbol _).bind fun _ _ _ => agrees_pure _
      · refine agrees_advance.bind fun _ s₁ h₁ => ?_
        refine (agrees_commaList fun s₂ h₂ =>
          agrees_typeField hg ((h₁.trans h₂).room_lt hs)).bind fun fields s₂ h₂ => ?_
        exact (agrees_symbol _).bind fun _ _ _ => agrees_pure _
  | _ => exact agrees_failExpected _

theorem agrees_typeApp (hg : g.Agree n g') (hs : s.room < n) :
    Agrees (typeApp g) (typeApp g') s := by
  refine (agrees_typeAtom hg hs).bind fun args s₁ h₁ => ?_
  refine Agrees.bind (Agrees.closing (agrees_loop (fun args s₂ h₂ => ?_) args))
    fun types s₂ h₂ => ?_
  · refine (agrees_nextIs _).bind fun _ s₃ h₃ => agrees_ite (fun _ => ?_) fun _ => agrees_pure _
    exact agrees_descend_bind fun _ => agrees_name.bind fun _ _ _ => agrees_pure _
  · split
    · exact agrees_pure _
    · exact agrees_failExpected _

theorem agrees_typeProduct (hg : g.Agree n g') (hs : s.room < n) :
    Agrees (typeProduct g) (typeProduct g') s := by
  refine (agrees_typeApp hg hs).bind fun first s₁ h₁ => ?_
  refine (agrees_nextIsSymbol _).bind fun _ s₂ h₂ => agrees_ite (fun _ => ?_) fun _ => agrees_pure _
  refine (agrees_items (fun s₃ h₃ => agrees_typeApp hg (((h₁.trans h₂).trans h₃).room_lt hs))
    (fun _ => agrees_skipSymbol _) _).bind fun items s₃ h₃ => ?_
  exact agrees_previousRange.bind fun _ _ _ => agrees_pure _

theorem agrees_type (hg : g.Agree n g') (hs : s.room < n + 1) : Agrees (type g) (type g') s := by
  refine Agrees.nested hs fun s₁ hs₁ => ?_
  refine (agrees_typeProduct hg hs₁).bind fun param s₂ h₂ => ?_
  refine (agrees_skipSymbol _).bind fun _ s₃ h₃ => agrees_ite (fun _ => ?_) fun _ => agrees_pure _
  exact (hg.type s₃ ((h₂.trans h₃).room_lt hs₁)).bind fun _ _ _ => agrees_pure _

/-! ### Patterns -/

theorem agrees_patternParens (hg : g.Agree n g') (hs : s.room < n) (start : Range) :
    Agrees (patternParens g start) (patternParens g' start) s := by
  refine (agrees_nextIsSymbol _).bind fun _ s₁ h₁ => agrees_ite (fun _ => ?_) fun _ => ?_
  · exact agrees_advance.bind fun _ _ _ => agrees_pure _
  · refine (hg.pattern s₁ (h₁.room_lt hs)).bind fun first s₂ h₂ => ?_
    refine (agrees_nextIsSymbol _).bind fun _ s₃ h₃ => agrees_ite (fun _ => ?_) fun _ => ?_
    · have hs₃ := ((h₁.trans h₂).trans h₃).room_lt hs
      refine (agrees_items (fun s₄ h₄ => hg.pattern s₄ (h₄.room_lt hs₃))
        (fun _ => agrees_skipSymbol _) _).bind fun items s₄ h₄ => ?_
      exact (agrees_symbol _).bind fun _ _ _ => agrees_pure _
    · exact (agrees_symbol _).bind fun _ _ _ => agrees_pure _

theorem agrees_patternNegative (start : Range) :
    Agrees (patternNegative start) (patternNegative start) s := by
  refine (agrees_nextIs _).bind fun _ _ _ => agrees_ite (fun _ => ?_) fun _ => agrees_failExpected _
  exact agrees_advance.bind fun _ _ _ => (agrees_integer _ _).bind fun _ _ _ => agrees_pure _

theorem agrees_patternAtom (hg : g.Agree n g') (hs : s.room < n) :
    Agrees (patternAtom g) (patternAtom g') s := by
  refine agrees_peek_bind ?_
  cases s.peek.kind with
  | ident => exact agrees_name.bind fun _ _ _ => agrees_pure _
  | constructor => exact agrees_name.bind fun _ _ _ => agrees_pure _
  | number =>
      exact agrees_advance.bind fun _ _ _ => (agrees_integer _ _).bind fun _ _ _ => agrees_pure _
  | string => exact agrees_advance.bind fun _ _ _ => agrees_pure _
  | keyword =>
      exact agrees_ite (fun _ => agrees_advance.bind fun _ _ _ => agrees_pure _)
        fun _ => agrees_failExpected _
  | symbol =>
      refine agrees_ite (fun _ => ?_) fun _ => agrees_ite (fun _ => ?_) fun _ =>
        agrees_ite (fun _ => ?_) fun _ => agrees_failExpected _
      · exact agrees_advance.bind fun _ _ _ => agrees_patternNegative _
      · exact agrees_advance.bind fun _ s₁ h₁ => agrees_patternParens hg (h₁.room_lt hs) _
      · refine agrees_advance.bind fun _ s₁ h₁ => ?_
        refine (agrees_commaList fun s₂ h₂ => hg.pattern s₂ ((h₁.trans h₂).room_lt hs)).bind
          fun items s₂ h₂ => ?_
        exact (agrees_symbol _).bind fun _ _ _ => agrees_pure _
  | _ => exact agrees_failExpected _

theorem agrees_patternCtor (hg : g.Agree n g') (hs : s.room < n) :
    Agrees (patternCtor g) (patternCtor g') s := by
  refine (agrees_nextIs _).bind fun _ s₁ h₁ => agrees_ite (fun _ => ?_) fun _ =>
    agrees_patternAtom hg (h₁.room_lt hs)
  refine agrees_name.bind fun ctor s₂ h₂ => agrees_peek_bind (agrees_ite (fun _ => ?_) fun _ =>
    agrees_pure _)
  exact (agrees_patternAtom hg ((h₁.trans h₂).room_lt hs)).bind fun _ _ _ => agrees_pure _

theorem agrees_patternCons (hg : g.Agree n g') (hs : s.room < n) :
    Agrees (patternCons g) (patternCons g') s := by
  refine (agrees_patternCtor hg hs).bind fun head s₁ h₁ => ?_
  refine (agrees_skipSymbol _).bind fun _ s₂ h₂ => agrees_ite (fun _ => ?_) fun _ => agrees_pure _
  have hs₂ := (h₁.trans h₂).room_lt hs
  obtain ⟨k, rfl⟩ : ∃ k, n = k + 1 := ⟨n - 1, by omega⟩
  exact (Agrees.nested hs₂ fun s₃ hs₃ => hg.patternCons s₃ (by omega)).bind
    fun _ _ _ => agrees_pure _

theorem agrees_pattern (hg : g.Agree n g') (hs : s.room < n + 1) :
    Agrees (pattern g) (pattern g') s := by
  refine Agrees.nested hs fun s₁ hs₁ => (agrees_patternCons hg hs₁).bind fun pat s₂ h₂ => ?_
  refine (agrees_skipKeyword _).bind fun _ s₃ h₃ => agrees_ite (fun _ => ?_) fun _ => agrees_pure _
  exact (agrees_nameOf _ _).bind fun _ _ _ => agrees_pure _

/-! ### Expressions -/

theorem agrees_recordField {statement statement' : Parser Expr}
    (h : ∀ s', s.Within s' → Agrees statement statement' s') :
    Agrees (recordField statement) (recordField statement') s := by
  refine (agrees_nameOf _ _).bind fun field s₁ h₁ => ?_
  refine (agrees_symbol _).bind fun _ s₂ h₂ => ?_
  exact (h s₂ (h₁.trans h₂)).bind fun _ _ _ => agrees_pure _

theorem agrees_recordForm (hg : g.Agree n g') (hs : s.room + 1 < n) (start : Range) :
    Agrees (recordForm g start) (recordForm g' start) s := by
  have hfields : ∀ s', s.Within s' → Agrees (commaList (recordField g.statement) "\x7d")
      (commaList (recordField g'.statement) "\x7d") s' := fun s' h' =>
    agrees_commaList fun s₁ h₁ => agrees_recordField fun s₂ h₂ =>
      hg.statement s₂ (((h'.trans h₁).trans h₂).room_lt (by omega))
  refine agrees_get_bind ((agrees_nextIsSymbol _).bind fun _ s₁ h₁ => agrees_ite (fun _ => ?_)
    fun _ => ?_)
  · refine (hfields s₁ h₁).bind fun fields s₂ h₂ => ?_
    exact (agrees_symbol _).bind fun _ _ _ => agrees_pure _
  · refine (hg.access s₁ ?_).bind fun base s₂ h₂ => ?_
    · exact Nat.add_lt_of_lt_sub (h₁.room_lt (Nat.lt_sub_of_add_lt hs))
    refine (agrees_keyword _).bind fun _ s₃ h₃ => ?_
    refine (hfields s₃ ((h₁.trans h₂).trans h₃)).bind fun fields s₄ h₄ => ?_
    exact agrees_ite (fun _ => agrees_failExpected _) fun _ =>
      (agrees_symbol _).bind fun _ _ _ => agrees_pure _

theorem agrees_parenForm (hg : g.Agree n g') (hs : s.room < n) (start : Range) :
    Agrees (parenForm g start) (parenForm g' start) s := by
  refine (agrees_nextIsSymbol _).bind fun _ s₁ h₁ => agrees_ite (fun _ => ?_) fun _ => ?_
  · exact agrees_advance.bind fun _ _ _ => agrees_pure _
  · refine (hg.expr s₁ (h₁.room_lt hs)).bind fun first s₂ h₂ => ?_
    refine (agrees_skipSymbol _).bind fun _ s₃ h₃ => ?_
    have hs₃ := ((h₁.trans h₂).trans h₃).room_lt hs
    refine agrees_ite (fun _ => ?_) fun _ => ?_
    · refine (hg.type s₃ hs₃).bind fun type s₄ h₄ => ?_
      exact (agrees_symbol _).bind fun _ _ _ => agrees_pure _
    · refine (agrees_nextIsSymbol _).bind fun _ s₄ h₄ => agrees_ite (fun _ => ?_) fun _ => ?_
      · refine (agrees_items (fun s₅ h₅ => hg.expr s₅ ((h₄.trans h₅).room_lt hs₃))
          (fun _ => agrees_skipSymbol _) _).bind fun items s₅ h₅ => ?_
        exact (agrees_symbol _).bind fun _ _ _ => agrees_pure _
      · exact (agrees_symbol _).bind fun _ _ _ => agrees_pure _

theorem agrees_atom (hg : g.Agree n g') (hs : s.room < n) : Agrees (atom g) (atom g') s := by
  refine agrees_peek_bind ?_
  cases hkind : s.peek.kind with
  | number =>
      exact agrees_advance.bind fun _ _ _ => (agrees_integer _ _).bind fun _ _ _ => agrees_pure _
  | string => exact agrees_advance.bind fun _ _ _ => agrees_pure _
  | keyword =>
      exact agrees_ite (fun _ => agrees_advance.bind fun _ _ _ => agrees_pure _)
        fun _ => agrees_failExpected _
  | ident =>
      exact agrees_ite (fun _ => agrees_failExpected _)
        fun _ => agrees_name.bind fun _ _ _ => agrees_pure _
  | constructor => exact agrees_name.bind fun _ _ _ => agrees_pure _
  | symbol =>
      refine agrees_ite (fun _ => ?_) fun _ => agrees_ite (fun _ => ?_) fun _ =>
        agrees_ite (fun _ => ?_) fun _ => agrees_ite (fun htext => ?_) fun _ =>
          agrees_failExpected _
      · refine agrees_advance.bind fun _ s₁ h₁ => ?_
        obtain ⟨k, rfl⟩ : ∃ k, n = k + 1 := ⟨n - 1, by omega⟩
        exact (Agrees.nested (h₁.room_lt hs) fun s₂ hs₂ => hg.atom s₂ (by omega)).bind
          fun _ _ _ => agrees_pure _
      · exact agrees_advance.bind fun _ s₁ h₁ => agrees_parenForm hg (h₁.room_lt hs) _
      · refine agrees_advance.bind fun _ s₁ h₁ => ?_
        refine (agrees_commaList fun s₂ h₂ => hg.expr s₂ ((h₁.trans h₂).room_lt hs)).bind
          fun items s₂ h₂ => ?_
        exact (agrees_symbol _).bind fun _ _ _ => agrees_pure _
      · have hbrace : s.peek.isWord .symbol "\x7b" = true := by simp [Token.isWord, hkind, htext]
        have hless := Cursor.room_advance_lt hbrace
        exact agrees_advance_bind (agrees_recordForm hg (by omega) _)
  | _ => exact agrees_failExpected _

theorem agrees_access (hg : g.Agree n g') (hs : s.room < n) : Agrees (access g) (access g') s := by
  refine Agrees.closing ((agrees_atom hg hs).bind fun base s₁ h₁ => agrees_loop ?_ base)
  intro base s₂ h₂
  refine (agrees_skipSymbol _).bind fun _ s₃ h₃ => agrees_ite (fun _ => ?_) fun _ => agrees_pure _
  exact agrees_descend_bind fun _ => (agrees_nameOf _ _).bind fun _ _ _ => agrees_pure _

theorem agrees_application (hg : g.Agree n g') (hs : s.room < n) :
    Agrees (application g) (application g') s := by
  refine (agrees_nextIs _).bind fun _ s₁ h₁ => agrees_ite (fun _ => ?_) fun _ => Agrees.closing ?_
  · refine agrees_name.bind fun ctor s₂ h₂ => agrees_peek_bind (agrees_ite (fun _ => ?_) fun _ =>
      agrees_pure _)
    exact (agrees_access hg ((h₁.trans h₂).room_lt hs)).bind fun _ _ _ => agrees_pure _
  · refine (agrees_access hg (h₁.room_lt hs)).bind fun func s₂ h₂ => agrees_loop ?_ func
    intro func s₃ h₃
    have hs₃ := ((h₁.trans h₂).trans h₃).room_lt hs
    refine agrees_peek_bind (agrees_ite (fun _ => agrees_descend_bind fun hdepth => ?_) fun _ =>
      agrees_pure _)
    exact (agrees_access hg (Nat.lt_trans (Cursor.room_descend_lt hdepth) hs₃)).bind
      fun _ _ _ => agrees_pure _

theorem agrees_unary (hg : g.Agree n g') (hs : s.room < n) : Agrees (unary g) (unary g') s := by
  refine (agrees_nextIsSymbol _).bind fun _ s₁ h₁ => agrees_ite (fun _ => ?_) fun _ => ?_
  · refine agrees_advance.bind fun _ s₂ h₂ => (agrees_nextIs _).bind fun _ s₃ h₃ =>
      agrees_ite (fun _ => ?_) fun _ => ?_
    · exact agrees_advance.bind fun _ _ _ => (agrees_integer _ _).bind fun _ _ _ => agrees_pure _
    · obtain ⟨k, rfl⟩ : ∃ k, n = k + 1 := ⟨n - 1, by omega⟩
      have hs₃ := ((h₁.trans h₂).trans h₃).room_lt hs
      exact (Agrees.nested hs₃ fun s₄ hs₄ => hg.unary s₄ (by omega)).bind fun _ _ _ => agrees_pure _
  · refine (agrees_nextIsKeyword _).bind fun _ s₂ h₂ => agrees_ite (fun _ => ?_) fun _ =>
      agrees_application hg ((h₁.trans h₂).room_lt hs)
    refine agrees_advance.bind fun _ s₃ h₃ => ?_
    exact (agrees_access hg (((h₁.trans h₂).trans h₃).room_lt hs)).bind fun _ _ _ => agrees_pure _

theorem agrees_chain (hg : g.Agree n g') (hs : s.room < n) (least : Nat) :
    Agrees (chain g least) (chain g' least) s := by
  refine Agrees.closing ((agrees_unary hg hs).bind fun left s₁ h₁ => agrees_loop ?_ left)
  intro left s₂ h₂
  refine agrees_peek_bind ?_
  cases Operator.ofToken? s₂.peek with
  | none => exact agrees_pure _
  | some op =>
      refine agrees_ite (fun _ => agrees_pure _) fun _ => agrees_descend_bind fun hdepth => ?_
      refine agrees_advance.bind fun _ s₃ h₃ => ?_
      have hs₂ := (h₁.trans h₂).room_lt hs
      have hless := Cursor.room_descend_lt hdepth
      have hs₃ := h₃.room_lt (Nat.lt_of_lt_of_le hless (Nat.le_refl _))
      exact (hg.chain _ s₃ (by omega)).bind fun _ _ _ => agrees_pure _

theorem agrees_assignment (hg : g.Agree n g') (hs : s.room < n) :
    Agrees (assignment g) (assignment g') s := by
  refine (agrees_chain hg hs 0).bind fun target s₁ h₁ => ?_
  refine (agrees_skipSymbol _).bind fun _ s₂ h₂ => agrees_ite (fun _ => ?_) fun _ => agrees_pure _
  exact (hg.statement s₂ ((h₁.trans h₂).room_lt hs)).bind fun _ _ _ => agrees_pure _

theorem agrees_lambdas (params : List Pattern) (body : Expr) :
    Agrees (lambdas params body) (lambdas params body) s := by
  unfold lambdas
  induction params generalizing s with
  | nil => exact agrees_pure _
  | cons param params ih =>
      rw [List.foldrM_cons]
      refine ih.bind fun body s₁ h₁ => ?_
      cases param with
      | var name => exact agrees_pure _
      | _ => exact (agrees_freshName _).bind fun _ _ _ => agrees_pure _

theorem agrees_parameters (hg : g.Agree n g') (hs : s.room < n) (stops : List String)
    (params : List Pattern) : Agrees (parameters g stops params) (parameters g' stops params) s := by
  refine (agrees_loop (fun params s₁ h₁ => ?_) _).bind fun params s₁ h₁ => agrees_pure _
  refine agrees_peek_bind (agrees_ite (fun _ => agrees_pure _) fun _ => ?_)
  exact (agrees_patternAtom hg (h₁.room_lt hs)).bind fun _ _ _ => agrees_pure _

/-- An optional type is read alike before what follows it. -/
theorem agrees_annotation {f f' : Option TypeExpr → Parser Expr} (hg : g.Agree n g')
    (hs : s.room < n) (hf : ∀ type? s', s.Within s' → Agrees (f type?) (f' type?) s') :
    Agrees (do if ← skipSymbol ":" then (some <$> g.type) >>= f else f none)
      (do if ← skipSymbol ":" then (some <$> g'.type) >>= f' else f' none) s := by
  refine (agrees_skipSymbol _).bind fun _ s₁ h₁ => agrees_ite (fun _ => ?_) fun _ =>
    hf none s₁ h₁
  have htype : Agrees (some <$> g.type) (some <$> g'.type) s₁ := (hg.type s₁ (h₁.room_lt hs)).map
  exact htype.bind fun type? s₂ h₂ => hf type? s₂ (h₁.trans h₂)

theorem agrees_bindingValue (hg : g.Agree n g') (hs : s.room < n) :
    Agrees (bindingValue g) (bindingValue g') s := by
  refine (agrees_parameters hg hs _ _).bind fun params s₁ h₁ => ?_
  apply agrees_annotation hg (h₁.room_lt hs)
  intro type? s₂ h₂
  refine (agrees_symbol _).bind fun _ s₃ h₃ => ?_
  refine (hg.expr s₃ (((h₁.trans h₂).trans h₃).room_lt hs)).bind fun value s₄ h₄ => ?_
  cases type? with
  | some type => exact agrees_lambdas _ _
  | none => exact agrees_lambdas _ _

theorem agrees_recBinding (hg : g.Agree n g') (hs : s.room < n) :
    Agrees (recBinding g) (recBinding g') s := by
  refine (agrees_nameOf _ _).bind fun name s₁ h₁ => ?_
  exact (agrees_bindingValue hg (h₁.room_lt hs)).bind fun _ _ _ => agrees_pure _

theorem agrees_letForm (hg : g.Agree n g') (hs : s.room < n) (start : Range) :
    Agrees (letForm g start) (letForm g' start) s := by
  have hexpr : ∀ s', s.Within s' → Agrees g.expr g'.expr s' :=
    fun s' h' => hg.expr s' (h'.room_lt hs)
  have hbinding : ∀ s', s.Within s' → Agrees (bindingValue g) (bindingValue g') s' :=
    fun s' h' => agrees_bindingValue hg (h'.room_lt hs)
  refine (agrees_skipKeyword _).bind fun _ s₁ h₁ => agrees_ite (fun _ => ?_) fun _ => ?_
  · refine (agrees_sepBy1 (fun s₂ h₂ => agrees_recBinding hg ((h₁.trans h₂).room_lt hs))
      fun _ => agrees_skipKeyword _).bind fun bindings s₂ h₂ => ?_
    refine (agrees_keyword _).bind fun _ s₃ h₃ => ?_
    exact (hexpr s₃ ((h₁.trans h₂).trans h₃)).bind fun _ _ _ => agrees_pure _
  · refine (agrees_pattern hg (Nat.lt_succ_of_lt (h₁.room_lt hs))).bind
      fun pat s₂ h₂ => ?_
    have hs₂ := h₁.trans h₂
    cases pat with
    | var name =>
        refine (hbinding s₂ hs₂).bind fun value s₃ h₃ => ?_
        refine (agrees_keyword _).bind fun _ s₄ h₄ => ?_
        exact (hexpr s₄ ((hs₂.trans h₃).trans h₄)).bind fun _ _ _ => agrees_pure _
    | _ =>
        refine (agrees_symbol _).bind fun _ s₃ h₃ => ?_
        refine (hexpr s₃ (hs₂.trans h₃)).bind fun value s₄ h₄ => ?_
        refine (agrees_keyword _).bind fun _ s₅ h₅ => ?_
        exact (hexpr s₅ (((hs₂.trans h₃).trans h₄).trans h₅)).bind fun _ _ _ => agrees_pure _

theorem agrees_funForm (hg : g.Agree n g') (hs : s.room < n) (start : Range) :
    Agrees (funForm g start) (funForm g' start) s := by
  refine (agrees_patternAtom hg hs).bind fun first s₁ h₁ => ?_
  refine (agrees_parameters hg (h₁.room_lt hs) _ _).bind fun params s₂ h₂ => ?_
  refine (agrees_symbol _).bind fun _ s₃ h₃ => ?_
  refine (hg.expr s₃ (((h₁.trans h₂).trans h₃).room_lt hs)).bind fun body s₄ h₄ => ?_
  refine (agrees_lambdas params body).bind fun e s₅ h₅ => ?_
  cases e with
  | _ => exact agrees_pure _

theorem agrees_ifForm (hg : g.Agree n g') (hs : s.room < n) (start : Range) :
    Agrees (ifForm g start) (ifForm g' start) s := by
  refine (hg.expr s hs).bind fun cond s₁ h₁ => ?_
  refine (agrees_keyword _).bind fun _ s₂ h₂ => ?_
  have hs₂ := (h₁.trans h₂).room_lt hs
  refine (hg.statement s₂ hs₂).bind fun yes s₃ h₃ => ?_
  refine (agrees_keyword _).bind fun _ s₄ h₄ => ?_
  exact (hg.statement s₄ ((h₃.trans h₄).room_lt hs₂)).bind fun _ _ _ => agrees_pure _

theorem agrees_matchArm (hg : g.Agree n g') (hs : s.room < n) :
    Agrees (matchArm g) (matchArm g') s := by
  refine (agrees_pattern hg (Nat.lt_succ_of_lt hs)).bind fun pat s₁ h₁ => ?_
  refine (agrees_symbol _).bind fun _ s₂ h₂ => ?_
  exact (hg.statement s₂ ((h₁.trans h₂).room_lt hs)).bind fun _ _ _ => agrees_pure _

theorem agrees_matchForm (hg : g.Agree n g') (hs : s.room < n) (start : Range) :
    Agrees (matchForm g start) (matchForm g' start) s := by
  refine (hg.expr s hs).bind fun scrutinee s₁ h₁ => ?_
  refine (agrees_keyword _).bind fun _ s₂ h₂ => (agrees_skipSymbol _).bind fun _ s₃ h₃ => ?_
  have hs₃ := ((h₁.trans h₂).trans h₃).room_lt hs
  refine (agrees_sepBy1 (fun s₄ h₄ => agrees_matchArm hg (h₄.room_lt hs₃))
    fun _ => agrees_skipSymbol _).bind fun arms s₄ h₄ => ?_
  exact agrees_previousRange.bind fun _ _ _ => agrees_pure _

theorem agrees_statement (hg : g.Agree n g') (hs : s.room < n + 1) :
    Agrees (statement g) (statement g') s := by
  refine Agrees.nested hs fun s₁ hs₁ => ?_
  refine (agrees_nextIsKeyword _).bind fun _ s₂ h₂ => agrees_ite
    (fun _ => agrees_advance.bind fun _ s₃ h₃ => agrees_letForm hg ?_ _) fun _ => ?_
  · exact (h₂.trans h₃).room_lt hs₁
  refine (agrees_nextIsKeyword _).bind fun _ s₃ h₃ => agrees_ite
    (fun _ => agrees_advance.bind fun _ s₄ h₄ => agrees_funForm hg ?_ _) fun _ => ?_
  · exact ((h₂.trans h₃).trans h₄).room_lt hs₁
  have hs₃ := (h₂.trans h₃).room_lt hs₁
  refine (agrees_nextIsKeyword _).bind fun _ s₄ h₄ => agrees_ite
    (fun _ => agrees_advance.bind fun _ s₅ h₅ => agrees_ifForm hg ?_ _) fun _ => ?_
  · exact (h₄.trans h₅).room_lt hs₃
  refine (agrees_nextIsKeyword _).bind fun _ s₅ h₅ => agrees_ite
    (fun _ => agrees_advance.bind fun _ s₆ h₆ => agrees_matchForm hg ?_ _) fun _ => ?_
  · exact ((h₄.trans h₅).trans h₆).room_lt hs₃
  exact agrees_assignment hg ((h₄.trans h₅).room_lt hs₃)

theorem agrees_expr (hg : g.Agree n g') (hs : s.room < n + 1) : Agrees (expr g) (expr g') s := by
  refine (agrees_statement hg hs).bind fun first s₁ h₁ => ?_
  refine (agrees_loop (fun (last, earlier) s₂ h₂ => ?_) (first, [])).bind fun _ _ _ => agrees_pure _
  refine (agrees_skipSymbol _).bind fun _ s₃ h₃ => agrees_ite (fun _ => ?_) fun _ => agrees_pure _
  refine agrees_ite (fun _ => agrees_failHere _) fun _ => ?_
  exact (agrees_statement hg (((h₁.trans h₂).trans h₃).room_lt hs)).bind fun _ _ _ => agrees_pure _

/-! ### Programs -/

theorem Grammar.Agree.unfold (hg : g.Agree n g') : g.unfold.Agree (n + 1) g'.unfold where
  type _ hs := agrees_type hg hs
  pattern _ hs := agrees_pattern hg hs
  patternCons _ hs := agrees_patternCons hg (Nat.lt_of_succ_lt_succ hs)
  expr _ hs := agrees_expr hg hs
  statement _ hs := agrees_statement hg hs
  chain _ _ hs := agrees_chain hg (Nat.lt_of_succ_lt_succ hs) _
  unary _ hs := agrees_unary hg (Nat.lt_of_succ_lt_succ hs)
  access _ hs := agrees_access hg (Nat.lt_of_succ_lt_succ hs)
  atom _ hs := agrees_atom hg (Nat.lt_of_succ_lt_succ hs)

theorem agree_grammar (n k : Nat) : (grammar n).Agree n (grammar (n + k)) := by
  induction n with
  | zero =>
      constructor
      all_goals intros
      all_goals exact absurd ‹_ < 0› (Nat.not_lt_zero _)
  | succ n ih =>
      rw [Nat.add_right_comm]
      exact ih.unfold

theorem agrees_typeParams : Agrees typeParams typeParams s := by
  refine (agrees_nextIs _).bind fun _ _ _ => agrees_ite
    (fun _ => agrees_name.bind fun _ _ _ => agrees_pure _) fun _ => agrees_get_bind ?_
  refine agrees_ite (fun _ => ?_) fun _ => agrees_pure _
  refine agrees_advance.bind fun _ _ _ => (agrees_sepBy1 (fun _ _ => agrees_nameOf _ _)
    fun _ => agrees_skipSymbol _).bind fun _ _ _ => ?_
  exact (agrees_symbol _).bind fun _ _ _ => agrees_pure _

theorem agrees_ctorDecl (hg : g.Agree n g') (hs : s.room < n) :
    Agrees (ctorDecl g) (ctorDecl g') s := by
  refine (agrees_nameOf _ _).bind fun name s₁ h₁ => ?_
  refine (agrees_skipKeyword _).bind fun _ s₂ h₂ => agrees_ite (fun _ => ?_) fun _ => ?_
  · refine (agrees_sepBy1 (fun s₃ h₃ => agrees_typeApp hg (((h₁.trans h₂).trans h₃).room_lt hs))
      fun _ => agrees_skipSymbol _).bind fun args _ _ => ?_
    exact agrees_previousRange.bind fun _ _ _ => agrees_pure _
  · exact (agrees_pure _).bind fun _ _ _ => agrees_previousRange.bind fun _ _ _ => agrees_pure _

theorem agrees_typeDecl (hg : g.Agree n g') (hs : s.room < n) :
    Agrees (typeDecl g) (typeDecl g') s := by
  refine agrees_peek_bind (agrees_typeParams.bind fun params s₁ h₁ => ?_)
  refine (agrees_nameOf _ _).bind fun name s₂ h₂ => (agrees_symbol _).bind fun _ s₃ h₃ => ?_
  refine (agrees_nextIsSymbol _).bind fun _ s₄ h₄ => ?_
  have hs₄ := (((h₁.trans h₂).trans h₃).trans h₄).room_lt hs
  refine (agrees_nextIs _).bind fun _ s₅ h₅ => agrees_ite (fun _ => ?_) fun _ => ?_
  · refine (agrees_skipSymbol _).bind fun _ s₆ h₆ => ?_
    refine (agrees_sepBy1 (fun s₇ h₇ =>
      agrees_ctorDecl hg (((h₅.trans h₆).trans h₇).room_lt hs₄))
      fun _ => agrees_skipSymbol _).bind fun ctors _ _ => ?_
    exact agrees_previousRange.bind fun _ _ _ => agrees_pure _
  · exact (agrees_type hg (Nat.lt_succ_of_lt (h₅.room_lt hs₄))).bind fun _ _ _ => agrees_pure _

theorem agrees_typeGroup (hg : g.Agree n g') (hs : s.room < n) :
    Agrees (typeGroup g) (typeGroup g') s := by
  refine (agrees_sepBy1 (fun s₁ h₁ => agrees_typeDecl hg (h₁.room_lt hs))
    fun _ => agrees_skipKeyword _).bind fun group _ _ => ?_
  exact (agrees_keyword _).bind fun _ _ _ => agrees_pure _

theorem agrees_wholeProgram (hg : g.Agree n g') (hs : s.room < n) :
    Agrees (wholeProgram g) (wholeProgram g') s := by
  refine Agrees.bind ((agrees_loop (fun groups s₁ h₁ => ?_) []).bind fun groups s₁ h₁ => ?_)
    fun p _ _ => ?_
  · refine (agrees_skipKeyword _).bind fun _ s₂ h₂ => agrees_ite (fun _ => ?_) fun _ => agrees_pure _
    exact (agrees_typeGroup hg ((h₁.trans h₂).room_lt hs)).bind fun _ _ _ => agrees_pure _
  · exact (agrees_expr hg (Nat.lt_succ_of_lt (h₁.room_lt hs))).bind fun _ _ _ => agrees_pure _
  · exact (agrees_nextIs _).bind fun _ _ _ => agrees_ite (fun _ => agrees_pure _)
      fun _ => agrees_failHere _

/-- As many unfoldings of the grammar as there is room for are as good as any greater number. -/
theorem wholeProgram_grammar_eq {m : Nat} (hs : s.room < n) (hle : n ≤ m) :
    wholeProgram (grammar m) s = wholeProgram (grammar n) s := by
  obtain ⟨k, rfl⟩ := Nat.exists_eq_add_of_le hle
  exact (agrees_wholeProgram (agree_grammar n k) hs).1

end Parser

end FieldML
