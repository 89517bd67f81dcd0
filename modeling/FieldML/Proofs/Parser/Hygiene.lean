import FieldML.Proofs.Parser.Chain
import FieldML.Proofs.Parser.Names

/-!
# Made-up names are used once

A parser draws names for parameters that are patterns. What is read between two draws binds each name
that was drawn in between exactly once, refers to it exactly once, and unpacks it at once; all other
names in it are spelled in the text or are operators. This passes from the parts of a form to the
whole.
-/

open FieldML.Parser FieldML.Token

namespace FieldML

variable {n m : Nat}

/-! ### Drawing names -/

/-- So many names were made up, and the names that are still to be read are spelled as names. -/
structure Cursor.Drawn (n : Nat) (s : Cursor) : Prop where
  fresh : s.fresh = n
  spelled : ∀ t ∈ s.rest, t.kind = .ident → IsName t.text

theorem Cursor.Drawn.peek {s : Cursor} (hs : s.Drawn n) (h : s.peek.kind = .ident) :
    IsName s.peek.text := by
  cases hrest : s.rest with
  | nil =>
      rw [Cursor.peek, hrest] at h
      cases h
  | cons t rest =>
      rw [Cursor.peek, hrest] at h ⊢
      exact hs.spelled t (by rw [hrest]; exact List.mem_cons_self) h

namespace Parser

variable {α β : Type} {p : Parser α} {f : α → Parser β} {s : Cursor} {Q Q' : α → Nat → Prop}
  {R : β → Nat → Prop} {C : α → Prop}

/-- If the parser succeeds, `Q` holds of its outcome and the number of names made up so far. -/
def Draws (p : Parser α) (s : Cursor) (Q : α → Nat → Prop) : Prop :=
  ∀ a s', p s = .ok (a, s') → ∃ n, s'.Drawn n ∧ Q a n

/-- If the parser succeeds, it has made up no name, and `C` holds of its outcome. -/
abbrev Steady (n : Nat) (p : Parser α) (s : Cursor) (C : α → Prop) : Prop :=
  Draws p s fun a m => m = n ∧ C a

theorem Draws.bind (hp : Draws p s Q)
    (hf : ∀ a s' n, s'.Drawn n → Q a n → Draws (f a) s' R) : Draws (p >>= f) s R := by
  intro b s'' hrun
  rw [bind_apply] at hrun
  cases hfirst : p s with
  | error e =>
      rw [hfirst] at hrun
      cases hrun
  | ok r =>
      rw [hfirst] at hrun
      obtain ⟨n, hs', hq⟩ := hp r.1 r.2 hfirst
      exact hf r.1 r.2 n hs' hq b s'' hrun

theorem Draws.mono (hp : Draws p s Q) (h : ∀ a n, Q a n → Q' a n) : Draws p s Q' := by
  intro a s' hrun
  obtain ⟨n, hs', hq⟩ := hp a s' hrun
  exact ⟨n, hs', h a n hq⟩

theorem Draws.pure {a : α} (hs : s.Drawn n) (h : Q a n) : Draws (Pure.pure a) s Q := by
  intro b s' hrun
  cases hrun
  exact ⟨n, hs, h⟩

theorem Draws.ite {c : Prop} [Decidable c] {q : Parser α} (hp : c → Draws p s Q)
    (hq : ¬c → Draws q s Q) : Draws (if c then p else q) s Q := by
  split
  · next hc => exact hp hc
  · next hc => exact hq hc

theorem Steady.bind (hp : Steady n p s C)
    (hf : ∀ a s', s'.Drawn n → C a → Draws (f a) s' R) : Draws (p >>= f) s R := by
  refine Draws.bind hp ?_
  rintro a s' _ hs' ⟨rfl, ha⟩
  exact hf a s' hs' ha

theorem steady_pure {a : α} (hs : s.Drawn n) (h : C a) : Steady n (Pure.pure a) s C :=
  .pure hs ⟨rfl, h⟩

theorem draws_of_error {e : ParseError} (h : p s = .error e) : Draws p s Q :=
  fun _ _ hrun => nomatch h.symm.trans hrun

theorem draws_failHere (cause : Option String → ParseError.Cause) :
    Draws (failHere cause : Parser α) s Q := draws_of_error rfl

theorem draws_failExpected (what : String) : Draws (failExpected what : Parser α) s Q :=
  draws_of_error rfl

theorem draws_peek_bind {f : Token → Parser β} (hf : Draws (f s.peek) s R) :
    Draws (peek >>= f) s R := hf

theorem draws_get_bind {f : Cursor → Parser β} (hf : Draws (f s) s R) :
    Draws (get >>= f) s R := hf

theorem draws_previousRange_bind {f : Range → Parser β} (hf : Draws (f s.previous) s R) :
    Draws (previousRange >>= f) s R := hf

theorem draws_nextIs_bind {kind : TokenKind} {f : Bool → Parser β}
    (hf : Draws (f (decide (s.peek.kind = kind))) s R) : Draws (nextIs kind >>= f) s R := hf

theorem draws_nextIsSymbol_bind {text : String} {f : Bool → Parser β}
    (hf : Draws (f (s.peek.isWord .symbol text)) s R) : Draws (nextIsSymbol text >>= f) s R := hf

theorem draws_nextIsKeyword_bind {text : String} {f : Bool → Parser β}
    (hf : Draws (f (s.peek.isWord .keyword text)) s R) :
    Draws (nextIsKeyword text >>= f) s R := hf

theorem steady_advance (hs : s.Drawn n) : Steady n advance s fun t => t = s.peek := by
  intro t s' hrun
  cases hrun
  refine ⟨n, ?_, rfl, rfl⟩
  unfold Cursor.advance
  split
  · exact hs
  · next t rest hrest =>
      exact ⟨hs.fresh, fun t ht => hs.spelled t (by rw [hrest]; exact List.mem_cons_of_mem _ ht)⟩

theorem steady_name (hs : s.Drawn n) : Steady n name s fun x => x.text = s.peek.text := by
  refine (steady_advance hs).bind fun t s₁ hs₁ ht => ?_
  exact steady_pure hs₁ (by rw [ht])

theorem steady_nameOf (hs : s.Drawn n) (kind : TokenKind) (what : String) :
    Steady n (nameOf kind what) s fun x => kind = .ident → IsName x.text := by
  refine draws_nextIs_bind (.ite (fun h => ?_) fun _ => draws_failExpected what)
  have hkind := of_decide_eq_true h
  refine Draws.mono (steady_name hs) ?_
  rintro x _ ⟨rfl, hx⟩
  exact ⟨rfl, fun hident => hx ▸ hs.peek (hkind.trans hident)⟩

theorem steady_symbol (hs : s.Drawn n) (text : String) :
    Steady n (symbol text) s fun _ => True :=
  draws_nextIsSymbol_bind (.ite
    (fun _ => (steady_advance hs).bind fun _ _ hs₁ _ => steady_pure hs₁ trivial)
    fun _ => draws_failExpected _)

theorem steady_keyword (hs : s.Drawn n) (text : String) :
    Steady n (keyword text) s fun _ => True :=
  draws_nextIsKeyword_bind (.ite
    (fun _ => (steady_advance hs).bind fun _ _ hs₁ _ => steady_pure hs₁ trivial)
    fun _ => draws_failExpected _)

theorem steady_skipSymbol (hs : s.Drawn n) (text : String) :
    Steady n (skipSymbol text) s fun _ => True :=
  draws_nextIsSymbol_bind (.ite
    (fun _ => (steady_advance hs).bind fun _ _ hs₁ _ => steady_pure hs₁ trivial)
    fun _ => steady_pure hs trivial)

theorem steady_skipKeyword (hs : s.Drawn n) (text : String) :
    Steady n (skipKeyword text) s fun _ => True :=
  draws_nextIsKeyword_bind (.ite
    (fun _ => (steady_advance hs).bind fun _ _ hs₁ _ => steady_pure hs₁ trivial)
    fun _ => steady_pure hs trivial)

theorem steady_integer (hs : s.Drawn n) (text : String) (range : Range) :
    Steady n (integer text range) s fun _ => True := by
  unfold integer
  split
  · exact steady_pure hs trivial
  · exact draws_of_error rfl

theorem draws_freshName (hs : s.Drawn n) (range : Range) :
    Draws (freshName range) s fun x m => m = n + 1 ∧ x.text = madeUp (n + 1) := by
  intro x s' hrun
  cases hrun
  exact ⟨n + 1, ⟨congrArg (· + 1) hs.fresh, hs.spelled⟩, rfl, by rw [← hs.fresh]; rfl⟩

theorem Draws.closing (hp : Draws p s Q) : Draws (closing p) s Q := by
  refine draws_get_bind (hp.bind fun a s' m hs' hq => ?_)
  intro b s'' hrun
  cases hrun
  exact ⟨m, ⟨hs'.fresh, hs'.spelled⟩, hq⟩

theorem steady_descend (hs : s.Drawn n) : Steady n descend s fun _ => True := by
  intro u s' hrun
  rw [descend_apply] at hrun
  split at hrun
  · cases hrun
  · cases hrun
    exact ⟨n, ⟨hs.fresh, hs.spelled⟩, rfl, trivial⟩

theorem Draws.nested (hs : s.Drawn n) (hp : ∀ s' : Cursor, s'.Drawn n → Draws p s' Q) :
    Draws (nested p) s Q :=
  Draws.closing ((steady_descend hs).bind fun _ s' hs' _ => hp s' hs')

theorem draws_loop {step : α → Parser (Option α)} {I : α → Nat → Prop}
    (hstep : ∀ a s n, s.Drawn n → I a n → Draws (step a) s fun o m => I (o.getD a) m)
    {a : α} (hs : s.Drawn n) (ha : I a n) : Draws (loop step a) s I := by
  have hsteps : ∀ k a s n, s.Drawn n → I a n → Draws (steps step k a) s I := by
    intro k
    induction k with
    | zero => exact fun _ _ _ _ _ => draws_of_error rfl
    | succ k ih =>
        intro a s n hs ha
        refine (hstep a s n hs ha).bind fun o s' m hs' ho => ?_
        cases o with
        | none => exact .pure hs' ho
        | some b => exact ih b s' m hs' ho
  exact draws_get_bind (hsteps _ a s n hs ha)

/-- Items are collected, the latest first, as long as a separator comes next. -/
theorem draws_items {item : Parser α} {separator : Parser Bool} {I : List α → Nat → Prop}
    (hitem : ∀ items s n, s.Drawn n → I items n → Draws item s fun a m => I (a :: items) m)
    (hseparator : ∀ s n, s.Drawn n → Steady n separator s fun _ => True)
    {items : List α} (hs : s.Drawn n) (hitems : I items n) :
    Draws (loop (fun items => do
      if ← separator then return some ((← item) :: items) else return none) items) s I := by
  refine draws_loop (fun items s n hs hitems => ?_) hs hitems
  refine (hseparator s n hs).bind fun b s₁ hs₁ _ => .ite (fun _ => ?_) fun _ => .pure hs₁ hitems
  exact (hitem items s₁ n hs₁ hitems).bind fun a s₂ m hs₂ ha => .pure hs₂ ha

theorem draws_sepBy1 {item : Parser α} {separator : Parser Bool} {I : List α → Nat → Prop}
    (hitem : ∀ items s n, s.Drawn n → I items n → Draws item s fun a m => I (a :: items) m)
    (hseparator : ∀ s n, s.Drawn n → Steady n separator s fun _ => True)
    (hs : s.Drawn n) (hnil : I [] n) :
    Draws (sepBy1 item separator) s fun items m => I items.reverse m := by
  refine (hitem [] s n hs hnil).bind fun first s₁ m hs₁ hfirst => ?_
  refine (draws_items hitem hseparator hs₁ hfirst).bind fun items s₂ m₂ hs₂ hitems => ?_
  exact .pure hs₂ (by rwa [List.reverse_reverse])

theorem draws_commaList {item : Parser α} {I : List α → Nat → Prop}
    (hitem : ∀ items s n, s.Drawn n → I items n → Draws item s fun a m => I (a :: items) m)
    (hs : s.Drawn n) (hnil : I [] n) (close : String) :
    Draws (commaList item close) s fun items m => I items.reverse m :=
  draws_nextIsSymbol_bind (.ite (fun _ => .pure hs hnil) fun _ =>
    draws_sepBy1 hitem (fun _ _ hs => steady_skipSymbol hs _) hs hnil)

/-! ### Types and patterns -/

/-- Each form uses the names that are made up while it is read. -/
structure Grammar.Draws (g : Grammar) : Prop where
  type : ∀ {s n}, s.Drawn n → Steady n g.type s fun _ => True
  pattern : ∀ {s n}, s.Drawn n → Steady n g.pattern s fun p => ∀ x ∈ p.binders, IsName x
  patternCons : ∀ {s n}, s.Drawn n → Steady n g.patternCons s fun p => ∀ x ∈ p.binders, IsName x
  expr : ∀ {s n}, s.Drawn n → Parser.Draws g.expr s fun e m => Expr.UseUp n m e.nodes
  statement : ∀ {s n}, s.Drawn n → Parser.Draws g.statement s fun e m => Expr.UseUp n m e.nodes
  chain : ∀ {s n} least, s.Drawn n →
    Parser.Draws (g.chain least) s fun e m => Expr.UseUp n m e.nodes
  unary : ∀ {s n}, s.Drawn n → Parser.Draws g.unary s fun e m => Expr.UseUp n m e.nodes
  access : ∀ {s n}, s.Drawn n → Parser.Draws g.access s fun e m => Expr.UseUp n m e.nodes
  atom : ∀ {s n}, s.Drawn n → Parser.Draws g.atom s fun e m => Expr.UseUp n m e.nodes

variable {g : Grammar}

/-- What holds of all items so far, and that no name was made up. -/
theorem steady_item {item : Parser α} (hitem : ∀ s, s.Drawn n → Steady n item s C) (items : List α)
    (s : Cursor) (m : Nat) (hs : s.Drawn m) (h : m = n ∧ ∀ a ∈ items, C a) :
    Parser.Draws item s fun a m => m = n ∧ ∀ b ∈ a :: items, C b := by
  obtain ⟨rfl, hitems⟩ := h
  refine Draws.mono (hitem s hs) ?_
  rintro a _ ⟨rfl, ha⟩
  exact ⟨rfl, List.forall_mem_cons.2 ⟨ha, hitems⟩⟩

theorem steady_sepBy1 {item : Parser α} {separator : Parser Bool} (hs : s.Drawn n)
    (hitem : ∀ s, s.Drawn n → Steady n item s C)
    (hseparator : ∀ s n, s.Drawn n → Steady n separator s fun _ => True) :
    Steady n (sepBy1 item separator) s fun items => ∀ a ∈ items, C a := by
  refine Draws.mono (draws_sepBy1 (steady_item hitem) hseparator hs ⟨rfl, List.forall_mem_nil _⟩) ?_
  rintro items _ ⟨rfl, h⟩
  exact ⟨rfl, fun a ha => h a (List.mem_reverse.2 ha)⟩

theorem steady_commaList {item : Parser α} (hs : s.Drawn n)
    (hitem : ∀ s, s.Drawn n → Steady n item s C) (close : String) :
    Steady n (commaList item close) s fun items => ∀ a ∈ items, C a := by
  refine Draws.mono (draws_commaList (steady_item hitem) hs ⟨rfl, List.forall_mem_nil _⟩ close) ?_
  rintro items _ ⟨rfl, h⟩
  exact ⟨rfl, fun a ha => h a (List.mem_reverse.2 ha)⟩

theorem steady_typeField (hg : g.Draws) (hs : s.Drawn n) :
    Steady n (typeField g) s fun _ => True := by
  refine (steady_nameOf hs _ _).bind fun field s₁ hs₁ _ => ?_
  refine (steady_symbol hs₁ _).bind fun _ s₂ hs₂ _ => ?_
  exact (hg.type hs₂).bind fun _ s₃ hs₃ _ => steady_pure hs₃ trivial

theorem steady_typeAtom (hg : g.Draws) (hs : s.Drawn n) :
    Steady n (typeAtom g) s fun _ => True := by
  refine draws_peek_bind ?_
  cases s.peek.kind with
  | typeVar => exact (steady_name hs).bind fun _ s₁ hs₁ _ => steady_pure hs₁ trivial
  | ident => exact (steady_name hs).bind fun _ s₁ hs₁ _ => steady_pure hs₁ trivial
  | symbol =>
      refine .ite (fun _ => ?_) fun _ => .ite (fun _ => ?_) fun _ => draws_failExpected _
      · refine (steady_advance hs).bind fun _ s₁ hs₁ _ => ?_
        refine (steady_sepBy1 hs₁ (fun _ hs => hg.type hs)
          fun _ _ hs => steady_skipSymbol hs _).bind fun items s₂ hs₂ _ => ?_
        exact (steady_symbol hs₂ _).bind fun _ s₃ hs₃ _ => steady_pure hs₃ trivial
      · refine (steady_advance hs).bind fun _ s₁ hs₁ _ => ?_
        refine (steady_commaList hs₁ (fun _ hs => steady_typeField hg hs) _).bind
          fun fields s₂ hs₂ _ => ?_
        exact (steady_symbol hs₂ _).bind fun _ s₃ hs₃ _ => steady_pure hs₃ trivial
  | _ => exact draws_failExpected _

theorem steady_loop {step : α → Parser (Option α)}
    (hstep : ∀ a s, s.Drawn n → Steady n (step a) s fun _ => True) (hs : s.Drawn n) (a : α) :
    Steady n (loop step a) s fun _ => True := by
  refine draws_loop (fun a s₁ m hs₁ h => ?_) hs ⟨rfl, trivial⟩
  obtain ⟨rfl, -⟩ := h
  exact hstep a s₁ hs₁

theorem steady_typeApp (hg : g.Draws) (hs : s.Drawn n) :
    Steady n (typeApp g) s fun _ => True := by
  refine (steady_typeAtom hg hs).bind fun args s₁ hs₁ _ => ?_
  refine Steady.bind (n := n) (C := fun _ => True) (Draws.closing (steady_loop ?_ hs₁ args))
    fun types s₂ hs₂ _ => ?_
  · refine fun args s₂ hs₂ => draws_nextIs_bind (.ite (fun _ => ?_) fun _ => steady_pure hs₂ trivial)
    refine (steady_descend hs₂).bind fun _ s₃ hs₃ _ => ?_
    exact (steady_name hs₃).bind fun _ s₄ hs₄ _ => steady_pure hs₄ trivial
  · split
    · exact steady_pure hs₂ trivial
    · exact draws_failExpected _

theorem steady_typeProduct (hg : g.Draws) (hs : s.Drawn n) :
    Steady n (typeProduct g) s fun _ => True := by
  refine (steady_typeApp hg hs).bind fun first s₁ hs₁ _ => ?_
  refine draws_nextIsSymbol_bind (.ite (fun _ => ?_) fun _ => steady_pure hs₁ trivial)
  refine Steady.bind (n := n) (C := fun _ => True) (steady_loop ?_ hs₁ _) fun items s₂ hs₂ _ => ?_
  · refine fun items s₂ hs₂ => (steady_skipSymbol hs₂ _).bind fun _ s₃ hs₃ _ =>
      .ite (fun _ => ?_) fun _ => steady_pure hs₃ trivial
    exact (steady_typeApp hg hs₃).bind fun _ s₄ hs₄ _ => steady_pure hs₄ trivial
  · exact draws_previousRange_bind (steady_pure hs₂ trivial)

theorem steady_type (hg : g.Draws) (hs : s.Drawn n) : Steady n (type g) s fun _ => True := by
  refine Draws.nested hs fun s₁ hs₁ => ?_
  refine (steady_typeProduct hg hs₁).bind fun param s₂ hs₂ _ => ?_
  refine (steady_skipSymbol hs₂ _).bind fun _ s₃ hs₃ _ =>
    .ite (fun _ => ?_) fun _ => steady_pure hs₃ trivial
  exact (hg.type hs₃).bind fun _ s₄ hs₄ _ => steady_pure hs₄ trivial

theorem Pattern.spelled_bindersOfList {ps : List Pattern}
    (h : ∀ p ∈ ps, ∀ x ∈ p.binders, IsName x) : ∀ x ∈ Pattern.bindersOfList ps, IsName x := by
  induction ps with
  | nil => exact List.forall_mem_nil _
  | cons p ps ih =>
      obtain ⟨hp, hps⟩ := List.forall_mem_cons.1 h
      rw [Pattern.bindersOfList]
      exact List.forall_mem_append.2 ⟨hp, ih hps⟩

theorem spelled_listPattern {ps : List Pattern} (h : ∀ p ∈ ps, ∀ x ∈ p.binders, IsName x)
    (start stop : Range) : ∀ x ∈ (listPattern ps start stop).binders, IsName x := by
  unfold listPattern
  split
  · exact List.forall_mem_nil _
  · induction ps with
    | nil => exact List.forall_mem_nil _
    | cons p ps ih =>
        obtain ⟨hp, hps⟩ := List.forall_mem_cons.1 h
        rw [List.foldr_cons, Pattern.binders]
        refine List.forall_mem_append.2 ⟨hp, ?_⟩
        cases ps with
        | nil => exact List.forall_mem_nil _
        | cons q ps => exact ih hps (by simp)

theorem steady_patternParens (hg : g.Draws) (hs : s.Drawn n) (start : Range) :
    Steady n (patternParens g start) s fun p => ∀ x ∈ p.binders, IsName x := by
  refine draws_nextIsSymbol_bind (.ite (fun _ => ?_) fun _ => ?_)
  · exact (steady_advance hs).bind fun _ s₁ hs₁ _ => steady_pure hs₁ (List.forall_mem_nil _)
  · refine (hg.pattern hs).bind fun first s₁ hs₁ hfirst => ?_
    refine draws_nextIsSymbol_bind (.ite (fun _ => ?_) fun _ => ?_)
    · refine Draws.bind (draws_items (steady_item fun _ hs => hg.pattern hs)
        (fun _ _ hs => steady_skipSymbol hs _) hs₁ ⟨rfl, List.forall_mem_singleton.2 hfirst⟩) ?_
      rintro items s₂ _ hs₂ ⟨rfl, hitems⟩
      refine (steady_symbol hs₂ _).bind fun _ s₃ hs₃ _ => steady_pure hs₃ ?_
      exact Pattern.spelled_bindersOfList fun p hp => hitems p (List.mem_reverse.1 hp)
    · exact (steady_symbol hs₁ _).bind fun _ s₂ hs₂ _ => steady_pure hs₂ hfirst

theorem steady_patternNegative (hs : s.Drawn n) (start : Range) :
    Steady n (patternNegative start) s fun p => ∀ x ∈ p.binders, IsName x := by
  refine draws_nextIs_bind (.ite (fun _ => ?_) fun _ => draws_failExpected _)
  refine (steady_advance hs).bind fun _ s₁ hs₁ _ => ?_
  exact (steady_integer hs₁ _ _).bind fun _ s₂ hs₂ _ => steady_pure hs₂ (List.forall_mem_nil _)

theorem steady_patternAtom (hg : g.Draws) (hs : s.Drawn n) :
    Steady n (patternAtom g) s fun p => ∀ x ∈ p.binders, IsName x := by
  refine draws_peek_bind ?_
  cases hkind : s.peek.kind with
  | ident =>
      refine (steady_name hs).bind fun x s₁ hs₁ hx => ?_
      dsimp only
      split
      · exact steady_pure hs₁ (List.forall_mem_nil _)
      · exact steady_pure hs₁ (List.forall_mem_singleton.2 (hx ▸ hs.peek hkind))
  | constructor => exact (steady_name hs).bind fun _ s₁ hs₁ _ => steady_pure hs₁ (List.forall_mem_nil _)
  | number =>
      refine (steady_advance hs).bind fun _ s₁ hs₁ _ => ?_
      exact (steady_integer hs₁ _ _).bind fun _ s₂ hs₂ _ => steady_pure hs₂ (List.forall_mem_nil _)
  | string => exact (steady_advance hs).bind fun _ s₁ hs₁ _ => steady_pure hs₁ (List.forall_mem_nil _)
  | keyword =>
      exact .ite
        (fun _ => (steady_advance hs).bind fun _ s₁ hs₁ _ =>
          steady_pure hs₁ (List.forall_mem_nil _))
        fun _ => draws_failExpected _
  | symbol =>
      refine .ite (fun _ => ?_) fun _ => .ite (fun _ => ?_) fun _ => .ite (fun _ => ?_) fun _ =>
        draws_failExpected _
      · exact (steady_advance hs).bind fun _ s₁ hs₁ _ => steady_patternNegative hs₁ _
      · exact (steady_advance hs).bind fun _ s₁ hs₁ _ => steady_patternParens hg hs₁ _
      · refine (steady_advance hs).bind fun _ s₁ hs₁ _ => ?_
        refine (steady_commaList hs₁ (fun _ hs => hg.pattern hs) _).bind
          fun items s₂ hs₂ hitems => ?_
        exact (steady_symbol hs₂ _).bind fun _ s₃ hs₃ _ =>
          steady_pure hs₃ (spelled_listPattern hitems _ _)
  | _ => exact draws_failExpected _

theorem steady_patternCtor (hg : g.Draws) (hs : s.Drawn n) :
    Steady n (patternCtor g) s fun p => ∀ x ∈ p.binders, IsName x := by
  refine draws_nextIs_bind (.ite (fun _ => ?_) fun _ => steady_patternAtom hg hs)
  refine (steady_name hs).bind fun ctor s₁ hs₁ _ => draws_peek_bind (.ite (fun _ => ?_) fun _ =>
    steady_pure hs₁ (List.forall_mem_nil _))
  exact (steady_patternAtom hg hs₁).bind fun arg s₂ hs₂ harg => steady_pure hs₂ harg

theorem steady_patternCons (hg : g.Draws) (hs : s.Drawn n) :
    Steady n (patternCons g) s fun p => ∀ x ∈ p.binders, IsName x := by
  refine (steady_patternCtor hg hs).bind fun head s₁ hs₁ hhead => ?_
  refine (steady_skipSymbol hs₁ _).bind fun _ s₂ hs₂ _ =>
    .ite (fun _ => ?_) fun _ => steady_pure hs₂ hhead
  refine Steady.bind (Draws.nested hs₂ fun _ hs => hg.patternCons hs) fun tail s₃ hs₃ htail => ?_
  exact steady_pure hs₃ (List.forall_mem_append.2 ⟨hhead, htail⟩)

theorem steady_pattern (hg : g.Draws) (hs : s.Drawn n) :
    Steady n (pattern g) s fun p => ∀ x ∈ p.binders, IsName x := by
  refine Draws.nested hs fun s₁ hs₁ => ?_
  refine (steady_patternCons hg hs₁).bind fun p s₂ hs₂ hp => ?_
  refine (steady_skipKeyword hs₂ _).bind fun _ s₃ hs₃ _ =>
    .ite (fun _ => ?_) fun _ => steady_pure hs₃ hp
  refine (steady_nameOf hs₃ _ _).bind fun x s₄ hs₄ hx => steady_pure hs₄ ?_
  exact List.forall_mem_append.2 ⟨hp, List.forall_mem_singleton.2 (hx rfl)⟩

/-! ### Expressions -/

open FieldML.Expr (UseUp Plain)

variable {γ : Type} {parts : γ → List Expr} {lo : Nat}

/-- What a form draws, it uses up behind what the items before it use up. -/
theorem uses_item {item : Parser γ} {C : γ → Prop}
    (hitem : ∀ s n, s.Drawn n → Draws item s fun c m => UseUp n m (parts c) ∧ C c) (items : List γ)
    (s : Cursor) (n : Nat) (hs : s.Drawn n)
    (h : UseUp lo n (items.flatMap parts) ∧ ∀ c ∈ items, C c) :
    Draws item s fun c m =>
      UseUp lo m ((c :: items).flatMap parts) ∧ ∀ d ∈ c :: items, C d := by
  refine Draws.mono (hitem s n hs) fun c m hc => ⟨?_, List.forall_mem_cons.2 ⟨hc.2, h.2⟩⟩
  rw [List.flatMap_cons]
  exact (h.1.append hc.1).perm List.perm_append_comm

theorem uses_reverse {items : List γ} {C : γ → Prop}
    (h : UseUp lo n (items.flatMap parts) ∧ ∀ c ∈ items, C c) :
    UseUp lo n (items.reverse.flatMap parts) ∧ ∀ c ∈ items.reverse, C c :=
  ⟨h.1.perm ((List.reverse_perm items).symm.flatMap_right parts),
    fun c hc => h.2 c (List.mem_reverse.1 hc)⟩

theorem uses_sepBy1 {item : Parser γ} {separator : Parser Bool} {C : γ → Prop} (hs : s.Drawn n)
    (hitem : ∀ s n, s.Drawn n → Draws item s fun c m => UseUp n m (parts c) ∧ C c)
    (hseparator : ∀ s n, s.Drawn n → Steady n separator s fun _ => True) :
    Draws (sepBy1 item separator) s fun items m =>
      UseUp n m (items.flatMap parts) ∧ ∀ c ∈ items, C c := by
  refine Draws.mono (draws_sepBy1 (uses_item hitem) hseparator hs ⟨.nil n, List.forall_mem_nil _⟩) ?_
  intro items m h
  have hreverse := uses_reverse h
  rwa [List.reverse_reverse] at hreverse

theorem uses_commaList {item : Parser γ} (hs : s.Drawn n)
    (hitem : ∀ s n, s.Drawn n → Draws item s fun c m => UseUp n m (parts c)) (close : String) :
    Draws (commaList item close) s fun items m => UseUp n m (items.flatMap parts) := by
  have hitem' : ∀ s n, s.Drawn n → Draws item s fun c m => UseUp n m (parts c) ∧ True :=
    fun s n hs => (hitem s n hs).mono fun _ _ h => ⟨h, trivial⟩
  refine Draws.mono (draws_commaList (uses_item hitem') hs ⟨.nil n, List.forall_mem_nil _⟩ close) ?_
  intro items m h
  have hreverse := uses_reverse h
  rw [List.reverse_reverse] at hreverse
  exact hreverse.1

theorem plain_of_nil {e : Expr} (hbinds : e.binds = []) (hrefers : e.refers = []) : e.Plain :=
  ⟨by simp [hbinds], by simp [hrefers]⟩

theorem draws_recordField {statement : Parser Expr}
    (h : ∀ s n, s.Drawn n → Draws statement s fun e m => UseUp n m e.nodes) (hs : s.Drawn n) :
    Draws (recordField statement) s fun f m => UseUp n m f.2.nodes := by
  refine (steady_nameOf hs _ _).bind fun field s₁ hs₁ _ => ?_
  refine (steady_symbol hs₁ _).bind fun _ s₂ hs₂ _ => ?_
  exact (h s₂ n hs₂).bind fun e s₃ m hs₃ he => .pure hs₃ he

theorem draws_recordForm (hg : g.Draws) (hs : s.Drawn n) (start : Range) :
    Draws (recordForm g start) s fun e m => UseUp n m e.nodes := by
  have hfields : ∀ s n, s.Drawn n → Draws (commaList (recordField g.statement) "\x7d") s
      fun fields m => UseUp n m (fields.flatMap fun f => f.2.nodes) := fun s n hs =>
    uses_commaList hs (fun _ _ hs => draws_recordField (fun _ _ hs => hg.statement hs) hs) _
  refine draws_get_bind (draws_nextIsSymbol_bind (.ite (fun _ => ?_) fun _ => ?_))
  · refine (hfields s n hs).bind fun fields s₁ m hs₁ h => ?_
    refine (steady_symbol hs₁ _).bind fun _ s₂ hs₂ _ => .pure hs₂ ?_
    rw [Expr.nodes, Expr.inner, Expr.innerOfFields_eq]
    exact h.cons (plain_of_nil rfl rfl)
  · refine (hg.access hs).bind fun base s₁ m hs₁ hbase => ?_
    refine (steady_keyword hs₁ _).bind fun _ s₂ hs₂ _ => ?_
    refine (hfields s₂ m hs₂).bind fun fields s₃ m₃ hs₃ h => .ite (fun _ => draws_failExpected _)
      fun _ => ?_
    refine (steady_symbol hs₃ _).bind fun _ s₄ hs₄ _ => .pure hs₄ ?_
    rw [Expr.nodes, Expr.inner, Expr.innerOfFields_eq]
    exact (hbase.append h).cons (plain_of_nil rfl rfl)

theorem draws_parenForm (hg : g.Draws) (hs : s.Drawn n) (start : Range) :
    Draws (parenForm g start) s fun e m => UseUp n m e.nodes := by
  refine draws_nextIsSymbol_bind (.ite (fun _ => ?_) fun _ => ?_)
  · refine (steady_advance hs).bind fun _ s₁ hs₁ _ => .pure hs₁ ?_
    exact (UseUp.nil n).cons (plain_of_nil rfl rfl)
  · refine (hg.expr hs).bind fun first s₁ m hs₁ hfirst => ?_
    refine (steady_skipSymbol hs₁ _).bind fun _ s₂ hs₂ _ => .ite (fun _ => ?_) fun _ => ?_
    · refine (hg.type hs₂).bind fun type s₃ hs₃ _ => ?_
      refine (steady_symbol hs₃ _).bind fun _ s₄ hs₄ _ => .pure hs₄ ?_
      exact UseUp.cons (plain_of_nil rfl rfl) hfirst
    · refine draws_nextIsSymbol_bind (.ite (fun _ => ?_) fun _ => ?_)
      · have hexpr : ∀ s n, s.Drawn n → Draws g.expr s fun e m => UseUp n m e.nodes ∧ True :=
          fun s n hs => (hg.expr hs).mono fun _ _ h => ⟨h, trivial⟩
        have hsingle : UseUp n m ([first].flatMap Expr.nodes) ∧ ∀ e ∈ [first], True := by
          simpa using hfirst
        refine (draws_items (uses_item hexpr) (fun _ _ hs => steady_skipSymbol hs _) hs₂
          hsingle).bind fun items s₃ m₃ hs₃ hitems => ?_
        refine (steady_symbol hs₃ _).bind fun _ s₄ hs₄ _ => .pure hs₄ ?_
        rw [Expr.nodes, Expr.inner, Expr.innerOfList_eq]
        exact (uses_reverse hitems).1.cons (plain_of_nil rfl rfl)
      · exact (steady_symbol hs₂ _).bind fun _ s₃ hs₃ _ => .pure hs₃ hfirst

theorem uses_leaf {e : Expr} (hinner : e.inner = []) (he : e.Plain) : UseUp n n e.nodes := by
  rw [Expr.nodes, hinner]
  exact (UseUp.nil n).cons he

theorem draws_atom (hg : g.Draws) (hs : s.Drawn n) :
    Draws (atom g) s fun e m => UseUp n m e.nodes := by
  have hleaf : ∀ e : Expr, e.inner = [] → e.binds = [] → e.refers = [] → UseUp n n e.nodes :=
    fun e hinner hbinds hrefers => uses_leaf hinner (plain_of_nil hbinds hrefers)
  refine draws_peek_bind ?_
  cases hkind : s.peek.kind with
  | number =>
      refine (steady_advance hs).bind fun _ s₁ hs₁ _ => ?_
      exact (steady_integer hs₁ _ _).bind fun _ s₂ hs₂ _ => .pure hs₂ (hleaf _ rfl rfl rfl)
  | string =>
      exact (steady_advance hs).bind fun _ s₁ hs₁ _ => .pure hs₁ (hleaf _ rfl rfl rfl)
  | keyword =>
      refine .ite (fun _ => ?_) fun _ => draws_failExpected _
      exact (steady_advance hs).bind fun _ s₁ hs₁ _ => .pure hs₁ (hleaf _ rfl rfl rfl)
  | ident =>
      refine .ite (fun _ => draws_failExpected _) fun _ => ?_
      refine (steady_name hs).bind fun x s₁ hs₁ hx =>
        .pure hs₁ (uses_leaf rfl ⟨List.forall_mem_nil _, ?_⟩)
      exact List.forall_mem_singleton.2 (Or.inl (hx ▸ hs.peek hkind))
  | constructor =>
      exact (steady_name hs).bind fun _ s₁ hs₁ _ => .pure hs₁ (hleaf _ rfl rfl rfl)
  | symbol =>
      refine .ite (fun _ => ?_) fun _ => .ite (fun _ => ?_) fun _ => .ite (fun _ => ?_) fun _ =>
        .ite (fun _ => ?_) fun _ => draws_failExpected _
      · refine (steady_advance hs).bind fun _ s₁ hs₁ _ => ?_
        refine (Draws.nested hs₁ fun _ hs => hg.atom hs).bind fun e s₂ m hs₂ he => .pure hs₂ ?_
        exact UseUp.cons (plain_of_nil rfl rfl) he
      · exact (steady_advance hs).bind fun _ s₁ hs₁ _ => draws_parenForm hg hs₁ _
      · refine (steady_advance hs).bind fun _ s₁ hs₁ _ => ?_
        refine (uses_commaList hs₁ (fun _ _ hs => hg.expr hs) _).bind fun items s₂ m hs₂ h => ?_
        refine (steady_symbol hs₂ _).bind fun _ s₃ hs₃ _ => .pure hs₃ ?_
        rw [Expr.nodes, Expr.inner, Expr.innerOfList_eq]
        exact h.cons (plain_of_nil rfl rfl)
      · exact (steady_advance hs).bind fun _ s₁ hs₁ _ => draws_recordForm hg hs₁ _
  | _ => exact draws_failExpected _

theorem draws_access (hg : g.Draws) (hs : s.Drawn n) :
    Draws (access g) s fun e m => UseUp n m e.nodes := by
  refine Draws.closing ((draws_atom hg hs).bind fun base s₁ m hs₁ hbase => ?_)
  refine draws_loop (fun base s₂ m hs₂ hbase => ?_) hs₁ hbase
  refine (steady_skipSymbol hs₂ _).bind fun _ s₃ hs₃ _ =>
    .ite (fun _ => ?_) fun _ => .pure hs₃ hbase
  refine (steady_descend hs₃).bind fun _ s₄ hs₄ _ => ?_
  refine (steady_nameOf hs₄ _ _).bind fun _ s₅ hs₅ _ => .pure hs₅ ?_
  exact UseUp.cons (plain_of_nil rfl rfl) hbase

theorem draws_application (hg : g.Draws) (hs : s.Drawn n) :
    Draws (application g) s fun e m => UseUp n m e.nodes := by
  refine draws_nextIs_bind (.ite (fun _ => ?_) fun _ => Draws.closing ?_)
  · refine (steady_name hs).bind fun ctor s₁ hs₁ _ => draws_peek_bind (.ite (fun _ => ?_) fun _ => ?_)
    · refine (draws_access hg hs₁).bind fun arg s₂ m hs₂ harg => .pure hs₂ ?_
      exact UseUp.cons (plain_of_nil rfl rfl) harg
    · exact .pure hs₁ (uses_leaf rfl (plain_of_nil rfl rfl))
  · refine (draws_access hg hs).bind fun func s₁ m hs₁ hfunc => ?_
    refine draws_loop (fun func s₂ m hs₂ hfunc => ?_) hs₁ hfunc
    refine draws_peek_bind (.ite (fun _ => ?_) fun _ => .pure hs₂ hfunc)
    refine (steady_descend hs₂).bind fun _ s₃ hs₃ _ => ?_
    refine (draws_access hg hs₃).bind fun arg s₄ m₄ hs₄ harg => .pure hs₄ ?_
    exact (hfunc.append harg).cons (plain_of_nil rfl rfl)

theorem uses_apply {op : Operator} (hop : op ∈ Operator.table) (place : Range) {left right : Expr}
    {mid hi : Nat} (hleft : UseUp lo mid left.nodes) (hright : UseUp mid hi right.nodes) :
    UseUp lo hi (Operator.apply op.text place left right).nodes := by
  have hconst : ∀ (value : Bool) n, UseUp n n (Expr.literal (.bool value) place).nodes :=
    fun _ _ => uses_leaf rfl (plain_of_nil rfl rfl)
  unfold Operator.apply
  dsimp only
  split
  · exact ((hleft.append hright).append (hconst false hi)).cons (plain_of_nil rfl rfl)
  · next hand =>
      split
      · exact ((hleft.append (hconst true mid)).append hright).cons (plain_of_nil rfl rfl)
      · next hor =>
          obtain ⟨p, hp⟩ := Primitive.exists_of_operator hop hand hor
          have hvar : UseUp lo lo (Expr.var ⟨op.text, place⟩).nodes :=
            uses_leaf rfl ⟨List.forall_mem_nil _,
              List.forall_mem_singleton.2 (Or.inr ⟨p, ⟨op, hop, hp.symm⟩, hp⟩)⟩
          have hinner : UseUp lo mid
              (Expr.apply (.var ⟨op.text, place⟩) left (left.range.merge right.range)).nodes :=
            (hvar.append hleft).cons (plain_of_nil rfl rfl)
          exact (hinner.append hright).cons (plain_of_nil rfl rfl)

theorem draws_unary (hg : g.Draws) (hs : s.Drawn n) :
    Draws (unary g) s fun e m => UseUp n m e.nodes := by
  refine draws_nextIsSymbol_bind (.ite (fun _ => ?_) fun _ => ?_)
  · refine (steady_advance hs).bind fun start s₁ hs₁ _ => draws_nextIs_bind (.ite (fun _ => ?_)
      fun _ => ?_)
    · refine (steady_advance hs₁).bind fun _ s₂ hs₂ _ => ?_
      refine (steady_integer hs₂ _ _).bind fun _ s₃ hs₃ _ => .pure hs₃ ?_
      exact uses_leaf rfl (plain_of_nil rfl rfl)
    · refine (Draws.nested hs₁ fun _ hs => hg.unary hs).bind fun operand s₂ m hs₂ h => .pure hs₂ ?_
      have hminus : (⟨"-", 6, false⟩ : Operator) ∈ Operator.table := by decide
      exact uses_apply hminus _ (uses_leaf rfl (plain_of_nil rfl rfl)) h
  · refine draws_nextIsKeyword_bind (.ite (fun _ => ?_) fun _ => draws_application hg hs)
    refine (steady_advance hs).bind fun _ s₁ hs₁ _ => ?_
    refine (draws_access hg hs₁).bind fun value s₂ m hs₂ h => .pure hs₂ ?_
    exact UseUp.cons (plain_of_nil rfl rfl) h

theorem draws_chain (hg : g.Draws) (hs : s.Drawn n) (least : Nat) :
    Draws (chain g least) s fun e m => UseUp n m e.nodes := by
  refine Draws.closing ((draws_unary hg hs).bind fun left s₁ m hs₁ hleft => ?_)
  refine draws_loop (fun left s₂ m hs₂ hleft => draws_peek_bind ?_) hs₁ hleft
  cases hop : Operator.ofToken? s₂.peek with
  | none => exact .pure hs₂ hleft
  | some op =>
      refine .ite (fun _ => .pure hs₂ hleft) fun _ => ?_
      refine (steady_descend hs₂).bind fun _ s₃ hs₃ _ => ?_
      refine (steady_advance hs₃).bind fun _ s₄ hs₄ _ => ?_
      refine (hg.chain _ hs₄).bind fun right s₅ m₅ hs₅ hright => .pure hs₅ ?_
      exact uses_apply (Operator.mem_table_of_ofToken? hop) _ hleft hright

theorem draws_assignment (hg : g.Draws) (hs : s.Drawn n) :
    Draws (assignment g) s fun e m => UseUp n m e.nodes := by
  refine (draws_chain hg hs 0).bind fun target s₁ m hs₁ htarget => ?_
  refine (steady_skipSymbol hs₁ _).bind fun _ s₂ hs₂ _ =>
    .ite (fun _ => ?_) fun _ => .pure hs₂ htarget
  refine (hg.statement hs₂).bind fun value s₃ m₃ hs₃ hvalue => .pure hs₃ ?_
  exact (htarget.append hvalue).cons (plain_of_nil rfl rfl)

/-- From the right to the left, each parameter that is a pattern draws a name. -/
theorem draws_lambdas {params : List Pattern} (hparams : ∀ p ∈ params, ∀ x ∈ p.binders, IsName x)
    {body : Expr} (hs : s.Drawn n) (hbody : UseUp lo n body.nodes) :
    Draws (lambdas params body) s fun e m => UseUp lo m e.nodes := by
  unfold lambdas
  induction params generalizing s with
  | nil => exact .pure hs hbody
  | cons param params ih =>
      obtain ⟨hparam, hparams⟩ := List.forall_mem_cons.1 hparams
      rw [List.foldrM_cons]
      refine (ih hparams hs).bind fun body s₁ m hs₁ hbody => ?_
      cases param with
      | var x => exact .pure hs₁ (hbody.cons ⟨hparam, List.forall_mem_nil _⟩)
      | _ =>
          refine (draws_freshName hs₁ _).bind ?_
          rintro x s₂ _ hs₂ ⟨rfl, hx⟩
          exact .pure hs₂ (hbody.unpack hparam hx)

theorem steady_parameters (hg : g.Draws) (hs : s.Drawn n) (stops : List String)
    {params : List Pattern} (hparams : ∀ p ∈ params, ∀ x ∈ p.binders, IsName x) :
    Steady n (parameters g stops params) s fun ps => ∀ p ∈ ps, ∀ x ∈ p.binders, IsName x := by
  have hloop : Steady n (loop (fun params => do
      let token ← peek
      if stops.any (token.isWord .symbol) then return none
      else return some ((← patternAtom g) :: params)) params.reverse) s
      fun ps => ∀ p ∈ ps, ∀ x ∈ p.binders, IsName x := by
    refine draws_loop (fun params s₁ m hs₁ h => draws_peek_bind ?_) hs
      ⟨rfl, fun p hp => hparams p (List.mem_reverse.1 hp)⟩
    obtain ⟨rfl, hparams⟩ := h
    refine .ite (fun _ => steady_pure hs₁ hparams) fun _ => ?_
    refine (steady_patternAtom hg hs₁).bind fun p s₂ hs₂ hp => ?_
    exact .pure hs₂ ⟨rfl, List.forall_mem_cons.2 ⟨hp, hparams⟩⟩
  refine hloop.bind fun ps s₁ hs₁ hps => steady_pure hs₁ ?_
  exact fun p hp => hps p (List.mem_reverse.1 hp)

/-- An optional type draws nothing before what follows it. -/
theorem draws_annotation {f : Option TypeExpr → Parser Expr} {Q : Expr → Nat → Prop}
    (hg : g.Draws) (hs : s.Drawn n) (hf : ∀ type? s', s'.Drawn n → Draws (f type?) s' Q) :
    Draws (do if ← skipSymbol ":" then (some <$> g.type) >>= f else f none) s Q := by
  refine (steady_skipSymbol hs _).bind fun _ s₁ hs₁ _ =>
    .ite (fun _ => ?_) fun _ => hf none s₁ hs₁
  refine Draws.bind ((hg.type hs₁).bind fun type s₂ hs₂ _ =>
    steady_pure (n := n) (C := fun _ => True) hs₂ trivial) ?_
  rintro type? s₂ _ hs₂ ⟨rfl, -⟩
  exact hf type? s₂ hs₂

theorem draws_bindingValue (hg : g.Draws) (hs : s.Drawn n) :
    Draws (bindingValue g) s fun e m => UseUp n m e.nodes := by
  refine (steady_parameters hg hs _ (List.forall_mem_nil _)).bind fun params s₁ hs₁ hparams => ?_
  apply draws_annotation hg hs₁
  intro type? s₂ hs₂
  refine (steady_symbol hs₂ _).bind fun _ s₃ hs₃ _ => ?_
  refine (hg.expr hs₃).bind fun value s₄ m hs₄ h => ?_
  cases type? with
  | some type => exact draws_lambdas hparams hs₄ (UseUp.cons (plain_of_nil rfl rfl) h)
  | none => exact draws_lambdas hparams hs₄ h

theorem draws_recBinding (hg : g.Draws) (hs : s.Drawn n) :
    Draws (recBinding g) s fun b m => UseUp n m b.value.nodes ∧ IsName b.name.text := by
  refine (steady_nameOf hs _ _).bind fun name s₁ hs₁ hname => ?_
  exact (draws_bindingValue hg hs₁).bind fun value s₂ m hs₂ h => .pure hs₂ ⟨h, hname rfl⟩

/-- A match whose patterns bind spelled names. -/
theorem uses_caseOf {scrutinee : Expr} {arms : List (MatchArm Expr)} {range : Range} {mid hi : Nat}
    (hscrutinee : UseUp lo mid scrutinee.nodes)
    (harms : UseUp mid hi (arms.flatMap fun arm => arm.body.nodes) ∧
      ∀ arm ∈ arms, ∀ x ∈ arm.pattern.binders, IsName x) :
    UseUp lo hi (Expr.caseOf scrutinee arms range).nodes := by
  rw [Expr.nodes, Expr.inner, Expr.innerOfArms_eq]
  refine (hscrutinee.append harms.1).cons ⟨fun x hx => ?_, List.forall_mem_nil _⟩
  obtain ⟨arm, harm, hx⟩ := List.mem_flatMap.1 hx
  exact harms.2 arm harm x hx

theorem draws_letForm (hg : g.Draws) (hs : s.Drawn n) (start : Range) :
    Draws (letForm g start) s fun e m => UseUp n m e.nodes := by
  refine (steady_skipKeyword hs _).bind fun _ s₁ hs₁ _ => .ite (fun _ => ?_) fun _ => ?_
  · refine (uses_sepBy1 hs₁ (fun _ _ hs => draws_recBinding hg hs)
      fun _ _ hs => steady_skipKeyword hs _).bind fun bindings s₂ m hs₂ hbindings => ?_
    refine (steady_keyword hs₂ _).bind fun _ s₃ hs₃ _ => ?_
    refine (hg.expr hs₃).bind fun body s₄ m₄ hs₄ hbody => .pure hs₄ ?_
    rw [Expr.nodes, Expr.inner, Expr.innerOfBindings_eq]
    refine (hbindings.1.append hbody).cons ⟨fun x hx => ?_, List.forall_mem_nil _⟩
    obtain ⟨b, hb, rfl⟩ := List.mem_map.1 hx
    exact hbindings.2 b hb
  · refine (steady_pattern hg hs₁).bind fun p s₂ hs₂ hp => ?_
    cases p with
    | var name =>
        refine (draws_bindingValue hg hs₂).bind fun value s₃ m hs₃ hvalue => ?_
        refine (steady_keyword hs₃ _).bind fun _ s₄ hs₄ _ => ?_
        refine (hg.expr hs₄).bind fun body s₅ m₅ hs₅ hbody => .pure hs₅ ?_
        exact (hvalue.append hbody).cons ⟨hp, List.forall_mem_nil _⟩
    | _ =>
        refine (steady_symbol hs₂ _).bind fun _ s₃ hs₃ _ => ?_
        refine (hg.expr hs₃).bind fun value s₄ m hs₄ hvalue => ?_
        refine (steady_keyword hs₄ _).bind fun _ s₅ hs₅ _ => ?_
        refine (hg.expr hs₅).bind fun body s₆ m₆ hs₆ hbody => .pure hs₆ ?_
        exact uses_caseOf hvalue ⟨by simpa using hbody, List.forall_mem_singleton.2 hp⟩

theorem draws_funForm (hg : g.Draws) (hs : s.Drawn n) (start : Range) :
    Draws (funForm g start) s fun e m => UseUp n m e.nodes := by
  refine (steady_patternAtom hg hs).bind fun first s₁ hs₁ hfirst => ?_
  refine (steady_parameters hg hs₁ _ (List.forall_mem_singleton.2 hfirst)).bind
    fun params s₂ hs₂ hparams => ?_
  refine (steady_symbol hs₂ _).bind fun _ s₃ hs₃ _ => ?_
  refine (hg.expr hs₃).bind fun body s₄ m hs₄ hbody => ?_
  refine (draws_lambdas hparams hs₄ hbody).bind fun e s₅ m₅ hs₅ he => ?_
  cases e with
  | lambda param body range =>
      have hlambda : UseUp n m₅ (Expr.lambda param body range :: body.nodes) := he
      exact .pure hs₅ (hlambda.congr_head rfl rfl rfl)
  | _ => exact .pure hs₅ he

theorem draws_ifForm (hg : g.Draws) (hs : s.Drawn n) (start : Range) :
    Draws (ifForm g start) s fun e m => UseUp n m e.nodes := by
  refine (hg.expr hs).bind fun cond s₁ m hs₁ hcond => ?_
  refine (steady_keyword hs₁ _).bind fun _ s₂ hs₂ _ => ?_
  refine (hg.statement hs₂).bind fun yes s₃ m₃ hs₃ hyes => ?_
  refine (steady_keyword hs₃ _).bind fun _ s₄ hs₄ _ => ?_
  refine (hg.statement hs₄).bind fun no s₅ m₅ hs₅ hno => .pure hs₅ ?_
  exact ((hcond.append hyes).append hno).cons (plain_of_nil rfl rfl)

theorem draws_matchArm (hg : g.Draws) (hs : s.Drawn n) :
    Draws (matchArm g) s fun arm m =>
      UseUp n m arm.body.nodes ∧ ∀ x ∈ arm.pattern.binders, IsName x := by
  refine (steady_pattern hg hs).bind fun p s₁ hs₁ hp => ?_
  refine (steady_symbol hs₁ _).bind fun _ s₂ hs₂ _ => ?_
  exact (hg.statement hs₂).bind fun body s₃ m hs₃ hbody => .pure hs₃ ⟨hbody, hp⟩

theorem draws_matchForm (hg : g.Draws) (hs : s.Drawn n) (start : Range) :
    Draws (matchForm g start) s fun e m => UseUp n m e.nodes := by
  refine (hg.expr hs).bind fun scrutinee s₁ m hs₁ hscrutinee => ?_
  refine (steady_keyword hs₁ _).bind fun _ s₂ hs₂ _ => ?_
  refine (steady_skipSymbol hs₂ _).bind fun _ s₃ hs₃ _ => ?_
  refine (uses_sepBy1 hs₃ (fun _ _ hs => draws_matchArm hg hs)
    fun _ _ hs => steady_skipSymbol hs _).bind fun arms s₄ m₄ hs₄ harms => ?_
  exact draws_previousRange_bind (.pure hs₄ (uses_caseOf hscrutinee harms))

theorem draws_statement (hg : g.Draws) (hs : s.Drawn n) :
    Draws (statement g) s fun e m => UseUp n m e.nodes := by
  refine Draws.nested hs fun s₁ hs₁ => draws_nextIsKeyword_bind (.ite (fun _ => ?_) fun _ => ?_)
  · exact (steady_advance hs₁).bind fun _ s₂ hs₂ _ => draws_letForm hg hs₂ _
  · refine draws_nextIsKeyword_bind (.ite (fun _ => ?_) fun _ => ?_)
    · exact (steady_advance hs₁).bind fun _ s₂ hs₂ _ => draws_funForm hg hs₂ _
    · refine draws_nextIsKeyword_bind (.ite (fun _ => ?_) fun _ => ?_)
      · exact (steady_advance hs₁).bind fun _ s₂ hs₂ _ => draws_ifForm hg hs₂ _
      · refine draws_nextIsKeyword_bind (.ite (fun _ => ?_) fun _ => draws_assignment hg hs₁)
        exact (steady_advance hs₁).bind fun _ s₂ hs₂ _ => draws_matchForm hg hs₂ _

/-- Statements are put together from the last one on. -/
theorem uses_sequence {earlier : List Expr} {last : Expr}
    (h : UseUp lo n (last.nodes ++ earlier.flatMap Expr.nodes)) :
    UseUp lo n (earlier.foldl
      (fun rest first => .sequence first rest (first.range.merge rest.range)) last).nodes := by
  induction earlier generalizing last with
  | nil => rwa [List.flatMap_nil, List.append_nil] at h
  | cons first earlier ih =>
      rw [List.foldl_cons]
      refine ih (UseUp.cons (plain_of_nil rfl rfl) (h.perm ?_))
      rw [List.flatMap_cons, ← List.append_assoc]
      exact List.perm_append_comm.append_right _

theorem draws_expr (hg : g.Draws) (hs : s.Drawn n) :
    Draws (expr g) s fun e m => UseUp n m e.nodes := by
  refine (draws_statement hg hs).bind fun first s₁ m hs₁ hfirst => ?_
  have hstart : UseUp n m (first.nodes ++ [].flatMap Expr.nodes) := by simpa using hfirst
  refine (draws_loop (I := fun r m => UseUp n m (r.1.nodes ++ r.2.flatMap Expr.nodes)) ?_ hs₁
    hstart).bind fun r s₂ m₂ hs₂ h => .pure hs₂ (uses_sequence h)
  rintro ⟨last, earlier⟩ s₂ m₂ hs₂ h
  refine (steady_skipSymbol hs₂ _).bind fun _ s₃ hs₃ _ => .ite (fun _ => ?_) fun _ => .pure hs₃ h
  refine .ite (fun _ => draws_failHere _) fun _ => ?_
  refine (draws_statement hg hs₃).bind fun e s₄ m₄ hs₄ he => .pure hs₄ ?_
  exact (h.append he).perm List.perm_append_comm

/-! ### Programs -/

theorem Grammar.Draws.unfold (hg : g.Draws) : g.unfold.Draws where
  type hs := steady_type hg hs
  pattern hs := steady_pattern hg hs
  patternCons hs := steady_patternCons hg hs
  expr hs := draws_expr hg hs
  statement hs := draws_statement hg hs
  chain least hs := draws_chain hg hs least
  unary hs := draws_unary hg hs
  access hs := draws_access hg hs
  atom hs := draws_atom hg hs

theorem draws_grammar (n : Nat) : (grammar n).Draws := by
  induction n with
  | zero =>
      constructor
      all_goals intros
      all_goals exact draws_of_error rfl
  | succ n ih => exact ih.unfold

theorem steady_typeParams (hs : s.Drawn n) : Steady n typeParams s fun _ => True := by
  refine draws_nextIs_bind
    (.ite (fun _ => ?_) fun _ => draws_get_bind (.ite (fun _ => ?_) fun _ => ?_))
  · exact (steady_name hs).bind fun _ s₁ hs₁ _ => steady_pure hs₁ trivial
  · refine (steady_advance hs).bind fun _ s₁ hs₁ _ => ?_
    refine (steady_sepBy1 hs₁ (fun _ hs => steady_nameOf hs _ _)
      fun _ _ hs => steady_skipSymbol hs _).bind fun _ s₂ hs₂ _ => ?_
    exact (steady_symbol hs₂ _).bind fun _ s₃ hs₃ _ => steady_pure hs₃ trivial
  · exact steady_pure hs trivial

theorem steady_ctorDecl (hg : g.Draws) (hs : s.Drawn n) :
    Steady n (ctorDecl g) s fun _ => True := by
  refine (steady_nameOf hs _ _).bind fun name s₁ hs₁ _ => ?_
  refine (steady_skipKeyword hs₁ _).bind fun _ s₂ hs₂ _ => .ite (fun _ => ?_) fun _ => ?_
  · refine (steady_sepBy1 hs₂ (fun _ hs => steady_typeApp hg hs)
      fun _ _ hs => steady_skipSymbol hs _).bind fun args s₃ hs₃ _ => ?_
    exact draws_previousRange_bind (steady_pure hs₃ trivial)
  · refine Steady.bind (n := n) (C := fun _ => True) (steady_pure hs₂ trivial) fun _ s₃ hs₃ _ => ?_
    exact draws_previousRange_bind (steady_pure hs₃ trivial)

theorem steady_typeDecl (hg : g.Draws) (hs : s.Drawn n) :
    Steady n (typeDecl g) s fun _ => True := by
  refine draws_peek_bind ((steady_typeParams hs).bind fun params s₁ hs₁ _ => ?_)
  refine (steady_nameOf hs₁ _ _).bind fun name s₂ hs₂ _ => ?_
  refine (steady_symbol hs₂ _).bind fun _ s₃ hs₃ _ => ?_
  refine draws_nextIsSymbol_bind (draws_nextIs_bind (.ite (fun _ => ?_) fun _ => ?_))
  · refine (steady_skipSymbol hs₃ _).bind fun _ s₄ hs₄ _ => ?_
    refine (steady_sepBy1 hs₄ (fun _ hs => steady_ctorDecl hg hs)
      fun _ _ hs => steady_skipSymbol hs _).bind fun ctors s₅ hs₅ _ => ?_
    exact draws_previousRange_bind (steady_pure hs₅ trivial)
  · exact (steady_type hg hs₃).bind fun _ s₄ hs₄ _ => steady_pure hs₄ trivial

theorem steady_typeGroup (hg : g.Draws) (hs : s.Drawn n) :
    Steady n (typeGroup g) s fun _ => True := by
  refine (steady_sepBy1 hs (fun _ hs => steady_typeDecl hg hs)
    fun _ _ hs => steady_skipKeyword hs _).bind fun group s₁ hs₁ _ => ?_
  exact (steady_keyword hs₁ _).bind fun _ s₂ hs₂ _ => steady_pure hs₂ trivial

theorem draws_wholeProgram (hg : g.Draws) (hs : s.Drawn n) :
    Draws (wholeProgram g) s fun p m => UseUp n m p.body.nodes := by
  have hgroups : Steady n (loop (fun groups => do
      if ← skipKeyword "type" then return some ((← typeGroup g) :: groups) else return none) [])
      s fun _ => True := by
    refine steady_loop (fun groups s₁ hs₁ => ?_) hs []
    refine (steady_skipKeyword hs₁ _).bind fun _ s₂ hs₂ _ =>
      .ite (fun _ => ?_) fun _ => steady_pure hs₂ trivial
    exact (steady_typeGroup hg hs₂).bind fun _ s₃ hs₃ _ => steady_pure hs₃ trivial
  have hprogram : Draws (program g) s fun p m => UseUp n m p.body.nodes := by
    refine hgroups.bind fun groups s₁ hs₁ _ => ?_
    exact (draws_expr hg hs₁).bind fun body s₂ m hs₂ hbody => .pure hs₂ hbody
  refine hprogram.bind fun p s₁ m hs₁ hp => draws_nextIs_bind ?_
  exact .ite (fun _ => .pure hs₁ hp) fun _ => draws_failHere _

end Parser

namespace Program

variable {tokens : List Token} {p : Program}

/-- What is read from tokens uses up the names that were made up, from the first one on. -/
theorem useUp_ofTokens (htokens : ∀ t ∈ tokens, t.kind = .ident → IsName t.text)
    (h : ofTokens tokens = .ok p) : ∃ n, Expr.UseUp 0 n p.body.nodes := by
  have hstart : (Cursor.ofTokens tokens).Drawn 0 := by
    refine ⟨rfl, fun t ht => htokens t ?_⟩
    exact (List.takeWhile_prefix _).subset ht
  have hdraws := draws_wholeProgram (draws_grammar ((Cursor.ofTokens tokens).rest.length + 1)) hstart
  unfold ofTokens at h
  dsimp only [bind, Except.bind] at h
  split at h
  · cases h
  · next r hrun =>
      obtain ⟨n, -, huse⟩ := hdraws r.1 r.2 hrun
      split at h
      · cases h
      · cases h
        exact ⟨n, huse⟩

/-- The names in a program that was read from a text. What it binds is spelled as a name or made up,
and what it refers to is so as well or is an operator. So nothing binds an operator, and wherever an
operator is referred to, that is the primitive. A name that is made up is bound once and referred to
once: by a function whose body is a match of one arm on it. No such name is spelled. -/
theorem names_hygienic {source : String} (hlex : lex source = .ok tokens)
    (hparse : ofTokens tokens = .ok p) :
    (∀ x ∈ p.body.binders, IsName x ∨ ∃ n, x = madeUp n) ∧
    (∀ x ∈ p.body.references,
      IsName x ∨ (∃ q : Primitive, q.IsOperator ∧ q.name = x) ∨ ∃ n, x = madeUp n) ∧
    (∀ q : Primitive, q.IsOperator → q.name ∉ p.body.binders ∧
      p.body.freeNames.count q.name = p.body.references.count q.name) ∧
    (∀ n, madeUp n ∈ p.body.binders ∨ madeUp n ∈ p.body.references →
      p.body.binders.count (madeUp n) = 1 ∧ p.body.references.count (madeUp n) = 1 ∧
      ∃ param name arm range range',
        Expr.lambda param (.caseOf (.var name) [arm] range) range' ∈ p.body.nodes ∧
        param.text = madeUp n ∧ name.text = madeUp n) ∧
    (∀ n, ¬IsName (madeUp n)) ∧ ∀ n m, madeUp n = madeUp m → n = m := by
  obtain ⟨hi, huse⟩ := useUp_ofTokens (isName_of_lex hlex) hparse
  have hbinders : ∀ x ∈ p.body.binders, IsName x ∨ ∃ n, x = madeUp n := by
    intro x hx
    obtain ⟨e, he, hx⟩ := List.mem_flatMap.1 hx
    exact huse.binds e he x hx
  refine ⟨hbinders, fun x hx => ?_, ?_, fun n hn => ?_, not_isName_madeUp, fun n m => madeUp_injective⟩
  · obtain ⟨e, he, hx⟩ := List.mem_flatMap.1 hx
    exact or_assoc.1 (huse.refers e he x hx)
  · rintro q ⟨op, hop, htext⟩
    have hfree : q.name ∉ p.body.binders := by
      rw [← htext]
      intro hx
      rcases hbinders _ hx with hname | ⟨n, hmade⟩
      · exact not_isName_operator hop hname
      · exact madeUp_ne_operator n hop hmade.symm
    exact ⟨hfree, Expr.count_freeNames hfree⟩
  · have hcount := fun f hf => huse.count f hf n
    have hdrawn : 0 < n ∧ n ≤ hi := by
      by_contra hnot
      rcases hn with hn | hn
      · have hzero := hcount Expr.binds (by simp)
        rw [if_neg hnot] at hzero
        exact List.count_eq_zero.1 hzero hn
      · have hzero := hcount Expr.refers (by simp)
        rw [if_neg hnot] at hzero
        exact List.count_eq_zero.1 hzero hn
    simp only [if_pos hdrawn] at hcount
    have hunpack : madeUp n ∈ p.body.nodes.flatMap Expr.unpacks := by
      rw [← List.count_pos_iff, hcount Expr.unpacks (by simp)]
      exact Nat.one_pos
    obtain ⟨e, he, hx⟩ := List.mem_flatMap.1 hunpack
    obtain ⟨param, name, arm, range, range', rfl, hparam, hname⟩ := Expr.exists_of_mem_unpacks hx
    exact ⟨hcount Expr.binds (by simp), hcount Expr.refers (by simp), param, name, arm, range,
      range', he, hparam, hname⟩

/-- The second parameter is matched first, so its name is the first one. -/
theorem names_hygienic_curried : ∃ tokens p, lex "fun (x, y) [z] -> x + z" = .ok tokens ∧
    ofTokens tokens = .ok p ∧
    p.body.binders = [madeUp 2, "x", "y", madeUp 1, "z"] ∧
    p.body.freeNames.count "+" = p.body.references.count "+" ∧
    p.body.references.count (madeUp 1) = 1 ∧ p.body.references.count (madeUp 2) = 1 := by
  have hrun : ((lex "fun (x, y) [z] -> x + z").toOption.bind fun tokens =>
      (ofTokens tokens).toOption.map fun p => p.body.binders) =
        some [madeUp 2, "x", "y", madeUp 1, "z"] := by
    decide +kernel
  obtain ⟨tokens, hlex, hrun⟩ := Option.bind_eq_some_iff.1 hrun
  obtain ⟨p, hparse, hbinders⟩ := Option.map_eq_some_iff.1 hrun
  have hlex : lex "fun (x, y) [z] -> x + z" = .ok tokens := by
    cases h : lex "fun (x, y) [z] -> x + z" with
    | error e => rw [h] at hlex; cases hlex
    | ok ts => rw [h] at hlex; cases hlex; rfl
  have hparse : ofTokens tokens = .ok p := by
    cases h : ofTokens tokens with
    | error e => rw [h] at hparse; cases hparse
    | ok q => rw [h] at hparse; cases hparse; rfl
  obtain ⟨-, -, hoperators, hmade, -⟩ := names_hygienic hlex hparse
  refine ⟨tokens, p, hlex, hparse, hbinders, ?_, ?_, ?_⟩
  · exact (hoperators .add ⟨⟨"+", 6, false⟩, by decide, rfl⟩).2
  · exact (hmade 1 (Or.inl (by simp [hbinders]))).2.1
  · exact (hmade 2 (Or.inl (by simp [hbinders]))).2.1

end Program

end FieldML
