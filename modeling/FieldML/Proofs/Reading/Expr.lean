import FieldML.Proofs.Reading.Parser

/-!
# Reading expressions from their words

The expressions that have neither binders nor operators. Such an expression is read as an argument,
which may stand behind a constructor, or as an operand, and it ends where a closing symbol, a comma
or the end of the text comes next.
-/

namespace FieldML

/-- A program is refused because it is nested too deeply, by itself or for the stages that follow. -/
def ParseError.IsNestingLimit (e : ParseError) : Prop :=
  (∃ found, e.cause = .nestedTooDeeply found) ∨ e.cause = .deeperThan Parser.maxNesting

namespace Parser

open Token

variable {ws ws' rest : List Word} {Q Q' : Expr → Prop} {γ : Type} {c d : γ} {cs : List γ}
  {words : γ → List Word} {S : γ → Expr → Prop}

/-- The words that may come after an expression inside another one, and the end. -/
def closers : List Word :=
  [(.eof, ""), (.symbol, ","), (.symbol, ")"), (.symbol, "]"), (.symbol, "\x7d")]

/-- Whether the word can begin an argument. -/
def beginsArgument (w : Word) : Bool := startsAtom ⟨w.1, w.2, .erased⟩

/-- The words are read as an operand if an expression may end behind them. -/
structure ReadsOperand (ws : List Word) (Q : Expr → Prop) : Prop where
  begins : ∀ rest, beginsArgument (Word.first (ws ++ rest)) = true ∨
    Word.first (ws ++ rest) = (.symbol, "-")
  gives : ∀ n rest, Word.first rest ∈ closers → Gives (unary (grammar n)) ws rest Q

/-- The words are read as an operand that may stand behind a constructor. -/
structure ReadsArgument (ws : List Word) (Q : Expr → Prop) : Prop extends ReadsOperand ws Q where
  argument : ∀ rest, beginsArgument (Word.first (ws ++ rest)) = true
  access : ∀ n rest, Word.first rest ∈ closers → Gives (access (grammar n)) ws rest Q

theorem ReadsOperand.mono (h : ReadsOperand ws Q) (hQ : ∀ e, Q e → Q' e) : ReadsOperand ws Q' :=
  ⟨h.begins, fun n rest hrest => (h.gives n rest hrest).mono hQ⟩

theorem ReadsArgument.mono (h : ReadsArgument ws Q) (hQ : ∀ e, Q e → Q' e) : ReadsArgument ws Q' :=
  ⟨h.toReadsOperand.mono hQ, h.argument, fun n rest hrest => (h.access n rest hrest).mono hQ⟩

/-- The words that no expression without binders and operators begins with. -/
theorem ReadsOperand.first_ne (h : ReadsOperand ws Q) (rest : List Word) {w : Word}
    (hw : beginsArgument w = false) (hminus : w ≠ (.symbol, "-")) : Word.first (ws ++ rest) ≠ w := by
  rintro rfl
  rcases h.begins rest with hbegins | hbegins
  · rw [hbegins] at hw
    cases hw
  · exact hminus hbegins

/-- The words begin with another one than a closing symbol. -/
theorem ReadsOperand.starts (h : ReadsOperand ws Q) {w : Word} (hw : beginsArgument w = false)
    (hminus : w ≠ (.symbol, "-")) : ws ≠ [] ∧ Word.first ws ≠ w := by
  constructor
  · rintro rfl
    have hend := h.first_ne [w] hw hminus
    exact hend rfl
  · have hfirst := h.first_ne [] hw hminus
    rwa [List.append_nil] at hfirst

/-! ### What ends an expression -/

theorem beginsArgument_of_mem_closers : ∀ w ∈ closers, beginsArgument w = false := by decide

theorem ofToken?_of_mem_closers {t : Token} (h : t.word ∈ closers) :
    Operator.ofToken? t = none := by
  have hall : ∀ w ∈ closers, Operator.ofToken? ⟨w.1, w.2, .erased⟩ = none := by decide
  exact hall _ h

theorem first_ne_of_mem_closers {w : Word} (h : Word.first ws ∈ closers) (hw : w ∉ closers) :
    Word.first ws ≠ w := fun heq => hw (heq ▸ h)

/-- What follows one of several items in a list of them ends it. -/
theorem first_mem_closers {close : String} {after : List Word} (hclose : (.symbol, close) ∈ closers)
    (h : MayFollow (.symbol, ",") ((.symbol, close) :: rest) after) : Word.first after ∈ closers := by
  rcases h with rfl | h
  · exact hclose
  · rw [h]
    decide

theorem gives_startsAtom : Gives peek [] ws fun t =>
    startsAtom t = beginsArgument (Word.first ws) := by
  refine gives_peek.mono fun t ht => ?_
  rw [← ht]
  rfl

/-- A constructor or an atom is an application without arguments. -/
theorem gives_application {n : Nat} (hfirst : (Word.first (ws ++ rest)).1 ≠ .constructor)
    (hrest : Word.first rest ∈ closers) (h : Gives (access (grammar n)) ws rest Q) :
    Gives (application (grammar n)) ws rest Q := by
  apply (gives_nextIs .constructor).look
  rintro _ rfl
  rw [decide_eq_false hfirst]
  refine Gives.closing ?_
  apply h.last
  intro e he
  refine gives_loop fun m => gives_steps_done ?_ he
  apply gives_startsAtom.last
  intro t ht
  rw [ht, beginsArgument_of_mem_closers _ hrest]
  exact gives_pure rfl

theorem gives_unary {n : Nat} (hargument : beginsArgument (Word.first (ws ++ rest)) = true)
    (h : Gives (application (grammar n)) ws rest Q) : Gives (unary (grammar n)) ws rest Q := by
  have hne : ∀ w, beginsArgument w = false → Word.first (ws ++ rest) ≠ w := by
    rintro _ hw rfl
    rw [hargument] at hw
    cases hw
  apply (gives_nextIsSymbol "-").look
  rintro _ rfl
  rw [decide_eq_false (hne _ rfl)]
  apply (gives_nextIsKeyword "ref").look
  rintro _ rfl
  rw [decide_eq_false (hne _ rfl)]
  exact h

theorem gives_access {n : Nat} (hrest : Word.first rest ∈ closers)
    (h : Gives (atom (grammar n)) ws rest Q) : Gives (access (grammar n)) ws rest Q := by
  refine Gives.closing ?_
  apply h.last
  intro e he
  refine gives_loop fun m => gives_steps_done ?_ he
  apply (gives_skipSymbol_not (first_ne_of_mem_closers hrest (by decide))).last
  rintro _ rfl
  exact gives_pure rfl

namespace ReadsOperand

variable (h : ReadsOperand ws Q) (n : Nat) (hrest : Word.first rest ∈ closers)

include h hrest

theorem gives_assignment : Gives (assignment (grammar n)) ws rest Q := by
  have hchain : Gives (chain (grammar n) 0) ws rest Q := by
    refine Gives.closing ?_
    apply (h.gives n rest hrest).last
    intro e he
    refine gives_loop fun m => gives_steps_done ?_ he
    apply gives_peek.last
    intro t ht
    rw [ofToken?_of_mem_closers (ht ▸ hrest)]
    exact gives_pure rfl
  apply hchain.last
  intro e he
  apply (gives_skipSymbol_not (first_ne_of_mem_closers hrest (by decide))).last
  rintro _ rfl
  exact gives_pure he

theorem gives_statement : Gives (statement (grammar n)) ws rest Q := by
  have hne : ∀ text, beginsArgument (.keyword, text) = false →
      Word.first (ws ++ rest) ≠ (.keyword, text) := fun text htext =>
    h.first_ne rest htext (by simp)
  refine Gives.nested ?_
  apply (gives_nextIsKeyword "let").look
  rintro _ rfl
  rw [decide_eq_false (hne "let" rfl)]
  apply (gives_nextIsKeyword "fun").look
  rintro _ rfl
  rw [decide_eq_false (hne "fun" rfl)]
  apply (gives_nextIsKeyword "if").look
  rintro _ rfl
  rw [decide_eq_false (hne "if" rfl)]
  apply (gives_nextIsKeyword "match").look
  rintro _ rfl
  rw [decide_eq_false (hne "match" rfl)]
  exact h.gives_assignment n hrest

theorem gives_expr : Gives (expr (grammar n)) ws rest Q := by
  apply (h.gives_statement n hrest).last
  intro e he
  have hloop : Gives (loop (fun p : Expr × List Expr => do
      if ← skipSymbol ";" then
        if maxNesting ≤ p.2.length + 1 then failHere .nestedTooDeeply
        else return some ((← statement (grammar n)), p.1 :: p.2)
      else return none) (e, [])) [] rest fun p => p = (e, []) := by
    refine gives_loop fun m => gives_steps_done ?_ rfl
    apply (gives_skipSymbol_not (first_ne_of_mem_closers hrest (by decide))).last
    rintro _ rfl
    exact gives_pure rfl
  apply hloop.last
  rintro _ rfl
  exact gives_pure he

/-- Inside another form an expression is read with less fuel. -/
theorem inside : Gives (grammar n).expr ws rest Q := by
  cases n with
  | zero => exact gives_stuck
  | succ n => exact h.gives_expr n hrest

theorem inside_statement : Gives (grammar n).statement ws rest Q := by
  cases n with
  | zero => exact gives_stuck
  | succ n => exact h.gives_statement n hrest

end ReadsOperand

/-! ### Atoms -/

theorem readsArgument_of_atom (hfirst : ∀ rest, (Word.first (ws ++ rest)).1 ≠ .constructor)
    (hargument : ∀ rest, beginsArgument (Word.first (ws ++ rest)) = true)
    (hatom : ∀ n rest, Gives (atom (grammar n)) ws rest Q) : ReadsArgument ws Q := by
  refine ⟨⟨fun rest => Or.inl (hargument rest), fun n rest hrest => ?_⟩, hargument,
    fun n rest hrest => gives_access hrest (hatom n rest)⟩
  exact gives_unary (hargument rest)
    (gives_application (hfirst rest) hrest (gives_access hrest (hatom n rest)))

theorem gives_integer {text : String} {i : Int64} (h : Text.int64OfDecimal? text = some i)
    (range : Range) : Gives (integer text range) [] rest fun j => j = i := by
  rw [integer, h]
  exact gives_pure rfl

theorem readsArgument_number {text : String} {i : Int64} (h : Text.int64OfDecimal? text = some i) :
    ReadsArgument [(.number, text)] fun e => ∃ r, e = .literal (.int i) r := by
  refine readsArgument_of_atom (fun rest => by simp [Word.first]) (fun _ => rfl) fun n rest => ?_
  apply gives_peek.look
  intro t ht
  obtain ⟨hkind, htext⟩ := word_of_first ht
  simp only [hkind, htext]
  apply (gives_advance _).last
  intro _ _
  apply (gives_integer h t.range).last
  rintro _ rfl
  exact gives_pure ⟨t.range, rfl⟩

theorem readsArgument_string (text : String) : ReadsArgument [(.string, text)] fun e =>
    ∃ r, e = .literal (.string text) r := by
  refine readsArgument_of_atom (fun rest => by simp [Word.first]) (fun _ => rfl) fun n rest => ?_
  apply gives_peek.look
  intro t ht
  obtain ⟨hkind, htext⟩ := word_of_first ht
  simp only [hkind, htext]
  apply (gives_advance _).last
  intro _ _
  exact gives_pure ⟨t.range, rfl⟩

theorem readsArgument_bool (b : Bool) :
    ReadsArgument [(.keyword, if b then "true" else "false")] fun e =>
      ∃ r, e = .literal (.bool b) r := by
  refine readsArgument_of_atom (fun rest => by simp [Word.first]) (fun _ => by cases b <;> rfl)
    fun n rest => ?_
  apply gives_peek.look
  intro t ht
  obtain ⟨hkind, htext⟩ := word_of_first ht
  have hword : t.text = "true" ∨ t.text = "false" := by
    cases b <;> simp [htext]
  have hvalue : decide (t.text = "true") = b := by
    cases b <;> simp [htext]
  simp only [hkind]
  rw [if_pos hword, hvalue]
  apply (gives_advance _).last
  intro _ _
  exact gives_pure ⟨t.range, rfl⟩

theorem readsArgument_constant (name : String) : ReadsArgument [(.constructor, name)] fun e =>
    ∃ ctor r, e = .construct ctor none r ∧ ctor.text = name := by
  have hatom : ∀ n rest, Gives (atom (grammar n)) [(.constructor, name)] rest fun e =>
      ∃ ctor r, e = .construct ctor none r ∧ ctor.text = name := by
    intro n rest
    apply gives_peek.look
    intro t ht
    obtain ⟨hkind, -⟩ := word_of_first ht
    simp only [hkind]
    apply (gives_name .constructor name).last
    intro ctor hctor
    exact gives_pure ⟨ctor, _, rfl, hctor⟩
  refine ⟨⟨fun rest => Or.inl rfl, fun n rest hrest => gives_unary rfl ?_⟩, fun _ => rfl,
    fun n rest hrest => gives_access hrest (hatom n rest)⟩
  apply (gives_nextIs .constructor).look
  rintro _ rfl
  have hnext : decide ((Word.first ([(TokenKind.constructor, name)] ++ rest)).1 = .constructor) =
      true := decide_eq_true rfl
  rw [hnext, if_pos rfl]
  apply (gives_name .constructor name).last
  intro ctor hctor
  apply gives_startsAtom.last
  intro t ht
  rw [ht, beginsArgument_of_mem_closers _ hrest]
  exact gives_pure ⟨ctor, _, rfl, hctor⟩

/-- An opening symbol and what is read behind it. -/
theorem readsArgument_open {text : String} (form : Grammar → Range → Parser Expr)
    (htext : beginsArgument (.symbol, text) = true)
    (hatom : ∀ (g : Grammar) (s : Cursor), s.peek.kind = .symbol → s.peek.text = text →
      atom g s = (advance >>= fun _ => form g s.peek.range) s)
    (h : ∀ n rest start, Gives (form (grammar n) start) ws rest Q) :
    ReadsArgument ((.symbol, text) :: ws) Q := by
  refine readsArgument_of_atom (fun rest => by simp [Word.first]) (fun _ => htext) fun n rest => ?_
  intro s hs
  have hfirst : s.peek.word = (.symbol, text) := by
    rw [s.word_peek, hs]
    rfl
  obtain ⟨hkind, hword⟩ := Prod.mk.inj hfirst
  rw [hatom _ s hkind hword]
  have hopen : Gives (advance >>= fun _ => form (grammar n) s.peek.range)
      ([(.symbol, text)] ++ ws) rest Q := by
    apply (gives_advance _).bind
    intro _ _
    exact h n rest s.peek.range
  exact hopen s hs

theorem readsArgument_parens (h : ∀ n rest start, Gives (parenForm (grammar n) start) ws rest Q) :
    ReadsArgument ((.symbol, "(") :: ws) Q := by
  refine readsArgument_open parenForm rfl (fun g s hkind htext => ?_) h
  have hpeek : peek s = .ok (s.peek, s) := rfl
  unfold atom
  rw [bind_apply, hpeek]
  simp only [hkind, htext]
  rfl

theorem readsArgument_unit : ReadsArgument [(.symbol, "("), (.symbol, ")")] fun e =>
    ∃ r, e = .literal .unit r := by
  refine readsArgument_parens fun n rest start => ?_
  apply (gives_nextIsSymbol ")").look
  rintro _ rfl
  have hnext : decide (Word.first ([(TokenKind.symbol, ")")] ++ rest) = (.symbol, ")")) = true :=
    decide_eq_true rfl
  rw [hnext]
  apply (gives_advance _).last
  intro t _
  exact gives_pure ⟨_, rfl⟩

theorem ReadsOperand.parens (h : ReadsOperand ws Q) :
    ReadsArgument ((.symbol, "(") :: (ws ++ [(.symbol, ")")])) Q := by
  refine readsArgument_parens fun n rest start => ?_
  have hclose : Word.first ([(TokenKind.symbol, ")")] ++ rest) ∈ closers := by
    simp [Word.first, closers]
  apply (gives_nextIsSymbol ")").look
  rintro _ rfl
  rw [List.append_assoc, decide_eq_false (h.first_ne _ rfl (by decide))]
  apply (h.inside n hclose).bind
  intro e he
  apply (gives_skipSymbol_not (by simp [Word.first])).look
  rintro _ rfl
  apply (gives_nextIsSymbol ",").look
  rintro _ rfl
  rw [decide_eq_false (by simp [Word.first])]
  apply (gives_symbol ")").last
  intro _ _
  exact gives_pure he

/-- Several expressions between parentheses. -/
theorem readsArgument_tuple (hcs : ∀ e ∈ c :: d :: cs, ReadsOperand (words e) (S e)) :
    ReadsArgument ((.symbol, "(") :: (listed (.symbol, ",") ((c :: d :: cs).map words) ++
      [(.symbol, ")")])) fun e => ∃ es r, e = .tuple es r ∧ List.Forall₂ S (c :: d :: cs) es := by
  obtain ⟨hc, hds⟩ := List.forall_mem_cons.1 hcs
  refine readsArgument_parens fun n rest start => ?_
  rw [List.map_cons, listed, List.append_assoc]
  apply (gives_nextIsSymbol ")").look
  rintro _ rfl
  rw [List.append_assoc, decide_eq_false (hc.first_ne _ rfl (by decide))]
  have hcomma : Word.first (separated (.symbol, ",") ((d :: cs).map words) ++
      [(.symbol, ")")] ++ rest) = (.symbol, ",") := rfl
  apply (hc.inside n (by rw [hcomma]; decide)).bind
  intro first hfirst
  apply (gives_skipSymbol_not (by rw [hcomma]; decide)).look
  rintro _ rfl
  apply (gives_nextIsSymbol ",").look
  rintro _ rfl
  rw [decide_eq_true hcomma]
  apply (gives_moreItems hfirst (by simp [Word.first]) fun e he after hafter =>
    (hds e he).inside n (first_mem_closers (by decide) hafter)).bind
  intro items hitems
  apply (gives_symbol ")").last
  intro stop _
  exact gives_pure ⟨items.reverse, _, rfl, hitems⟩

theorem readsArgument_list (hcs : ∀ e ∈ cs, ReadsOperand (words e) (S e)) :
    ReadsArgument ((.symbol, "[") :: (listed (.symbol, ",") (cs.map words) ++ [(.symbol, "]")]))
      fun e => ∃ es r, e = .list es r ∧ List.Forall₂ S cs es := by
  refine readsArgument_open (fun g start => do
    let items ← commaList g.expr "]"
    return .list items (start.merge (← symbol "]"))) rfl (fun g s hkind htext => ?_)
    fun n rest start => ?_
  · have hpeek : peek s = .ok (s.peek, s) := rfl
    unfold atom
    rw [bind_apply, hpeek]
    simp only [hkind, htext]
    rfl
  · have hitems : Gives (commaList (grammar n).expr "]") (listed (.symbol, ",") (cs.map words))
        ([(.symbol, "]")] ++ rest) fun items => List.Forall₂ S cs items :=
      gives_commaList (by decide) (fun e he => (hcs e he).starts rfl (by decide))
        fun e he after hafter => (hcs e he).inside n (first_mem_closers (by decide) hafter)
    apply hitems.bind
    intro items hitems
    apply (gives_symbol "]").last
    intro stop _
    exact gives_pure ⟨items, _, rfl, hitems⟩

/-! ### Records -/

theorem gives_get : Gives get [] ws fun s => s.words = ws := fun _ hs => ⟨hs, hs⟩

/-- The words of a field with those of its value. -/
def fieldValueWords (name : String) (ws : List Word) : List Word :=
  (.ident, name) :: (.symbol, "=") :: ws

theorem ReadsOperand.field (h : ReadsOperand ws Q) (name : String) (n : Nat)
    (hrest : Word.first rest ∈ closers) :
    Gives (recordField (grammar n).statement) (fieldValueWords name ws) rest fun f =>
      f.1.text = name ∧ Q f.2 := by
  have hfield : Gives (recordField (grammar n).statement)
      ([(.ident, name)] ++ ([(.symbol, "=")] ++ ws)) rest fun f => f.1.text = name ∧ Q f.2 := by
    apply (gives_nameOf .ident name "a field name").bind
    intro field hfield
    apply (gives_symbol "=").bind
    intro _ _
    apply (h.inside_statement n hrest).last
    intro e he
    exact gives_pure ⟨hfield, he⟩
  exact hfield

theorem readsArgument_record (names : γ → String) (hcs : ∀ e ∈ cs, ReadsOperand (words e) (S e)) :
    ReadsArgument ((.symbol, "\x7b") ::
      (listed (.symbol, ",") (cs.map fun e => fieldValueWords (names e) (words e)) ++
        [(.symbol, "\x7d")])) fun e => ∃ fs r, e = .record fs r ∧
        List.Forall₂ (fun c (f : Ident × Expr) => f.1.text = names c ∧ S c f.2) cs fs := by
  refine readsArgument_open recordForm rfl (fun g s hkind htext => ?_)
    fun n rest start => ?_
  · have hpeek : peek s = .ok (s.peek, s) := rfl
    unfold atom
    rw [bind_apply, hpeek]
    simp only [hkind, htext]
    rfl
  · have hfields : Gives (commaList (recordField (grammar n).statement) "\x7d")
        (listed (.symbol, ",") (cs.map fun e => fieldValueWords (names e) (words e)))
        ([(.symbol, "\x7d")] ++ rest)
        fun fs => List.Forall₂ (fun c f => f.1.text = names c ∧ S c f.2) cs fs :=
      gives_commaList (by decide)
        (fun e _ => ⟨List.cons_ne_nil _ _, by simp [fieldValueWords, Word.first]⟩)
        fun e he after hafter =>
          (hcs e he).field (names e) n (first_mem_closers (by decide) hafter)
    apply gives_get.look
    intro s hs
    apply (gives_nextIsSymbol "\x7d").look
    rintro _ rfl
    split_ifs with hfield
    · apply hfields.bind
      intro fs hfs
      apply (gives_symbol "\x7d").last
      intro stop _
      exact gives_pure ⟨fs, _, rfl, hfs⟩
    · -- Either a field comes next, or the record ends.
      refine absurd ?_ hfield
      cases cs with
      | nil => exact Bool.or_eq_true_iff.2 (Or.inr (decide_eq_true rfl))
      | cons c cs =>
          obtain ⟨t, ts, hrest, ht, hts⟩ := List.map_eq_cons_iff.1 hs
          obtain ⟨t', ts', rfl, ht', -⟩ := List.map_eq_cons_iff.1 hts
          obtain ⟨hkind, -⟩ := Prod.mk.inj ht
          simp [hrest, hkind, isWord_of_word ht']

/-! ### Operands -/

theorem readsOperand_negative {digits : String} {i : Int64}
    (h : Text.int64OfDecimal? ("-" ++ digits) = some i) :
    ReadsOperand [(.symbol, "-"), (.number, digits)] fun e => ∃ r, e = .literal (.int i) r := by
  refine ⟨fun _ => Or.inr rfl, fun n rest _ => ?_⟩
  have hnegative : Gives (unary (grammar n)) ([(.symbol, "-")] ++ [(.number, digits)]) rest
      fun e => ∃ r, e = .literal (.int i) r := by
    apply (gives_nextIsSymbol "-").look
    rintro _ rfl
    have hminus : decide (Word.first ([(TokenKind.symbol, "-")] ++ [(.number, digits)] ++ rest) =
        (.symbol, "-")) = true := decide_eq_true rfl
    rw [hminus, if_pos rfl]
    apply (gives_advance _).bind
    intro start _
    apply (gives_nextIs .number).look
    rintro _ rfl
    have hnumber : decide ((Word.first ([(TokenKind.number, digits)] ++ rest)).1 = .number) = true :=
      decide_eq_true rfl
    rw [hnumber, if_pos rfl]
    apply (gives_advance _).last
    intro number hword
    obtain ⟨-, htext⟩ := Prod.mk.inj hword
    rw [htext]
    apply (gives_integer h number.range).last
    rintro _ rfl
    exact gives_pure ⟨_, rfl⟩
  exact hnegative

theorem ReadsArgument.construct (h : ReadsArgument ws Q) (name : String) :
    ReadsOperand ((.constructor, name) :: ws) fun e => ∃ ctor arg r,
      e = .construct ctor (some arg) r ∧ ctor.text = name ∧ Q arg := by
  refine ⟨fun _ => Or.inl rfl, fun n rest hrest => gives_unary rfl ?_⟩
  apply (gives_nextIs .constructor).look
  rintro _ rfl
  have hnext : decide ((Word.first ((TokenKind.constructor, name) :: ws ++ rest)).1 =
      .constructor) = true := decide_eq_true rfl
  rw [hnext, if_pos rfl]
  have hwords : Gives (Parser.name >>= fun ctor => peek >>= fun t =>
      if startsAtom t = true then do
        let arg ← Parser.access (grammar n)
        return Expr.construct ctor (some arg) (ctor.range.merge arg.range)
      else return Expr.construct ctor none ctor.range) ([(.constructor, name)] ++ ws) rest
      fun e => ∃ ctor arg r, e = .construct ctor (some arg) r ∧ ctor.text = name ∧ Q arg := by
    apply (gives_name .constructor name).bind
    intro ctor hctor
    apply gives_startsAtom.look
    intro t ht
    rw [ht, h.argument rest, if_pos rfl]
    apply (h.access n rest hrest).last
    intro arg harg
    exact gives_pure ⟨ctor, arg, _, rfl, hctor, harg⟩
  exact hwords

/-! ### Whole programs -/

/-- An expression alone is a program without declarations. -/
theorem ReadsOperand.gives_wholeProgram (h : ReadsOperand ws Q) (n : Nat) :
    Gives (wholeProgram (grammar n)) ws [] fun p => p.groups = [] ∧ Q p.body := by
  have hclosers : Word.first [] ∈ closers := by decide
  have hexpr := h.gives_expr n hclosers
  have htype : Word.first (ws ++ []) ≠ (.keyword, "type") := h.first_ne [] rfl (by decide)
  have hgroups : Gives (loop (fun groups => do
      if ← skipKeyword "type" then return some ((← typeGroup (grammar n)) :: groups)
      else return none) []) [] (ws ++ []) fun groups => groups = [] := by
    refine gives_loop fun m => gives_steps_done ?_ rfl
    apply (gives_skipKeyword_not htype).last
    rintro _ rfl
    exact gives_pure rfl
  have hprogram : Gives (program (grammar n)) ws [] fun p => p.groups = [] ∧ Q p.body := by
    apply hgroups.look
    rintro _ rfl
    apply hexpr.last
    intro e he
    exact gives_pure ⟨rfl, he⟩
  exact gives_whole hprogram

/-- The text of an expression alone is read as that expression, unless it is nested too deeply. -/
theorem ReadsOperand.reads_program {text : String} (h : ReadsOperand ws Q)
    (htext : Writes text ws) :
    ∃ tokens, lex text = .ok tokens ∧
      ((∃ p, Program.ofTokens tokens = .ok p ∧ p.groups = [] ∧ Q p.body) ∨
        ∃ e, Program.ofTokens tokens = .error e ∧ e.IsNestingLimit) := by
  obtain ⟨tokens, hlex, hwords⟩ := exists_tokens htext
  refine ⟨tokens, hlex, ?_⟩
  have hfuel {e : ParseError} := @Program.ofTokens_error_ne_outOfFuel tokens e
  have hgiven := h.gives_wholeProgram ((Cursor.ofTokens tokens).rest.length + 1)
    (Cursor.ofTokens tokens) (by rwa [List.append_nil])
  unfold Program.ofTokens at hfuel ⊢
  simp only [bind, Except.bind] at hfuel ⊢
  cases hrun : wholeProgram (grammar ((Cursor.ofTokens tokens).rest.length + 1))
      (Cursor.ofTokens tokens) with
  | error e =>
      rw [hrun] at hgiven hfuel
      exact Or.inr ⟨e, rfl, Or.inl (hgiven.resolve_right (hfuel rfl))⟩
  | ok r =>
      rw [hrun] at hgiven
      dsimp only
      split_ifs
      · exact Or.inr ⟨_, rfl, Or.inr rfl⟩
      · exact Or.inl ⟨r.1, rfl, hgiven.2⟩

end Parser

end FieldML
