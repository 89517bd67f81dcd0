import FieldML.Proofs.Parser.Expr
import FieldML.Proofs.Tape.Follows
import FieldML.Proofs.Tape.Forms

/-!
# Types, patterns and expressions read by index

A grammar read by index follows one read from the left if each of its forms does. Forms over such
grammars follow each other as well.
-/

namespace FieldML.Tape

/-- All forms follow those of the other grammar, and read at least one token. -/
structure Grammar.Follows (G : Grammar) (g : Parser.Grammar) : Prop where
  type : ∀ s, s.Valid → Moves G.type g.type s
  pattern : ∀ s, s.Valid → Moves G.pattern g.pattern s
  patternCons : ∀ s, s.Valid → Moves G.patternCons g.patternCons s
  expr : ∀ s, s.Valid → Moves G.expr g.expr s
  statement : ∀ s, s.Valid → Moves G.statement g.statement s
  chain : ∀ least s, s.Valid → Moves (G.chain least) (g.chain least) s
  unary : ∀ s, s.Valid → Moves G.unary g.unary s
  access : ∀ s, s.Valid → Moves G.access g.access s
  atom : ∀ s, s.Valid → Moves G.atom g.atom s

variable {G : Grammar} {g : Parser.Grammar} {s : Tape}

theorem moves_typeField (hG : G.Follows g) (hs : s.Valid) :
    Moves (typeField G) (Parser.typeField g) s := by
  refine (moves_nameOf hs (by decide) _).bind fun field s₁ hs₁ h₁ => ?_
  refine (moves_symbol hs₁ _).bind fun _ s₂ hs₂ h₂ => ?_
  exact (hG.type s₂ hs₂).bind fun t s₃ hs₃ h₃ => .pure hs₃ ⟨by omega, by omega⟩

theorem moves_typeAtom (hG : G.Follows g) (hs : s.Valid) :
    Moves (typeAtom G) (Parser.typeAtom g) s := by
  refine follows_peek_bind hs fun t ht => ?_
  rw [ht.kind_eq]
  cases hkind : s.cursor.peek.kind with
  | typeVar =>
      exact (follows_name hs (by simp [hkind])).bind fun _ s₁ hs₁ h₁ => .pure hs₁ h₁
  | ident =>
      exact (follows_name hs (by simp [hkind])).bind fun _ s₁ hs₁ h₁ => .pure hs₁ h₁
  | symbol =>
      have hne : s.cursor.peek.kind ≠ .eof := by simp [hkind]
      obtain rfl := ht.eq_of_ne hne
      dsimp only
      split_ifs
      · refine (moves_advance hs hne).bind fun _ s₁ hs₁ h₁ => ?_
        refine (moves_sepBy1 hG.type (fun s hs => stays_skipSymbol _ hs) hs₁).bind
          fun items s₂ hs₂ h₂ => ?_
        exact (moves_symbol hs₂ _).bind fun _ s₃ hs₃ h₃ => .pure hs₃ ⟨by omega, by omega⟩
      · refine (moves_advance hs hne).bind fun _ s₁ hs₁ h₁ => ?_
        refine (stays_commaList (fun s hs => moves_typeField hG hs) _ hs₁).bind
          fun fields s₂ hs₂ h₂ => ?_
        exact (moves_symbol hs₂ _).bind fun _ s₃ hs₃ h₃ => .pure hs₃ ⟨by omega, by omega⟩
      · exact follows_failExpected hs _
  | _ => exact follows_failExpected hs _

theorem moves_typeApp (hG : G.Follows g) (hs : s.Valid) :
    Moves (typeApp G) (Parser.typeApp g) s := by
  refine (moves_typeAtom hG hs).bind fun args s₁ hs₁ h₁ => ?_
  refine (stays_counted (fun args s hs => ?_) args hs₁).bind fun args s₂ hs₂ h₂ => ?_
  · refine follows_nextIs_bind hs ?_
    split
    · next h =>
        have hkind : s.cursor.peek.kind = .ident := of_decide_eq_true h
        refine (follows_descend hs).bind ?_
        rintro _ _ hs₁ rfl
        refine (follows_name hs₁ (hkind.trans_ne (by decide))).bind fun name s₂ hs₂ h₂ => ?_
        exact .pure hs₂ ⟨Nat.le_of_lt h₂.1, h₂.2⟩
    · exact .pure hs ⟨Nat.le_refl _, rfl⟩
  · rcases args with _ | ⟨type, _ | ⟨other, args⟩⟩
    · exact follows_failExpected hs₂ _
    · exact .pure hs₂ ⟨by omega, by omega⟩
    · exact follows_failExpected hs₂ _

/-- The loop never takes away the item that it began with. -/
theorem moves_typeProduct (hG : G.Follows g) (hs : s.Valid) :
    Moves (typeProduct G) (Parser.typeProduct g) s := by
  refine (moves_typeApp hG hs).bind fun first s₁ hs₁ h₁ => ?_
  refine follows_nextIsSymbol_bind hs₁ ?_
  split
  · refine (follows_loop (I := fun items => items.reverse[0]? = some first)
      (fun items s hitems hs => ?_) rfl hs₁).bind ?_
    · refine (stays_skipSymbol _ hs).bind fun b s₂ hs₂ h₂ => ?_
      split
      · refine (moves_typeApp hG hs₂).bind fun item s₃ hs₃ h₃ => .pure hs₃ ⟨?_, by omega, by omega⟩
        rintro _ ⟨rfl⟩
        rw [List.reverse_cons, List.getElem?_append_left, hitems]
        exact (List.getElem?_eq_some_iff.1 hitems).1
      · exact .pure hs₂ ⟨by simp, h₂⟩
    · rintro items s₂ hs₂ ⟨hitems, h₂⟩
      rw [hitems]
      exact (stays_previousRange hs₂ (by omega)).bind fun range s₃ hs₃ h₃ =>
        .pure hs₃ ⟨by omega, by omega⟩
  · exact .pure hs₁ h₁

/-- What a type is one level deeper. -/
def parseTypeArrow (g : Parser.Grammar) : Parser TypeExpr := do
  let param ← Parser.typeProduct g
  if ← Parser.skipSymbol "->" then
    let result ← g.type
    return .func param result (param.range.merge result.range)
  else return param

theorem moves_typeArrow (hG : G.Follows g) (hs : s.Valid) :
    Moves (typeArrow G) (parseTypeArrow g) s := by
  refine (moves_typeProduct hG hs).bind fun param s₁ hs₁ h₁ => ?_
  refine (stays_skipSymbol _ hs₁).bind fun b s₂ hs₂ h₂ => ?_
  split
  · exact (hG.type s₂ hs₂).bind fun result s₃ hs₃ h₃ => .pure hs₃ ⟨by omega, by omega⟩
  · exact .pure hs₂ ⟨by omega, by omega⟩

theorem moves_type (hG : G.Follows g) (hs : s.Valid) : Moves (type G) (Parser.type g) s :=
  moves_nested hs fun _ hs₁ _ => moves_typeArrow hG hs₁

/-! ### Patterns -/

theorem stays_patternParens (hG : G.Follows g) (hs : s.Valid) (start : Range) :
    Stays (patternParens G start) (Parser.patternParens g start) s := by
  refine follows_nextIsSymbol_bind hs ?_
  split
  · next h =>
      exact (moves_advance hs (kind_ne_of_isWord h (by decide))).bind
        fun _ _ hs₁ h₁ => .pure hs₁ ⟨by omega, by omega⟩
  · refine (hG.pattern s hs).bind fun first s₁ hs₁ h₁ => ?_
    refine follows_nextIsSymbol_bind hs₁ ?_
    split
    · refine (stays_loop (fun items s hs => stays_separated (fun s hs => (hG.pattern s hs).stays)
        (fun s hs => stays_skipSymbol "," hs) items hs) [first] hs₁).bind fun items s₂ hs₂ h₂ => ?_
      exact (moves_symbol hs₂ _).bind fun _ s₃ hs₃ h₃ => .pure hs₃ ⟨by omega, by omega⟩
    · exact (moves_symbol hs₁ _).bind fun _ s₂ hs₂ h₂ => .pure hs₂ ⟨by omega, by omega⟩

theorem stays_patternNegative (hs : s.Valid) (start : Range) :
    Stays (patternNegative start) (Parser.patternNegative start) s := by
  refine follows_nextIs_bind hs ?_
  split
  · next h =>
      have hkind : s.cursor.peek.kind = .number := of_decide_eq_true h
      refine (moves_advance hs (hkind.trans_ne (by decide))).bind fun number s₁ hs₁ h₁ => ?_
      exact (stays_integer hs₁ _ _).bind fun _ s₂ hs₂ h₂ => .pure hs₂ ⟨by omega, by omega⟩
  · exact follows_failExpected hs _

theorem moves_patternAtom (hG : G.Follows g) (hs : s.Valid) :
    Moves (patternAtom G) (Parser.patternAtom g) s := by
  refine follows_peek_bind hs fun t ht => ?_
  rw [ht.kind_eq]
  cases hkind : s.cursor.peek.kind with
  | ident =>
      exact (follows_name hs (by simp [hkind])).bind fun _ s₁ hs₁ h₁ => .pure hs₁ h₁
  | constructor =>
      exact (follows_name hs (by simp [hkind])).bind fun _ s₁ hs₁ h₁ => .pure hs₁ h₁
  | number =>
      have hne : s.cursor.peek.kind ≠ .eof := by simp [hkind]
      obtain rfl := ht.eq_of_ne hne
      refine (moves_advance hs hne).bind fun _ s₁ hs₁ h₁ => ?_
      exact (stays_integer hs₁ _ _).bind fun _ s₂ hs₂ h₂ => .pure hs₂ ⟨by omega, by omega⟩
  | string =>
      have hne : s.cursor.peek.kind ≠ .eof := by simp [hkind]
      obtain rfl := ht.eq_of_ne hne
      exact (moves_advance hs hne).bind fun _ s₁ hs₁ h₁ => .pure hs₁ h₁
  | keyword =>
      have hne : s.cursor.peek.kind ≠ .eof := by simp [hkind]
      obtain rfl := ht.eq_of_ne hne
      dsimp only
      split_ifs
      · exact (moves_advance hs hne).bind fun _ s₁ hs₁ h₁ => .pure hs₁ h₁
      · exact follows_failExpected hs _
  | symbol =>
      have hne : s.cursor.peek.kind ≠ .eof := by simp [hkind]
      obtain rfl := ht.eq_of_ne hne
      dsimp only
      split_ifs
      · refine (moves_advance hs hne).bind fun _ s₁ hs₁ h₁ => ?_
        exact (stays_patternNegative hs₁ _).mono fun _ _ h₂ => ⟨by omega, by omega⟩
      · refine (moves_advance hs hne).bind fun _ s₁ hs₁ h₁ => ?_
        exact (stays_patternParens hG hs₁ _).mono fun _ _ h₂ => ⟨by omega, by omega⟩
      · refine (moves_advance hs hne).bind fun _ s₁ hs₁ h₁ => ?_
        refine (stays_commaList hG.pattern _ hs₁).bind fun items s₂ hs₂ h₂ => ?_
        exact (moves_symbol hs₂ _).bind fun _ s₃ hs₃ h₃ => .pure hs₃ ⟨by omega, by omega⟩
      · exact follows_failExpected hs _
  | _ => exact follows_failExpected hs _

theorem moves_patternCtor (hG : G.Follows g) (hs : s.Valid) :
    Moves (patternCtor G) (Parser.patternCtor g) s := by
  refine follows_nextIs_bind hs ?_
  split
  · next h =>
      have hkind : s.cursor.peek.kind = .constructor := of_decide_eq_true h
      refine (follows_name hs (hkind.trans_ne (by decide))).bind fun ctor s₁ hs₁ h₁ => ?_
      refine follows_peek_bind hs₁ fun t ht => ?_
      rw [ht.startsPatternAtom]
      split_ifs
      · exact (moves_patternAtom hG hs₁).bind fun arg s₂ hs₂ h₂ => .pure hs₂ ⟨by omega, by omega⟩
      · exact .pure hs₁ h₁
  · exact moves_patternAtom hG hs

theorem moves_patternCons (hG : G.Follows g) (hs : s.Valid) :
    Moves (patternCons G) (Parser.patternCons g) s := by
  refine (moves_patternCtor hG hs).bind fun head s₁ hs₁ h₁ => ?_
  refine (stays_skipSymbol _ hs₁).bind fun b s₂ hs₂ h₂ => ?_
  split
  · exact (moves_nested hs₂ fun s₃ hs₃ _ => hG.patternCons s₃ hs₃).bind
      fun tail s₃ hs₃ h₃ => .pure hs₃ ⟨by omega, by omega⟩
  · exact .pure hs₂ ⟨by omega, by omega⟩

/-- What a pattern is one level deeper. -/
def parsePatternAs (g : Parser.Grammar) : Parser Pattern := do
  let pattern ← Parser.patternCons g
  if ← Parser.skipKeyword "as" then
    let name ← Parser.nameOf .ident "a binder name after 'as'"
    return .alias pattern name (pattern.range.merge name.range)
  else return pattern

theorem moves_patternAs (hG : G.Follows g) (hs : s.Valid) :
    Moves (patternAs G) (parsePatternAs g) s := by
  refine (moves_patternCons hG hs).bind fun pattern s₁ hs₁ h₁ => ?_
  refine (stays_skipKeyword _ hs₁).bind fun b s₂ hs₂ h₂ => ?_
  split
  · exact (moves_nameOf hs₂ (by decide) _).bind fun name s₃ hs₃ h₃ =>
      .pure hs₃ ⟨by omega, by omega⟩
  · exact .pure hs₂ ⟨by omega, by omega⟩

theorem moves_pattern (hG : G.Follows g) (hs : s.Valid) : Moves (pattern G) (Parser.pattern g) s :=
  moves_nested hs fun _ hs₁ _ => moves_patternAs hG hs₁

/-! ### Expressions -/

theorem moves_recordField (hG : G.Follows g) (hs : s.Valid) :
    Moves (recordField G) (Parser.recordField g.statement) s := by
  refine (moves_nameOf hs (by decide) _).bind fun field s₁ hs₁ h₁ => ?_
  refine (moves_symbol hs₁ _).bind fun _ s₂ hs₂ h₂ => ?_
  exact (hG.statement s₂ hs₂).bind fun value s₃ hs₃ h₃ => .pure hs₃ ⟨by omega, by omega⟩

theorem moves_record (hG : G.Follows g) (hs : s.Valid) :
    Moves (record G) (Parser.symbol "\x7b" >>= Parser.recordForm g) s := by
  refine (moves_symbol hs _).bind fun start s₁ hs₁ h₁ => ?_
  refine follows_lookahead_bind hs₁ (P := fun t => t.kind = .ident)
    (U := (Token.isWord · .symbol "=")) (fun t ht => by simp [ht])
    (fun t ht => by simp [Token.isWord, ht]) ?_
  unfold Parser.recordForm
  refine follows_get_bind ?_
  change Follows _ (Parser.nextIsSymbol "\x7d" >>= fun b => if (lookahead
    (fun t => t.kind = .ident) (Token.isWord · .symbol "=") s₁.cursor.rest || b) = true
      then _ else _) s₁ _
  refine follows_nextIsSymbol_bind hs₁ ?_
  split
  · refine (stays_commaList (fun s hs => moves_recordField hG hs) _ hs₁).bind
      fun fields s₂ hs₂ h₂ => ?_
    exact (moves_symbol hs₂ _).bind fun _ s₃ hs₃ h₃ => .pure hs₃ ⟨by omega, by omega⟩
  · refine (hG.access s₁ hs₁).bind fun base s₂ hs₂ h₂ => ?_
    refine (moves_keyword hs₂ _).bind fun _ s₃ hs₃ h₃ => ?_
    refine (stays_commaList (fun s hs => moves_recordField hG hs) _ hs₃).bind
      fun fields s₄ hs₄ h₄ => ?_
    split
    · exact follows_failExpected hs₄ _
    · exact (moves_symbol hs₄ _).bind fun _ s₅ hs₅ h₅ => .pure hs₅ ⟨by omega, by omega⟩

theorem moves_paren (hG : G.Follows g) (hs : s.Valid) :
    Moves (paren G) (Parser.symbol "(" >>= Parser.parenForm g) s := by
  refine (moves_symbol hs _).bind fun start s₁ hs₁ h₁ => ?_
  refine follows_nextIsSymbol_bind hs₁ ?_
  split
  · next h =>
      exact (moves_advance hs₁ (kind_ne_of_isWord h (by decide))).bind
        fun _ _ hs₂ h₂ => .pure hs₂ ⟨by omega, by omega⟩
  · refine (hG.expr s₁ hs₁).bind fun first s₂ hs₂ h₂ => ?_
    refine (stays_skipSymbol _ hs₂).bind fun b s₃ hs₃ h₃ => ?_
    split
    · refine (hG.type s₃ hs₃).bind fun type s₄ hs₄ h₄ => ?_
      exact (moves_symbol hs₄ _).bind fun _ s₅ hs₅ h₅ => .pure hs₅ ⟨by omega, by omega⟩
    · refine follows_nextIsSymbol_bind hs₃ ?_
      split
      · refine (stays_loop (fun items s hs => stays_separated (fun s hs => (hG.expr s hs).stays)
          (fun s hs => stays_skipSymbol "," hs) items hs) [first] hs₃).bind
          fun items s₄ hs₄ h₄ => ?_
        exact (moves_symbol hs₄ _).bind fun _ s₅ hs₅ h₅ => .pure hs₅ ⟨by omega, by omega⟩
      · exact (moves_symbol hs₃ _).bind fun _ s₄ hs₄ h₄ => .pure hs₄ ⟨by omega, by omega⟩

/-- What an opening bracket begins. -/
def parseList (g : Parser.Grammar) (start : Range) : Parser Expr := do
  let items ← Parser.commaList g.expr "]"
  return .list items (start.merge (← Parser.symbol "]"))

theorem moves_list (hG : G.Follows g) (hs : s.Valid) :
    Moves (list G) (Parser.symbol "[" >>= parseList g) s := by
  refine (moves_symbol hs _).bind fun start s₁ hs₁ h₁ => ?_
  refine (stays_commaList hG.expr _ hs₁).bind fun items s₂ hs₂ h₂ => ?_
  exact (moves_symbol hs₂ _).bind fun _ s₃ hs₃ h₃ => .pure hs₃ ⟨by omega, by omega⟩

theorem moves_atom (hG : G.Follows g) (hs : s.Valid) : Moves (atom G) (Parser.atom g) s := by
  refine follows_peek_bind hs fun t ht => ?_
  rw [ht.kind_eq]
  cases hkind : s.cursor.peek.kind with
  | number =>
      have hne : s.cursor.peek.kind ≠ .eof := by simp [hkind]
      obtain rfl := ht.eq_of_ne hne
      refine (moves_advance hs hne).bind fun _ s₁ hs₁ h₁ => ?_
      exact (stays_integer hs₁ _ _).bind fun _ s₂ hs₂ h₂ => .pure hs₂ ⟨by omega, by omega⟩
  | string =>
      have hne : s.cursor.peek.kind ≠ .eof := by simp [hkind]
      obtain rfl := ht.eq_of_ne hne
      exact (moves_advance hs hne).bind fun _ s₁ hs₁ h₁ => .pure hs₁ h₁
  | keyword =>
      have hne : s.cursor.peek.kind ≠ .eof := by simp [hkind]
      obtain rfl := ht.eq_of_ne hne
      dsimp only
      split_ifs
      · exact (moves_advance hs hne).bind fun _ s₁ hs₁ h₁ => .pure hs₁ h₁
      · exact follows_failExpected hs _
  | ident =>
      have hne : s.cursor.peek.kind ≠ .eof := by simp [hkind]
      obtain rfl := ht.eq_of_ne hne
      dsimp only
      split_ifs
      · exact follows_failExpected hs _
      · exact (follows_name hs hne).bind fun _ s₁ hs₁ h₁ => .pure hs₁ h₁
  | constructor =>
      exact (follows_name hs (by simp [hkind])).bind fun _ s₁ hs₁ h₁ => .pure hs₁ h₁
  | symbol =>
      have hne : s.cursor.peek.kind ≠ .eof := by simp [hkind]
      obtain rfl := ht.eq_of_ne hne
      have hword {text : String} (h : s.cursor.peek.text = text) :
          s.cursor.peek.isWord .symbol text = true := by
        simp [Token.isWord, hkind, h]
      dsimp only
      split_ifs with h₁ h₂ h₃ h₄
      · refine (moves_advance hs hne).bind fun _ s₁ hs₁ h₁ => ?_
        exact (moves_nested hs₁ fun s₂ hs₂ _ => hG.atom s₂ hs₂).bind
          fun _ s₂ hs₂ h₂ => .pure hs₂ ⟨by omega, by omega⟩
      · exact (moves_paren hG hs).of_word (symbol_of_next (hword h₂)) rfl
      · exact (moves_list hG hs).of_word (symbol_of_next (hword h₃)) rfl
      · exact (moves_record hG hs).of_word (symbol_of_next (hword h₄)) rfl
      · exact follows_failExpected hs _
  | _ => exact follows_failExpected hs _

theorem moves_access (hG : G.Follows g) (hs : s.Valid) : Moves (access G) (Parser.access g) s := by
  refine (moves_atom hG hs).bind_closing (fun _ _ h => h.2) fun base s₁ hs₁ h₁ => ?_
  refine (stays_counted (fun base s hs => ?_) base hs₁).mono fun _ _ h₂ => ⟨by omega, by omega⟩
  refine (stays_skipSymbol _ hs).bind fun b s₂ hs₂ h₂ => ?_
  split
  · refine (follows_descend hs₂).bind ?_
    rintro _ _ hs₃ rfl
    refine (moves_nameOf hs₃ (by decide) _).bind fun field s₄ hs₄ h₄ => .pure hs₄ ⟨?_, ?_⟩
    · exact h₂.1.trans (Nat.le_of_lt h₄.1)
    · exact h₄.2.trans (congrArg (· + 1) h₂.2)
  · exact .pure hs₂ h₂

theorem moves_application (hG : G.Follows g) (hs : s.Valid) :
    Moves (application G) (Parser.application g) s := by
  refine follows_nextIs_bind hs ?_
  split
  · next h =>
      have hkind : s.cursor.peek.kind = .constructor := of_decide_eq_true h
      refine (follows_name hs (hkind.trans_ne (by decide))).bind fun ctor s₁ hs₁ h₁ => ?_
      refine follows_peek_bind hs₁ fun t ht => ?_
      rw [ht.startsAtom]
      split_ifs
      · exact (moves_access hG hs₁).bind fun arg s₂ hs₂ h₂ => .pure hs₂ ⟨by omega, by omega⟩
      · exact .pure hs₁ h₁
  · refine (moves_access hG hs).bind_closing (fun _ _ h => h.2) fun func s₁ hs₁ h₁ => ?_
    refine (stays_counted (fun func s hs => ?_) func hs₁).mono fun _ _ h₂ => ⟨by omega, by omega⟩
    refine follows_peek_bind hs fun t ht => ?_
    rw [ht.startsAtom]
    split_ifs
    · refine (follows_descend hs).bind ?_
      rintro _ _ hs₂ rfl
      exact (moves_access hG hs₂).bind fun arg s₃ hs₃ h₃ => .pure hs₃ ⟨Nat.le_of_lt h₃.1, h₃.2⟩
    · exact .pure hs ⟨Nat.le_refl _, rfl⟩

theorem moves_unary (hG : G.Follows g) (hs : s.Valid) : Moves (unary G) (Parser.unary g) s := by
  refine follows_nextIsSymbol_bind hs ?_
  split
  · next h =>
      refine (moves_advance hs (kind_ne_of_isWord h (by decide))).bind fun minus s₁ hs₁ h₁ => ?_
      refine follows_nextIs_bind hs₁ ?_
      split
      · next hnumber =>
          have hkind : s₁.cursor.peek.kind = .number := of_decide_eq_true hnumber
          refine (moves_advance hs₁ (hkind.trans_ne (by decide))).bind fun number s₂ hs₂ h₂ => ?_
          exact (stays_integer hs₂ _ _).bind fun _ s₃ hs₃ h₃ => .pure hs₃ ⟨by omega, by omega⟩
      · exact (moves_nested hs₁ fun s₂ hs₂ _ => hG.unary s₂ hs₂).bind
          fun _ s₂ hs₂ h₂ => .pure hs₂ ⟨by omega, by omega⟩
  · refine follows_nextIsKeyword_bind hs ?_
    split
    · next h =>
        refine (moves_advance hs (kind_ne_of_isWord h (by decide))).bind fun word s₁ hs₁ h₁ => ?_
        exact (moves_access hG hs₁).bind fun _ s₂ hs₂ h₂ => .pure hs₂ ⟨by omega, by omega⟩
    · exact moves_application hG hs

theorem moves_chain (hG : G.Follows g) (hs : s.Valid) (least : Nat) :
    Moves (chain G least) (Parser.chain g least) s := by
  refine (moves_unary hG hs).bind_closing (fun _ _ h => h.2) fun left s₁ hs₁ h₁ => ?_
  refine (stays_counted (fun left s hs => ?_) left hs₁).mono fun _ _ h₂ => ⟨by omega, by omega⟩
  refine follows_peek_bind hs fun t ht => ?_
  rw [ht.ofToken?]
  cases hop : Operator.ofToken? s.cursor.peek with
  | none => exact .pure hs ⟨Nat.le_refl _, rfl⟩
  | some op =>
      dsimp only
      split_ifs
      · exact .pure hs ⟨Nat.le_refl _, rfl⟩
      · refine (follows_descend hs).bind ?_
        rintro _ _ hs₂ rfl
        refine (moves_advance hs₂ (Parser.kind_ne_eof_of_operator hop)).bind
          fun token s₃ hs₃ h₃ => ?_
        refine (hG.chain op.rightPrecedence s₃ hs₃).bind
          fun right s₄ hs₄ h₄ => .pure hs₄ ⟨?_, h₄.2.trans h₃.2⟩
        exact Nat.le_of_lt (h₃.1.trans h₄.1)

theorem moves_assignment (hG : G.Follows g) (hs : s.Valid) :
    Moves (assignment G) (Parser.assignment g) s := by
  refine (moves_chain hG hs 0).bind fun target s₁ hs₁ h₁ => ?_
  refine (stays_skipSymbol _ hs₁).bind fun b s₂ hs₂ h₂ => ?_
  split
  · exact (hG.statement s₂ hs₂).bind fun value s₃ hs₃ h₃ => .pure hs₃ ⟨by omega, by omega⟩
  · exact .pure hs₂ ⟨by omega, by omega⟩

theorem stays_lambdas (params : List Pattern) (body : Expr) (hs : s.Valid) :
    Stays (lambdas params body) (Parser.lambdas params body) s := by
  unfold lambdas Parser.lambdas List.foldrM
  induction params.reverse generalizing body s with
  | nil => exact .pure hs ⟨Nat.le_refl _, rfl⟩
  | cons param params ih =>
      rw [List.foldlM_cons, List.foldlM_cons]
      have hparam (q : Run Expr) (p : Parser Expr) (h : Stays q p s) : Stays
          (q >>= fun body => params.foldlM _ body) (p >>= fun body => params.foldlM _ body) s :=
        h.bind fun body s₁ hs₁ h₁ => (ih body hs₁).mono fun _ _ h₂ => ⟨by omega, by omega⟩
      cases param with
      | var name => exact hparam _ _ (.pure hs ⟨Nat.le_refl _, rfl⟩)
      | _ =>
          exact hparam _ _ ((stays_freshName hs _).bind fun name s₁ hs₁ h₁ => .pure hs₁ h₁)

theorem stays_parameters (hG : G.Follows g) (stops : List String) (params : List Pattern)
    (hs : s.Valid) :
    Stays (parameters G stops params) (Parser.parameters g stops params) s := by
  refine (stays_loop (fun params s hs => ?_) params.reverse hs).bind
    fun params s₁ hs₁ h₁ => .pure hs₁ h₁
  refine follows_peek_bind hs fun t ht => ?_
  have hword : t.isWord .symbol = s.cursor.peek.isWord .symbol :=
    funext fun text => ht.isWord (by decide) text
  rw [hword]
  split
  · exact .pure hs ⟨Nat.le_refl _, rfl⟩
  · exact (moves_patternAtom hG hs).bind fun _ s₁ hs₁ h₁ => .pure hs₁ ⟨by omega, by omega⟩

/-- An optional type is read before what follows it. -/
theorem follows_annotation_bind {β : Type} {f : Option TypeExpr → Run β}
    {f' : Option TypeExpr → Parser β} {R : β → Tape → Prop} (hG : G.Follows g) (hs : s.Valid)
    (hf : ∀ type? s₁, s₁.Valid → s.pos ≤ s₁.pos ∧ s₁.depth = s.depth →
      Follows (f type?) (f' type?) s₁ R) :
    Follows (do if ← skipSymbol ":" then (some <$> G.type) >>= f else f none)
      (do if ← Parser.skipSymbol ":" then (some <$> g.type) >>= f' else f' none) s R := by
  refine (stays_skipSymbol _ hs).bind fun b s₁ hs₁ h₁ => ?_
  split
  · have htype : Stays (some <$> G.type) (some <$> g.type) s₁ :=
      (hG.type s₁ hs₁).stays.bind fun _ _ hs₂ h₂ => .pure hs₂ h₂
    exact htype.bind fun type? s₂ hs₂ h₂ => hf type? s₂ hs₂ ⟨by omega, by omega⟩
  · exact hf none s₁ hs₁ h₁

theorem moves_bindingValue (hG : G.Follows g) (hs : s.Valid) :
    Moves (bindingValue G) (Parser.bindingValue g) s := by
  refine (stays_parameters hG _ _ hs).bind fun params s₁ hs₁ h₁ => ?_
  refine follows_annotation_bind hG hs₁ fun type? s₂ hs₂ h₂ => ?_
  refine (moves_symbol hs₂ _).bind fun _ s₃ hs₃ h₃ => ?_
  refine (hG.expr s₃ hs₃).bind fun value s₄ hs₄ h₄ => ?_
  cases type? with
  | some type => exact (stays_lambdas _ _ hs₄).mono fun _ _ h₅ => ⟨by omega, by omega⟩
  | none => exact (stays_lambdas _ _ hs₄).mono fun _ _ h₅ => ⟨by omega, by omega⟩

theorem moves_recBinding (hG : G.Follows g) (hs : s.Valid) :
    Moves (recBinding G) (Parser.recBinding g) s := by
  refine (moves_nameOf hs (by decide) _).bind fun name s₁ hs₁ h₁ => ?_
  exact (moves_bindingValue hG hs₁).bind fun _ s₂ hs₂ h₂ => .pure hs₂ ⟨by omega, by omega⟩

theorem moves_letForm (hG : G.Follows g) (hs : s.Valid) :
    Moves (letForm G) (Parser.keyword "let" >>= Parser.letForm g) s := by
  refine (moves_keyword hs _).bind fun start s₁ hs₁ h₁ => ?_
  refine (stays_skipKeyword _ hs₁).bind fun b s₂ hs₂ h₂ => ?_
  split
  · refine (moves_sepBy1 (fun s hs => moves_recBinding hG hs)
      (fun s hs => stays_skipKeyword _ hs) hs₂).bind fun bindings s₃ hs₃ h₃ => ?_
    refine (moves_keyword hs₃ _).bind fun _ s₄ hs₄ h₄ => ?_
    exact (hG.expr s₄ hs₄).bind fun _ s₅ hs₅ h₅ => .pure hs₅ ⟨by omega, by omega⟩
  · refine (moves_pattern hG hs₂).bind fun pattern s₃ hs₃ h₃ => ?_
    cases pattern with
    | var name =>
        refine (moves_bindingValue hG hs₃).bind fun value s₄ hs₄ h₄ => ?_
        refine (moves_keyword hs₄ _).bind fun _ s₅ hs₅ h₅ => ?_
        exact (hG.expr s₅ hs₅).bind fun _ s₆ hs₆ h₆ => .pure hs₆ ⟨by omega, by omega⟩
    | _ =>
        refine (moves_symbol hs₃ _).bind fun _ s₄ hs₄ h₄ => ?_
        refine (hG.expr s₄ hs₄).bind fun value s₅ hs₅ h₅ => ?_
        refine (moves_keyword hs₅ _).bind fun _ s₆ hs₆ h₆ => ?_
        exact (hG.expr s₆ hs₆).bind fun _ s₇ hs₇ h₇ => .pure hs₇ ⟨by omega, by omega⟩

theorem moves_funForm (hG : G.Follows g) (hs : s.Valid) :
    Moves (funForm G) (Parser.keyword "fun" >>= Parser.funForm g) s := by
  refine (moves_keyword hs _).bind fun start s₁ hs₁ h₁ => ?_
  refine (moves_patternAtom hG hs₁).bind fun first s₂ hs₂ h₂ => ?_
  refine (stays_parameters hG _ _ hs₂).bind fun params s₃ hs₃ h₃ => ?_
  refine (moves_symbol hs₃ _).bind fun _ s₄ hs₄ h₄ => ?_
  refine (hG.expr s₄ hs₄).bind fun body s₅ hs₅ h₅ => ?_
  refine (stays_lambdas params body hs₅).bind fun e s₆ hs₆ h₆ => ?_
  cases e with
  | lambda param body range => exact .pure hs₆ ⟨by omega, by omega⟩
  | _ => exact .pure hs₆ ⟨by omega, by omega⟩

theorem moves_ifForm (hG : G.Follows g) (hs : s.Valid) :
    Moves (ifForm G) (Parser.keyword "if" >>= Parser.ifForm g) s := by
  refine (moves_keyword hs _).bind fun start s₁ hs₁ h₁ => ?_
  refine (hG.expr s₁ hs₁).bind fun cond s₂ hs₂ h₂ => ?_
  refine (moves_keyword hs₂ _).bind fun _ s₃ hs₃ h₃ => ?_
  refine (hG.statement s₃ hs₃).bind fun yes s₄ hs₄ h₄ => ?_
  refine (moves_keyword hs₄ _).bind fun _ s₅ hs₅ h₅ => ?_
  exact (hG.statement s₅ hs₅).bind fun no s₆ hs₆ h₆ => .pure hs₆ ⟨by omega, by omega⟩

theorem moves_matchArm (hG : G.Follows g) (hs : s.Valid) :
    Moves (matchArm G) (Parser.matchArm g) s := by
  refine (moves_pattern hG hs).bind fun pattern s₁ hs₁ h₁ => ?_
  refine (moves_symbol hs₁ _).bind fun _ s₂ hs₂ h₂ => ?_
  exact (hG.statement s₂ hs₂).bind fun body s₃ hs₃ h₃ => .pure hs₃ ⟨by omega, by omega⟩

theorem moves_matchForm (hG : G.Follows g) (hs : s.Valid) :
    Moves (matchForm G) (Parser.keyword "match" >>= Parser.matchForm g) s := by
  refine (moves_keyword hs _).bind fun start s₁ hs₁ h₁ => ?_
  refine (hG.expr s₁ hs₁).bind fun scrutinee s₂ hs₂ h₂ => ?_
  refine (moves_keyword hs₂ _).bind fun _ s₃ hs₃ h₃ => ?_
  refine (stays_skipSymbol _ hs₃).bind fun _ s₄ hs₄ h₄ => ?_
  refine (moves_sepBy1 (fun s hs => moves_matchArm hG hs)
    (fun s hs => stays_skipSymbol _ hs) hs₄).bind fun arms s₅ hs₅ h₅ => ?_
  exact (stays_previousRange hs₅ (by omega)).bind
    fun _ s₆ hs₆ h₆ => .pure hs₆ ⟨by omega, by omega⟩

/-- What a statement is one level deeper. -/
def parseStatementForm (g : Parser.Grammar) : Parser Expr := do
  if ← Parser.nextIsKeyword "let" then Parser.letForm g (← Parser.advance).range
  else if ← Parser.nextIsKeyword "fun" then Parser.funForm g (← Parser.advance).range
  else if ← Parser.nextIsKeyword "if" then Parser.ifForm g (← Parser.advance).range
  else if ← Parser.nextIsKeyword "match" then Parser.matchForm g (← Parser.advance).range
  else Parser.assignment g

theorem moves_statementForm (hG : G.Follows g) (hs : s.Valid) :
    Moves (statementForm G) (parseStatementForm g) s := by
  refine follows_nextIsKeyword_bind hs ?_
  split
  · next h => exact (moves_letForm hG hs).of_word (keyword_of_next h) rfl
  · refine follows_nextIsKeyword_bind hs ?_
    split
    · next h => exact (moves_funForm hG hs).of_word (keyword_of_next h) rfl
    · refine follows_nextIsKeyword_bind hs ?_
      split
      · next h => exact (moves_ifForm hG hs).of_word (keyword_of_next h) rfl
      · refine follows_nextIsKeyword_bind hs ?_
        split
        · next h => exact (moves_matchForm hG hs).of_word (keyword_of_next h) rfl
        · exact moves_assignment hG hs

theorem moves_statement (hG : G.Follows g) (hs : s.Valid) :
    Moves (statement G) (Parser.statement g) s :=
  moves_nested hs fun _ hs₁ _ => moves_statementForm hG hs₁

theorem moves_expr (hG : G.Follows g) (hs : s.Valid) : Moves (expr G) (Parser.expr g) s := by
  refine (moves_statement hG hs).bind fun first s₁ hs₁ h₁ => ?_
  refine (stays_loop (fun statements s hs => ?_) (first, []) hs₁).bind
    fun statements s₂ hs₂ h₂ => .pure hs₂ ⟨by omega, by omega⟩
  obtain ⟨last, earlier⟩ := statements
  refine (stays_skipSymbol _ hs).bind fun b s₂ hs₂ h₂ => ?_
  split
  · split_ifs
    · exact follows_failHere hs₂
    · exact (moves_statement hG hs₂).bind fun _ s₃ hs₃ h₃ => .pure hs₃ ⟨by omega, by omega⟩
  · exact .pure hs₂ h₂

end FieldML.Tape
