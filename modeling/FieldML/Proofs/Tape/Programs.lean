import FieldML.Proofs.Parser.Expr
import FieldML.Proofs.Tape.Exprs

/-!
# Programs read by index

A whole program is read by index as it is read from the left. No index leaves the array on the way,
every level that is closed was opened before, and each form reads at least one token.
-/

namespace FieldML.Tape

variable {G : Grammar} {g : Parser.Grammar} {s : Tape}

theorem Grammar.Follows.unfold (hG : G.Follows g) : G.unfold.Follows g.unfold where
  type _ hs := moves_type hG hs
  pattern _ hs := moves_pattern hG hs
  patternCons _ hs := moves_patternCons hG hs
  expr _ hs := moves_expr hG hs
  statement _ hs := moves_statement hG hs
  chain least _ hs := moves_chain hG hs least
  unary _ hs := moves_unary hG hs
  access _ hs := moves_access hG hs
  atom _ hs := moves_atom hG hs

theorem follows_grammar (n : Nat) : (grammar n).Follows (Parser.grammar n) := by
  induction n with
  | zero =>
      constructor
      all_goals intros
      all_goals exact follows_stuck ‹_›
  | succ n ih => exact ih.unfold

theorem stays_typeParams (hs : s.Valid) : Stays typeParams Parser.typeParams s := by
  refine follows_nextIs_bind hs ?_
  split
  · next h =>
      have hkind : s.cursor.peek.kind = .typeVar := of_decide_eq_true h
      exact (follows_name hs (hkind.trans_ne (by decide))).bind
        fun _ s₁ hs₁ h₁ => .pure hs₁ ⟨by omega, by omega⟩
  · refine follows_lookahead_bind hs (P := (Token.isWord · .symbol "("))
      (U := fun t => t.kind = .typeVar) (fun t ht => by simp [Token.isWord, ht])
      (fun t ht => by simp [ht]) ?_
    refine follows_get_bind ?_
    change Stays _ (if lookahead (Token.isWord · .symbol "(") (fun t => t.kind = .typeVar)
      s.cursor.rest = true then _ else _) s
    split
    · next h =>
        have hne : s.cursor.peek.kind ≠ .eof := by
          unfold Cursor.peek
          cases hrest : s.cursor.rest with
          | nil => simp [hrest, lookahead] at h
          | cons t rest =>
              have hmem : t ∈ s.cursor.rest := by simp [hrest]
              exact kind_ne_of_mem_words (s := s) (List.mem_of_mem_drop hmem)
        refine (moves_advance hs hne).bind fun _ s₁ hs₁ h₁ => ?_
        refine (moves_sepBy1 (fun s hs => moves_nameOf hs (by decide) _)
          (fun s hs => stays_skipSymbol _ hs) hs₁).bind fun params s₂ hs₂ h₂ => ?_
        exact (moves_symbol hs₂ _).bind fun _ s₃ hs₃ h₃ => .pure hs₃ ⟨by omega, by omega⟩
    · exact .pure hs ⟨Nat.le_refl _, rfl⟩

theorem moves_ctorDecl (hG : G.Follows g) (hs : s.Valid) :
    Moves (ctorDecl G) (Parser.ctorDecl g) s := by
  refine (moves_nameOf hs (by decide) _).bind fun name s₁ hs₁ h₁ => ?_
  refine (stays_skipKeyword _ hs₁).bind fun b s₂ hs₂ h₂ => ?_
  split
  · refine (moves_sepBy1 (fun s hs => moves_typeApp hG hs)
      (fun s hs => stays_skipSymbol _ hs) hs₂).bind fun args s₃ hs₃ h₃ => ?_
    exact (stays_previousRange hs₃ (by omega)).bind
      fun _ s₄ hs₄ h₄ => .pure hs₄ ⟨by omega, by omega⟩
  · refine (Follows.pure (Q := fun _ s' => s' = s₂) hs₂ rfl).bind ?_
    rintro args _ hs₃ rfl
    exact (stays_previousRange hs₃ (by omega)).bind
      fun _ s₄ hs₄ h₄ => .pure hs₄ ⟨by omega, by omega⟩

theorem moves_typeDecl (hG : G.Follows g) (hs : s.Valid) :
    Moves (typeDecl G) (Parser.typeDecl g) s := by
  refine follows_peek_bind hs fun t ht => ?_
  rw [ht.range_eq]
  refine (stays_typeParams hs).bind fun params s₁ hs₁ h₁ => ?_
  refine (moves_nameOf hs₁ (by decide) _).bind fun name s₂ hs₂ h₂ => ?_
  refine (moves_symbol hs₂ _).bind fun _ s₃ hs₃ h₃ => ?_
  refine follows_nextIsSymbol_bind hs₃ (follows_nextIs_bind hs₃ ?_)
  split
  · refine (stays_skipSymbol _ hs₃).bind fun _ s₄ hs₄ h₄ => ?_
    refine (moves_sepBy1 (fun s hs => moves_ctorDecl hG hs)
      (fun s hs => stays_skipSymbol _ hs) hs₄).bind fun ctors s₅ hs₅ h₅ => ?_
    exact (stays_previousRange hs₅ (by omega)).bind
      fun _ s₆ hs₆ h₆ => .pure hs₆ ⟨by omega, by omega⟩
  · exact (moves_type hG hs₃).bind fun body s₄ hs₄ h₄ => .pure hs₄ ⟨by omega, by omega⟩

theorem moves_typeGroup (hG : G.Follows g) (hs : s.Valid) :
    Moves (typeGroup G) (Parser.typeGroup g) s := by
  refine (moves_sepBy1 (fun s hs => moves_typeDecl hG hs)
    (fun s hs => stays_skipKeyword _ hs) hs).bind fun group s₁ hs₁ h₁ => ?_
  exact (moves_keyword hs₁ _).bind fun _ s₂ hs₂ h₂ => .pure hs₂ ⟨by omega, by omega⟩

theorem moves_program (hG : G.Follows g) (hs : s.Valid) :
    Moves (program G) (Parser.program g) s := by
  refine (stays_loop (fun groups s hs => ?_) [] hs).bind fun groups s₁ hs₁ h₁ => ?_
  · refine (stays_skipKeyword _ hs).bind fun b s₂ hs₂ h₂ => ?_
    split
    · exact (moves_typeGroup hG hs₂).bind fun _ s₃ hs₃ h₃ => .pure hs₃ ⟨by omega, by omega⟩
    · exact .pure hs₂ h₂
  · exact (moves_expr hG hs₁).bind fun _ s₂ hs₂ h₂ => .pure hs₂ ⟨by omega, by omega⟩

/-- A program and nothing after it, whose trees are not too deep. -/
def parseWhole (g : Parser.Grammar) : Parser Program := do
  let program ← Parser.program g
  if ← Parser.nextIs .eof then
    if Parser.maxNesting < program.nestingDepth then
      throw ⟨.deeperThan Parser.maxNesting, program.body.range⟩
    else return program
  else Parser.failHere .leftOver

theorem moves_wholeProgram (hG : G.Follows g) (hs : s.Valid) :
    Moves (wholeProgram G) (parseWhole g) s := by
  refine (moves_program hG hs).bind fun p s₁ hs₁ h₁ => follows_nextIs_bind hs₁ ?_
  split
  · split_ifs
    · exact follows_fail _
    · exact .pure hs₁ h₁
  · exact follows_failHere hs₁

theorem parseWhole_apply (g : Parser.Grammar) (c : Cursor) :
    (parseWhole g c).map Prod.fst = (do
      let (program, _) ← Parser.wholeProgram g c
      if Parser.maxNesting < program.nestingDepth then
        throw ⟨.deeperThan Parser.maxNesting, program.body.range⟩
      return program) := by
  unfold parseWhole Parser.wholeProgram
  rw [Parser.bind_apply, Parser.bind_apply]
  cases Parser.program g c with
  | error e => rfl
  | ok r =>
      obtain ⟨p, c'⟩ := r
      by_cases hend : c'.peek.kind = .eof
      · have hnext : Parser.nextIs .eof c' = .ok (true, c') := by
          rw [← decide_eq_true hend]
          rfl
        dsimp only
        rw [Parser.bind_apply, Parser.bind_apply, hnext]
        by_cases hdeep : Parser.maxNesting < p.nestingDepth
        · simp only [if_true, if_pos hdeep]
          exact (if_pos hdeep).symm
        · simp only [if_true, if_neg hdeep]
          exact (if_neg hdeep).symm
      · have hnext : Parser.nextIs .eof c' = .ok (false, c') := by
          rw [← decide_eq_false hend]
          rfl
        dsimp only
        rw [Parser.bind_apply, Parser.bind_apply, hnext]
        rfl

/-! ### The end mark -/

theorem cursor_ofTokens_append {tokens : List Token} {last : Token}
    (hlast : tokens.getLast? = some last) :
    Cursor.ofTokens (tokens ++ [⟨.eof, "", last.range⟩]) = Cursor.ofTokens tokens := by
  have hwords : (tokens ++ [(⟨.eof, "", last.range⟩ : Token)]).takeWhile
      (fun t => decide (t.kind ≠ .eof)) = tokens.takeWhile fun t => decide (t.kind ≠ .eof) := by
    clear hlast
    induction tokens with
    | nil => rfl
    | cons t tokens ih =>
        rw [List.cons_append, List.takeWhile_cons, List.takeWhile_cons, ih]
  unfold Cursor.ofTokens
  dsimp only
  rw [hwords, hlast, List.find?_append]
  cases tokens.find? fun t => decide (t.kind = .eof) with
  | none => rfl
  | some t => rfl

/-- The end mark that is put behind the last token changes nothing. -/
theorem cursor_tokens_ofTokens (tokens : List Token) :
    Cursor.ofTokens (ofTokens tokens).tokens.toList = Cursor.ofTokens tokens := by
  unfold ofTokens
  cases hlast : tokens.getLast? with
  | none =>
      obtain rfl := List.getLast?_eq_none_iff.1 hlast
      rfl
  | some last =>
      dsimp only
      split_ifs
      · rfl
      · rw [Array.toList_push]
        exact cursor_ofTokens_append hlast

theorem cursor_ofTokens (tokens : List Token) :
    (ofTokens tokens).cursor = Cursor.ofTokens tokens := by
  have hstart : (ofTokens tokens).pos = 0 ∧ (ofTokens tokens).fresh = 0 ∧
      (ofTokens tokens).depth = 0 := by
    unfold ofTokens
    cases tokens.getLast? with
    | none => exact ⟨rfl, rfl, rfl⟩
    | some last =>
        dsimp only
        split_ifs <;> exact ⟨rfl, rfl, rfl⟩
  obtain ⟨hpos, hfresh, hdepth⟩ := hstart
  rw [cursor, words, cursor_tokens_ofTokens, hpos, hfresh, hdepth]
  rfl

theorem valid_ofTokens (tokens : List Token) : (ofTokens tokens).Valid := by
  unfold ofTokens
  cases hlast : tokens.getLast? with
  | none => exact ⟨⟨_, .head _, rfl⟩, Nat.zero_le _⟩
  | some last =>
      dsimp only
      split_ifs with hkind
      · exact ⟨⟨last, List.mem_of_getLast? hlast, hkind⟩, Nat.zero_le _⟩
      · exact ⟨⟨⟨.eof, "", last.range⟩, by simp, rfl⟩, Nat.zero_le _⟩

/-! ### All forms -/

/-- The functions that read an expression, a statement, a pattern, a type or a declaration. -/
inductive Form : Type → Type where
  | typeAtom : Form (List TypeExpr)
  | typeApp : Form TypeExpr
  | typeProduct : Form TypeExpr
  | typeArrow : Form TypeExpr
  | type : Form TypeExpr
  | patternAtom : Form Pattern
  | patternCtor : Form Pattern
  | patternCons : Form Pattern
  | patternAs : Form Pattern
  | pattern : Form Pattern
  | record : Form Expr
  | paren : Form Expr
  | list : Form Expr
  | atom : Form Expr
  | access : Form Expr
  | application : Form Expr
  | unary : Form Expr
  | chain (least : Nat) : Form Expr
  | assignment : Form Expr
  | bindingValue : Form Expr
  | recBinding : Form (RecBinding Expr)
  | letForm : Form Expr
  | funForm : Form Expr
  | ifForm : Form Expr
  | matchArm : Form (MatchArm Expr)
  | matchForm : Form Expr
  | statementForm : Form Expr
  | statement : Form Expr
  | expr : Form Expr
  | ctorDecl : Form CtorDecl
  | typeDecl : Form TypeDecl
  | program : Form Program

/-- The function over the grammar. -/
def Form.read (G : Grammar) {α : Type} : Form α → Run α
  | typeAtom => Tape.typeAtom G
  | typeApp => Tape.typeApp G
  | typeProduct => Tape.typeProduct G
  | typeArrow => Tape.typeArrow G
  | type => Tape.type G
  | patternAtom => Tape.patternAtom G
  | patternCtor => Tape.patternCtor G
  | patternCons => Tape.patternCons G
  | patternAs => Tape.patternAs G
  | pattern => Tape.pattern G
  | record => Tape.record G
  | paren => Tape.paren G
  | list => Tape.list G
  | atom => Tape.atom G
  | access => Tape.access G
  | application => Tape.application G
  | unary => Tape.unary G
  | chain least => Tape.chain G least
  | assignment => Tape.assignment G
  | bindingValue => Tape.bindingValue G
  | recBinding => Tape.recBinding G
  | letForm => Tape.letForm G
  | funForm => Tape.funForm G
  | ifForm => Tape.ifForm G
  | matchArm => Tape.matchArm G
  | matchForm => Tape.matchForm G
  | statementForm => Tape.statementForm G
  | statement => Tape.statement G
  | expr => Tape.expr G
  | ctorDecl => Tape.ctorDecl G
  | typeDecl => Tape.typeDecl G
  | program => Tape.program G

theorem Form.exists_moves {α : Type} (form : Form α) (hG : G.Follows g) (hs : s.Valid) :
    ∃ p, Moves (form.read G) p s := by
  cases form with
  | typeAtom => exact ⟨_, moves_typeAtom hG hs⟩
  | typeApp => exact ⟨_, moves_typeApp hG hs⟩
  | typeProduct => exact ⟨_, moves_typeProduct hG hs⟩
  | typeArrow => exact ⟨_, moves_typeArrow hG hs⟩
  | type => exact ⟨_, moves_type hG hs⟩
  | patternAtom => exact ⟨_, moves_patternAtom hG hs⟩
  | patternCtor => exact ⟨_, moves_patternCtor hG hs⟩
  | patternCons => exact ⟨_, moves_patternCons hG hs⟩
  | patternAs => exact ⟨_, moves_patternAs hG hs⟩
  | pattern => exact ⟨_, moves_pattern hG hs⟩
  | record => exact ⟨_, moves_record hG hs⟩
  | paren => exact ⟨_, moves_paren hG hs⟩
  | list => exact ⟨_, moves_list hG hs⟩
  | atom => exact ⟨_, moves_atom hG hs⟩
  | access => exact ⟨_, moves_access hG hs⟩
  | application => exact ⟨_, moves_application hG hs⟩
  | unary => exact ⟨_, moves_unary hG hs⟩
  | chain least => exact ⟨_, moves_chain hG hs least⟩
  | assignment => exact ⟨_, moves_assignment hG hs⟩
  | bindingValue => exact ⟨_, moves_bindingValue hG hs⟩
  | recBinding => exact ⟨_, moves_recBinding hG hs⟩
  | letForm => exact ⟨_, moves_letForm hG hs⟩
  | funForm => exact ⟨_, moves_funForm hG hs⟩
  | ifForm => exact ⟨_, moves_ifForm hG hs⟩
  | matchArm => exact ⟨_, moves_matchArm hG hs⟩
  | matchForm => exact ⟨_, moves_matchForm hG hs⟩
  | statementForm => exact ⟨_, moves_statementForm hG hs⟩
  | statement => exact ⟨_, moves_statement hG hs⟩
  | expr => exact ⟨_, moves_expr hG hs⟩
  | ctorDecl => exact ⟨_, moves_ctorDecl hG hs⟩
  | typeDecl => exact ⟨_, moves_typeDecl hG hs⟩
  | program => exact ⟨_, moves_program hG hs⟩

/-- From any tokens a program is read or a fault found, and that is what reading from the left makes
of them. The index stays in the array, and no level is closed that was not opened. Each function for
a form, wherever it begins, reads a token if it succeeds and leaves the levels as they were. -/
theorem run_total (tokens : List Token) :
    (match run tokens with
      | .done p s => Program.ofTokens tokens = .ok p ∧ s.depth = 0
      | .failed e _ => Program.ofTokens tokens = .error e ∧ e.cause ≠ .outOfFuel
      | .broken => False) ∧
    (ofTokens tokens).Valid ∧
    ∀ {α : Type} (form : Form α) (n : Nat) (s : Tape), s.Valid →
      match form.read (grammar n) s with
      | .done _ s' => s'.Valid ∧ s.pos < s'.pos ∧ s'.depth = s.depth
      | .failed _ _ => True
      | .broken => False := by
  refine ⟨?_, valid_ofTokens tokens, fun form n s hs => ?_⟩
  · have hs := valid_ofTokens tokens
    have hmoves := moves_wholeProgram (follows_grammar ((ofTokens tokens).left + 1)) hs
    have hparse : Program.ofTokens tokens = (parseWhole
        (Parser.grammar ((ofTokens tokens).left + 1)) (ofTokens tokens).cursor).map Prod.fst := by
      rw [parseWhole_apply, hs.left_eq, cursor_ofTokens]
      rfl
    have hdepth : (ofTokens tokens).depth = 0 :=
      congrArg Cursor.depth (cursor_ofTokens tokens)
    unfold Moves Follows at hmoves
    unfold run
    dsimp only
    cases hrun : wholeProgram (grammar ((ofTokens tokens).left + 1)) (ofTokens tokens) with
    | done p s =>
        rw [hrun] at hmoves
        rw [hmoves.1] at hparse
        exact ⟨hparse, hmoves.2.2.2.2.trans hdepth⟩
    | failed e s =>
        rw [hrun] at hmoves
        rw [hmoves.1] at hparse
        exact ⟨hparse, Program.ofTokens_error_ne_outOfFuel hparse⟩
    | broken =>
        rw [hrun] at hmoves
        exact hmoves
  · obtain ⟨p, hmoves⟩ := form.exists_moves (follows_grammar n) hs
    unfold Moves Follows at hmoves
    cases hrun : form.read (grammar n) s with
    | done a s' =>
        rw [hrun] at hmoves
        exact ⟨hmoves.2.1, hmoves.2.2.2⟩
    | failed e s' => trivial
    | broken =>
        rw [hrun] at hmoves
        exact hmoves

/-- An end mark between the tokens and none at their end: what stands before it is read. -/
theorem run_total_marked :
    let s := ofTokens [⟨.ident, "f", .erased⟩, ⟨.ident, "x", .erased⟩, ⟨.eof, "?", .erased⟩,
      ⟨.symbol, ")", .erased⟩]
    s.Valid ∧ ∃ e s', Form.application.read (grammar 4) s = .done e s' ∧ s'.Valid ∧ s.pos < s'.pos ∧
      s'.depth = s.depth := by
  intro s
  obtain ⟨-, hs, hforms⟩ := run_total [⟨.ident, "f", .erased⟩, ⟨.ident, "x", .erased⟩,
    ⟨.eof, "?", .erased⟩, ⟨.symbol, ")", .erased⟩]
  have hform := hforms .application 4 s hs
  have hdone : (match Form.application.read (grammar 4) s with
      | .done _ _ => true
      | _ => false) = true := by decide +kernel
  refine ⟨hs, ?_⟩
  cases hrun : Form.application.read (grammar 4) s with
  | done e s' =>
      rw [hrun] at hform
      exact ⟨e, s', rfl, hform⟩
  | failed e s' =>
      rw [hrun] at hdone
      cases hdone
  | broken =>
      rw [hrun] at hdone
      cases hdone

end FieldML.Tape
