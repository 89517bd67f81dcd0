import FieldML.Parser.Expr
import FieldML.Parser.Pattern
import FieldML.Parser.Program
import FieldML.Parser.TypeExpr
import FieldML.Proofs.Parser.Basic

/-!
# How much is read of types, patterns and expressions

Every form reads a token before it turns to a form inside it. So a grammar that is enough for fewer
than `n` tokens makes one that is enough for `n` tokens.
-/

namespace FieldML.Parser

/-- All forms read at least one token, and do not run out of fuel on fewer than `n` tokens. -/
structure Grammar.Enough (n : Nat) (g : Grammar) : Prop where
  type : ∀ s, s.rest.length < n → Shortens g.type s
  pattern : ∀ s, s.rest.length < n → Shortens g.pattern s
  patternCons : ∀ s, s.rest.length < n → Shortens g.patternCons s
  expr : ∀ s, s.rest.length < n → Shortens g.expr s
  statement : ∀ s, s.rest.length < n → Shortens g.statement s
  chain : ∀ least s, s.rest.length < n → Shortens (g.chain least) s
  unary : ∀ s, s.rest.length < n → Shortens g.unary s
  access : ∀ s, s.rest.length < n → Shortens g.access s
  atom : ∀ s, s.rest.length < n → Shortens g.atom s

variable {n : Nat} {g : Grammar} {s : Cursor}

theorem shortens_typeField (hg : g.Enough n) (hs : s.rest.length < n) :
    Shortens (typeField g) s := by
  refine (shortens_nameOf (by decide) _).bind fun field s₁ h₁ => ?_
  refine (shortens_symbol _).bind fun _ s₂ h₂ => ?_
  exact (hg.type s₂ (by omega)).bind fun t s₃ h₃ => .pure (by omega)

theorem shortens_typeAtom (hg : g.Enough n) (hs : s.rest.length ≤ n) :
    Shortens (typeAtom g) s := by
  refine reads_peek_bind ?_
  split
  · next hkind =>
      exact (shortens_name (rest_ne_nil (by simp [hkind]))).bind fun _ s₁ h₁ => .pure h₁
  · next hkind =>
      exact (shortens_name (rest_ne_nil (by simp [hkind]))).bind fun _ s₁ h₁ => .pure h₁
  · next hkind =>
      have hrest := rest_ne_nil (s := s) (by simp [hkind])
      split
      · refine (shortens_advance hrest).bind fun _ s₁ h₁ => ?_
        refine (shortens_sepBy1 (fun s₂ h₂ => hg.type s₂ (by omega))
          fun s₂ => reads_skipSymbol _).bind fun items s₂ h₂ => ?_
        exact (shortens_symbol _).bind fun _ s₃ h₃ => .pure (by omega)
      · split
        · refine (shortens_advance hrest).bind fun _ s₁ h₁ => ?_
          refine (keeps_commaList fun s₂ h₂ => shortens_typeField hg (by omega)).bind
            fun fields s₂ h₂ => ?_
          exact (shortens_symbol _).bind fun _ s₃ h₃ => .pure (by omega)
        · exact reads_failExpected _
  · exact reads_failExpected _

theorem keeps_typeApplications (args : List TypeExpr) : Keeps (typeApplications args) s := by
  refine (Stepwise.loop (fun args s₁ _ => ?_) args).closing
  refine reads_nextIs_bind ?_
  split
  · next h =>
      have hkind := of_decide_eq_true h
      have hrest := rest_ne_nil (s := s₁) (by simp [hkind])
      refine keeps_descend.bind fun _ s₂ h₂ => ?_
      refine (shortens_name (List.ne_nil_of_length_pos ?_)).bind fun name s₃ h₃ => .pure ?_
      · exact h₂ ▸ List.length_pos_iff.2 hrest
      · simp
        omega
  · exact .pure (by simp)

theorem shortens_typeApp (hg : g.Enough n) (hs : s.rest.length ≤ n) :
    Shortens (typeApp g) s := by
  refine (shortens_typeAtom hg hs).bind fun args s₁ h₁ => ?_
  refine (keeps_typeApplications args).bind fun types s₂ h₂ => ?_
  split
  · exact .pure (by omega)
  · exact reads_failExpected _

theorem shortens_typeProduct (hg : g.Enough n) (hs : s.rest.length ≤ n) :
    Shortens (typeProduct g) s := by
  refine (shortens_typeApp hg hs).bind fun first s₁ h₁ => ?_
  refine reads_nextIsSymbol_bind ?_
  split
  · have hstep := stepwise_separated (n := s₁.rest.length)
      (fun s₂ h₂ => shortens_typeApp hg (by omega)) fun s₂ => reads_skipSymbol "*"
    refine (hstep.loop _).bind fun items s₂ h₂ => ?_
    exact reads_previousRange_bind (.pure (by omega))
  · exact .pure h₁

theorem shortens_type (hg : g.Enough n) (hs : s.rest.length ≤ n) : Shortens (type g) s := by
  refine Reads.nested fun s₁ h₁ => ?_
  refine (shortens_typeProduct hg (by omega)).bind fun param s₂ h₂ => ?_
  refine (reads_skipSymbol _).bind fun b s₃ h₃ => ?_
  split
  · exact (hg.type s₃ (by omega)).bind fun result s₄ h₄ => .pure (by omega)
  · exact .pure (by omega)

/-! ### Patterns -/

theorem keeps_patternParens (hg : g.Enough n) (hs : s.rest.length < n) (start : Range) :
    Keeps (patternParens g start) s := by
  refine reads_nextIsSymbol_bind ?_
  split
  · next h =>
      exact (shortens_advance (rest_ne_nil_of_isWord h (by decide))).bind
        fun _ s₁ h₁ => .pure (by omega)
  · refine (hg.pattern s hs).bind fun first s₁ h₁ => ?_
    refine reads_nextIsSymbol_bind ?_
    split
    · have hstep := stepwise_separated (n := s₁.rest.length)
        (fun s₂ h₂ => hg.pattern s₂ (by omega)) fun s₂ => reads_skipSymbol ","
      refine (hstep.loop _).bind fun items s₂ h₂ => ?_
      exact (shortens_symbol _).bind fun _ s₃ h₃ => .pure (by omega)
    · exact (shortens_symbol _).bind fun _ s₂ h₂ => .pure (by omega)

theorem keeps_patternNegative (start : Range) : Keeps (patternNegative start) s := by
  refine reads_nextIs_bind ?_
  split
  · next h =>
      have hkind := of_decide_eq_true h
      refine (shortens_advance (rest_ne_nil (by simp [hkind]))).bind fun number s₁ h₁ => ?_
      exact (keeps_integer _ _).bind fun _ s₂ h₂ => .pure (by omega)
  · exact reads_failExpected _

theorem shortens_patternAtom (hg : g.Enough n) (hs : s.rest.length ≤ n) :
    Shortens (patternAtom g) s := by
  refine reads_peek_bind ?_
  split
  · next hkind =>
      exact (shortens_name (rest_ne_nil (by simp [hkind]))).bind fun _ s₁ h₁ => .pure h₁
  · next hkind =>
      exact (shortens_name (rest_ne_nil (by simp [hkind]))).bind fun _ s₁ h₁ => .pure h₁
  · next hkind =>
      refine (shortens_advance (rest_ne_nil (by simp [hkind]))).bind fun _ s₁ h₁ => ?_
      exact (keeps_integer _ _).bind fun _ s₂ h₂ => .pure (by omega)
  · next hkind =>
      exact (shortens_advance (rest_ne_nil (by simp [hkind]))).bind fun _ s₁ h₁ => .pure h₁
  · next hkind =>
      split
      · exact (shortens_advance (rest_ne_nil (by simp [hkind]))).bind fun _ s₁ h₁ => .pure h₁
      · exact reads_failExpected _
  · next hkind =>
      have hrest := rest_ne_nil (s := s) (by simp [hkind])
      split
      · refine (shortens_advance hrest).bind fun _ s₁ h₁ => ?_
        exact (keeps_patternNegative _).mono fun _ _ h₂ => by omega
      · split
        · refine (shortens_advance hrest).bind fun _ s₁ h₁ => ?_
          exact (keeps_patternParens hg (by omega) _).mono fun _ _ h₂ => by omega
        · split
          · refine (shortens_advance hrest).bind fun _ s₁ h₁ => ?_
            refine (keeps_commaList fun s₂ h₂ => hg.pattern s₂ (by omega)).bind
              fun items s₂ h₂ => ?_
            exact (shortens_symbol _).bind fun _ s₃ h₃ => .pure (by omega)
          · exact reads_failExpected _
  · exact reads_failExpected _

theorem shortens_patternCtor (hg : g.Enough n) (hs : s.rest.length ≤ n) :
    Shortens (patternCtor g) s := by
  refine reads_nextIs_bind ?_
  split
  · next h =>
      have hkind := of_decide_eq_true h
      refine (shortens_name (rest_ne_nil (by simp [hkind]))).bind fun ctor s₁ h₁ => ?_
      refine reads_peek_bind ?_
      split
      · exact (shortens_patternAtom hg (by omega)).bind fun arg s₂ h₂ => .pure (by omega)
      · exact .pure h₁
  · exact shortens_patternAtom hg hs

theorem shortens_patternCons (hg : g.Enough n) (hs : s.rest.length ≤ n) :
    Shortens (patternCons g) s := by
  refine (shortens_patternCtor hg hs).bind fun head s₁ h₁ => ?_
  refine (reads_skipSymbol _).bind fun b s₂ h₂ => ?_
  split
  · refine (shortens_nested fun s₃ h₃ => hg.patternCons s₃ (by omega)).bind
      fun tail s₃ h₃ => .pure (by omega)
  · exact .pure (by omega)

theorem shortens_pattern (hg : g.Enough n) (hs : s.rest.length ≤ n) :
    Shortens (pattern g) s := by
  refine Reads.nested fun s₁ h₁ => ?_
  refine (shortens_patternCons hg (by omega)).bind fun pat s₂ h₂ => ?_
  refine (reads_skipKeyword _).bind fun b s₃ h₃ => ?_
  split
  · exact (shortens_nameOf (by decide) _).bind fun _ s₄ h₄ => .pure (by omega)
  · exact .pure (by omega)

/-! ### Expressions -/

theorem kind_ne_eof_of_operator {token : Token} {op : Operator}
    (h : Operator.ofToken? token = some op) : token.kind ≠ .eof := by
  intro heof
  simp [Operator.ofToken?, heof] at h

theorem shortens_recordField (hg : g.Enough n) (hs : s.rest.length < n) :
    Shortens (recordField g.statement) s := by
  refine (shortens_nameOf (by decide) _).bind fun field s₁ h₁ => ?_
  refine (shortens_symbol _).bind fun _ s₂ h₂ => ?_
  exact (hg.statement s₂ (by omega)).bind fun t s₃ h₃ => .pure (by omega)

theorem keeps_recordForm (hg : g.Enough n) (hs : s.rest.length < n) (start : Range) :
    Keeps (recordForm g start) s := by
  have hfields : ∀ s', s'.rest.length < n → Keeps (commaList (recordField g.statement) "\x7d") s' :=
    fun s' hs' => keeps_commaList fun s₂ h₂ => shortens_recordField hg (by omega)
  refine reads_get_bind (reads_nextIsSymbol_bind ?_)
  split_ifs
  · refine (hfields s hs).bind fun fields s₁ h₁ => ?_
    exact (shortens_symbol _).bind fun _ s₂ h₂ => .pure (by omega)
  · refine (hg.access s hs).bind fun base s₁ h₁ => ?_
    refine (shortens_keyword _).bind fun _ s₂ h₂ => ?_
    refine (hfields s₂ (by omega)).bind fun fields s₃ h₃ => ?_
    split
    · exact reads_failExpected _
    · exact (shortens_symbol _).bind fun _ s₄ h₄ => .pure (by omega)

theorem keeps_parenForm (hg : g.Enough n) (hs : s.rest.length < n) (start : Range) :
    Keeps (parenForm g start) s := by
  refine reads_nextIsSymbol_bind ?_
  split
  · next h =>
      exact (shortens_advance (rest_ne_nil_of_isWord h (by decide))).bind
        fun _ s₁ h₁ => .pure (by omega)
  · refine (hg.expr s hs).bind fun first s₁ h₁ => ?_
    refine (reads_skipSymbol _).bind fun b s₂ h₂ => ?_
    split
    · refine (hg.type s₂ (by omega)).bind fun type s₃ h₃ => ?_
      exact (shortens_symbol _).bind fun _ s₄ h₄ => .pure (by omega)
    · refine reads_nextIsSymbol_bind ?_
      split
      · have hstep := stepwise_separated (n := s₂.rest.length)
          (fun s₃ h₃ => hg.expr s₃ (by omega)) fun s₃ => reads_skipSymbol ","
        refine (hstep.loop _).bind fun items s₃ h₃ => ?_
        exact (shortens_symbol _).bind fun _ s₄ h₄ => .pure (by omega)
      · exact (shortens_symbol _).bind fun _ s₃ h₃ => .pure (by omega)

theorem shortens_atom (hg : g.Enough n) (hs : s.rest.length ≤ n) : Shortens (atom g) s := by
  refine reads_peek_bind ?_
  split
  · next hkind =>
      refine (shortens_advance (rest_ne_nil (by simp [hkind]))).bind fun _ s₁ h₁ => ?_
      exact (keeps_integer _ _).bind fun _ s₂ h₂ => .pure (by omega)
  · next hkind =>
      exact (shortens_advance (rest_ne_nil (by simp [hkind]))).bind fun _ s₁ h₁ => .pure h₁
  · next hkind =>
      split
      · exact (shortens_advance (rest_ne_nil (by simp [hkind]))).bind fun _ s₁ h₁ => .pure h₁
      · exact reads_failExpected _
  · next hkind =>
      split
      · exact reads_failExpected _
      · exact (shortens_name (rest_ne_nil (by simp [hkind]))).bind fun _ s₁ h₁ => .pure h₁
  · next hkind =>
      exact (shortens_name (rest_ne_nil (by simp [hkind]))).bind fun _ s₁ h₁ => .pure h₁
  · next hkind =>
      have hrest := rest_ne_nil (s := s) (by simp [hkind])
      split
      · refine (shortens_advance hrest).bind fun _ s₁ h₁ => ?_
        exact (shortens_nested fun s₂ h₂ => hg.atom s₂ (by omega)).bind
          fun _ s₂ h₂ => .pure (by omega)
      · split
        · refine (shortens_advance hrest).bind fun _ s₁ h₁ => ?_
          exact (keeps_parenForm hg (by omega) _).mono fun _ _ h₂ => by omega
        · split
          · refine (shortens_advance hrest).bind fun _ s₁ h₁ => ?_
            refine (keeps_commaList fun s₂ h₂ => hg.expr s₂ (by omega)).bind
              fun items s₂ h₂ => ?_
            exact (shortens_symbol _).bind fun _ s₃ h₃ => .pure (by omega)
          · split
            · refine (shortens_advance hrest).bind fun _ s₁ h₁ => ?_
              exact (keeps_recordForm hg (by omega) _).mono fun _ _ h₂ => by omega
            · exact reads_failExpected _
  · exact reads_failExpected _

theorem shortens_access (hg : g.Enough n) (hs : s.rest.length ≤ n) : Shortens (access g) s := by
  refine ((shortens_atom hg hs).bind fun base s₁ h₁ => ?_).closing
  refine (Stepwise.loop (fun base s₂ h₂ => ?_) base).mono fun _ _ h₂ => Nat.lt_of_le_of_lt h₂ h₁
  refine (reads_skipSymbol _).bind fun b s₃ h₃ => ?_
  split
  · next hb =>
      rw [hb, Bool.toNat_true] at h₃
      refine keeps_descend.bind fun _ s₄ h₄ => ?_
      exact (shortens_nameOf (by decide) _).bind fun _ s₅ h₅ => .pure (by simp; omega)
  · exact .pure (by simp; omega)

theorem shortens_application (hg : g.Enough n) (hs : s.rest.length ≤ n) :
    Shortens (application g) s := by
  refine reads_nextIs_bind ?_
  split
  · next h =>
      have hkind := of_decide_eq_true h
      refine (shortens_name (rest_ne_nil (by simp [hkind]))).bind fun ctor s₁ h₁ => ?_
      refine reads_peek_bind ?_
      split
      · exact (shortens_access hg (by omega)).bind fun arg s₂ h₂ => .pure (by omega)
      · exact .pure h₁
  · refine ((shortens_access hg hs).bind fun func s₁ h₁ => ?_).closing
    refine (Stepwise.loop (fun func s₂ h₂ => ?_) func).mono fun _ _ h₂ => Nat.lt_of_le_of_lt h₂ h₁
    refine reads_peek_bind ?_
    split
    · refine keeps_descend.bind fun _ s₃ h₃ => ?_
      exact (shortens_access hg (by omega)).bind fun _ s₄ h₄ => .pure (by simp; omega)
    · exact .pure (by simp)

theorem shortens_unary (hg : g.Enough n) (hs : s.rest.length ≤ n) : Shortens (unary g) s := by
  refine reads_nextIsSymbol_bind ?_
  split
  · next h =>
      refine (shortens_advance (rest_ne_nil_of_isWord h (by decide))).bind fun _ s₁ h₁ => ?_
      refine reads_nextIs_bind ?_
      split
      · next h =>
          have hkind := of_decide_eq_true h
          refine (shortens_advance (rest_ne_nil (by simp [hkind]))).bind fun number s₂ h₂ => ?_
          exact (keeps_integer _ _).bind fun _ s₃ h₃ => .pure (by omega)
      · exact (shortens_nested fun s₂ h₂ => hg.unary s₂ (by omega)).bind
          fun _ s₂ h₂ => .pure (by omega)
  · refine reads_nextIsKeyword_bind ?_
    split
    · next h =>
        refine (shortens_advance (rest_ne_nil_of_isWord h (by decide))).bind fun _ s₁ h₁ => ?_
        exact (shortens_access hg (by omega)).bind fun _ s₂ h₂ => .pure (by omega)
    · exact shortens_application hg hs

theorem shortens_chain (hg : g.Enough n) (hs : s.rest.length ≤ n) (least : Nat) :
    Shortens (chain g least) s := by
  refine ((shortens_unary hg hs).bind fun left s₁ h₁ => ?_).closing
  refine (Stepwise.loop (fun left s₂ h₂ => ?_) left).mono fun _ _ h₂ => Nat.lt_of_le_of_lt h₂ h₁
  refine reads_peek_bind ?_
  split
  · exact .pure (by simp)
  · next op hop =>
      split
      · exact .pure (by simp)
      · have hrest := rest_ne_nil (kind_ne_eof_of_operator hop)
        refine keeps_descend.bind fun _ s₃ h₃ => ?_
        refine (shortens_advance (List.ne_nil_of_length_pos ?_)).bind fun _ s₄ h₄ => ?_
        · exact h₃ ▸ List.length_pos_iff.2 hrest
        · exact (hg.chain _ s₄ (by omega)).bind fun _ s₅ h₅ => .pure (by simp; omega)

theorem shortens_assignment (hg : g.Enough n) (hs : s.rest.length ≤ n) :
    Shortens (assignment g) s := by
  refine (shortens_chain hg hs 0).bind fun target s₁ h₁ => ?_
  refine (reads_skipSymbol _).bind fun b s₂ h₂ => ?_
  split
  · exact (hg.statement s₂ (by omega)).bind fun _ s₃ h₃ => .pure (by omega)
  · exact .pure (by omega)

theorem keeps_lambdas (params : List Pattern) (body : Expr) : Keeps (lambdas params body) s := by
  unfold lambdas
  induction params generalizing s with
  | nil => exact .pure (Nat.le_refl _)
  | cons param params ih =>
      rw [List.foldrM_cons]
      refine ih.bind fun body s₁ h₁ => ?_
      split
      · exact .pure h₁
      · exact (keeps_freshName _).bind fun _ s₂ h₂ => .pure (by omega)

theorem keeps_parameters (hg : g.Enough n) (hs : s.rest.length ≤ n) (stops : List String)
    (params : List Pattern) : Keeps (parameters g stops params) s := by
  refine (Stepwise.loop (fun params s₁ h₁ => ?_) _).bind fun params s₁ h₁ => .pure h₁
  refine reads_peek_bind ?_
  split
  · exact .pure (by simp)
  · exact (shortens_patternAtom hg (by omega)).bind fun _ s₂ h₂ => .pure (by simp; omega)

theorem shortens_bindingValue (hg : g.Enough n) (hs : s.rest.length ≤ n) :
    Shortens (bindingValue g) s := by
  refine (keeps_parameters hg hs _ _).bind fun params s₁ h₁ => ?_
  have hvalue : ∀ type? s₂, s₂.rest.length ≤ s₁.rest.length → Reads (do
      let _ ← symbol "="
      let value ← g.expr
      match type? with
      | some type => lambdas params (.annot value type value.range)
      | none => lambdas params value) s₂ fun _ m => m < s.rest.length := by
    intro type? s₂ h₂
    refine (shortens_symbol _).bind fun _ s₃ h₃ => ?_
    refine (hg.expr s₃ (by omega)).bind fun value s₄ h₄ => ?_
    cases type? with
    | some type => exact (keeps_lambdas _ _).mono fun _ _ h₅ => by omega
    | none => exact (keeps_lambdas _ _).mono fun _ _ h₅ => by omega
  refine (reads_skipSymbol _).bind fun b s₂ h₂ => ?_
  split
  · next hb =>
      rw [hb, Bool.toNat_true] at h₂
      have htype : Reads (some <$> g.type) s₂ fun _ m => m ≤ s₂.rest.length :=
        (hg.type s₂ (by omega)).keeps.map
      exact htype.bind fun type? s₃ h₃ => hvalue type? s₃ (by omega)
  · exact hvalue none s₂ (by omega)

theorem shortens_recBinding (hg : g.Enough n) (hs : s.rest.length ≤ n) :
    Shortens (recBinding g) s := by
  refine (shortens_nameOf (by decide) _).bind fun name s₁ h₁ => ?_
  exact (shortens_bindingValue hg (by omega)).bind fun _ s₂ h₂ => .pure (by omega)

theorem shortens_letForm (hg : g.Enough n) (hs : s.rest.length < n) (start : Range) :
    Shortens (letForm g start) s := by
  refine (reads_skipKeyword _).bind fun b s₁ h₁ => ?_
  split
  · refine (shortens_sepBy1 (fun s₂ h₂ => shortens_recBinding hg (by omega))
      fun s₂ => reads_skipKeyword _).bind fun bindings s₂ h₂ => ?_
    refine (shortens_keyword _).bind fun _ s₃ h₃ => ?_
    exact (hg.expr s₃ (by omega)).bind fun _ s₄ h₄ => .pure (by omega)
  · refine (shortens_pattern hg (by omega)).bind fun pat s₂ h₂ => ?_
    split
    · refine (shortens_bindingValue hg (by omega)).bind fun value s₃ h₃ => ?_
      refine (shortens_keyword _).bind fun _ s₄ h₄ => ?_
      exact (hg.expr s₄ (by omega)).bind fun _ s₅ h₅ => .pure (by omega)
    · refine (shortens_symbol _).bind fun _ s₃ h₃ => ?_
      refine (hg.expr s₃ (by omega)).bind fun value s₄ h₄ => ?_
      refine (shortens_keyword _).bind fun _ s₅ h₅ => ?_
      exact (hg.expr s₅ (by omega)).bind fun _ s₆ h₆ => .pure (by omega)

theorem shortens_funForm (hg : g.Enough n) (hs : s.rest.length < n) (start : Range) :
    Shortens (funForm g start) s := by
  refine (shortens_patternAtom hg (by omega)).bind fun first s₁ h₁ => ?_
  refine (keeps_parameters hg (by omega) _ _).bind fun params s₂ h₂ => ?_
  refine (shortens_symbol _).bind fun _ s₃ h₃ => ?_
  refine (hg.expr s₃ (by omega)).bind fun body s₄ h₄ => ?_
  refine (keeps_lambdas params body).bind fun e s₅ h₅ => ?_
  split
  · exact .pure (by omega)
  · exact .pure (by omega)

theorem shortens_ifForm (hg : g.Enough n) (hs : s.rest.length < n) (start : Range) :
    Shortens (ifForm g start) s := by
  refine (hg.expr s hs).bind fun cond s₁ h₁ => ?_
  refine (shortens_keyword _).bind fun _ s₂ h₂ => ?_
  refine (hg.statement s₂ (by omega)).bind fun yes s₃ h₃ => ?_
  refine (shortens_keyword _).bind fun _ s₄ h₄ => ?_
  exact (hg.statement s₄ (by omega)).bind fun no s₅ h₅ => .pure (by omega)

theorem shortens_matchArm (hg : g.Enough n) (hs : s.rest.length < n) :
    Shortens (matchArm g) s := by
  refine (shortens_pattern hg (by omega)).bind fun pat s₁ h₁ => ?_
  refine (shortens_symbol _).bind fun _ s₂ h₂ => ?_
  exact (hg.statement s₂ (by omega)).bind fun body s₃ h₃ => .pure (by omega)

theorem shortens_matchForm (hg : g.Enough n) (hs : s.rest.length < n) (start : Range) :
    Shortens (matchForm g start) s := by
  refine (hg.expr s hs).bind fun scrutinee s₁ h₁ => ?_
  refine (shortens_keyword _).bind fun _ s₂ h₂ => ?_
  refine (reads_skipSymbol _).bind fun _ s₃ h₃ => ?_
  refine (shortens_sepBy1 (fun s₄ h₄ => shortens_matchArm hg (by omega))
    fun s₄ => reads_skipSymbol _).bind fun arms s₄ h₄ => ?_
  exact reads_previousRange_bind (.pure (by omega))

theorem shortens_statement (hg : g.Enough n) (hs : s.rest.length ≤ n) :
    Shortens (statement g) s := by
  have hform : ∀ (form : Range → Parser Expr) (word : String) (s₁ : Cursor),
      s₁.rest.length ≤ n → s₁.peek.isWord .keyword word = true →
      (∀ start s₂, s₂.rest.length < n → Shortens (form start) s₂) →
        Shortens (advance >>= fun token => form token.range) s₁ := by
    intro form word s₁ h₁ hword hform
    refine (shortens_advance (rest_ne_nil_of_isWord hword (by decide))).bind fun _ s₂ h₂ => ?_
    exact (hform _ s₂ (by omega)).mono fun _ _ h₃ => Nat.lt_trans h₃ h₂
  refine shortens_nested fun s₁ h₁ => reads_nextIsKeyword_bind ?_
  split
  · next h => exact hform _ _ s₁ (by omega) h fun start s₂ h₂ => shortens_letForm hg h₂ start
  · refine reads_nextIsKeyword_bind ?_
    split
    · next h => exact hform _ _ s₁ (by omega) h fun start s₂ h₂ => shortens_funForm hg h₂ start
    · refine reads_nextIsKeyword_bind ?_
      split
      · next h => exact hform _ _ s₁ (by omega) h fun start s₂ h₂ => shortens_ifForm hg h₂ start
      · refine reads_nextIsKeyword_bind ?_
        split
        · next h =>
            exact hform _ _ s₁ (by omega) h fun start s₂ h₂ => shortens_matchForm hg h₂ start
        · exact shortens_assignment hg (by omega)

theorem shortens_expr (hg : g.Enough n) (hs : s.rest.length ≤ n) : Shortens (expr g) s := by
  refine (shortens_statement hg hs).bind fun first s₁ h₁ => ?_
  refine (Stepwise.loop (fun (last, earlier) s₂ h₂ => ?_) (first, [])).bind
    fun (last, earlier) s₂ h₂ => .pure (by omega)
  refine (reads_skipSymbol _).bind fun b s₃ h₃ => ?_
  split
  · next hb =>
      rw [hb, Bool.toNat_true] at h₃
      split
      · exact reads_failHere (by simp)
      · exact (shortens_statement hg (by omega)).bind fun _ s₄ h₄ => .pure (by simp; omega)
  · exact .pure (by simp; omega)

end FieldML.Parser

/-! ## Reading programs ends

As many unfoldings of the grammar as there are tokens are enough for every program. -/

namespace FieldML.Parser

variable {n : Nat} {g : Grammar} {s : Cursor}

theorem Grammar.Enough.unfold (hg : g.Enough n) : g.unfold.Enough (n + 1) where
  type _ hs := shortens_type hg (Nat.le_of_lt_succ hs)
  pattern _ hs := shortens_pattern hg (Nat.le_of_lt_succ hs)
  patternCons _ hs := shortens_patternCons hg (Nat.le_of_lt_succ hs)
  expr _ hs := shortens_expr hg (Nat.le_of_lt_succ hs)
  statement _ hs := shortens_statement hg (Nat.le_of_lt_succ hs)
  chain _ _ hs := shortens_chain hg (Nat.le_of_lt_succ hs) _
  unary _ hs := shortens_unary hg (Nat.le_of_lt_succ hs)
  access _ hs := shortens_access hg (Nat.le_of_lt_succ hs)
  atom _ hs := shortens_atom hg (Nat.le_of_lt_succ hs)

theorem enough_grammar (n : Nat) : (grammar n).Enough n := by
  induction n with
  | zero =>
      constructor
      all_goals intros
      all_goals exact absurd ‹_ < 0› (Nat.not_lt_zero _)
  | succ n ih => exact ih.unfold

theorem keeps_typeParams : Keeps typeParams s := by
  refine reads_nextIs_bind ?_
  split
  · next h =>
      have hkind := of_decide_eq_true h
      exact (shortens_name (rest_ne_nil (by simp [hkind]))).bind fun _ s₁ h₁ => .pure (by omega)
  · refine reads_get_bind ?_
    dsimp only
    split
    · next heq =>
        split
        · refine (shortens_advance (by simp [heq])).bind fun _ s₁ h₁ => ?_
          refine (shortens_sepBy1 (fun s₂ h₂ => shortens_nameOf (by decide) _)
            fun s₂ => reads_skipSymbol _).bind fun params s₂ h₂ => ?_
          exact (shortens_symbol _).bind fun _ s₃ h₃ => .pure (by omega)
        · exact .pure (Nat.le_refl _)
    · exact .pure (Nat.le_refl _)

theorem shortens_ctorDecl (hg : g.Enough n) (hs : s.rest.length ≤ n) :
    Shortens (ctorDecl g) s := by
  refine (shortens_nameOf (by decide) _).bind fun name s₁ h₁ => ?_
  refine (reads_skipKeyword _).bind fun b s₂ h₂ => ?_
  split
  · refine (shortens_sepBy1 (fun s₃ h₃ => shortens_typeApp hg (by omega))
      fun s₃ => reads_skipSymbol _).bind fun args s₃ h₃ => ?_
    exact reads_previousRange_bind (.pure (by omega))
  · refine (Reads.pure (Q := fun _ m => m = s₂.rest.length) rfl).bind fun args s₃ h₃ => ?_
    exact reads_previousRange_bind (.pure (by omega))

theorem shortens_typeDecl (hg : g.Enough n) (hs : s.rest.length ≤ n) :
    Shortens (typeDecl g) s := by
  refine reads_peek_bind (keeps_typeParams.bind fun params s₁ h₁ => ?_)
  refine (shortens_nameOf (by decide) _).bind fun name s₂ h₂ => ?_
  refine (shortens_symbol _).bind fun _ s₃ h₃ => ?_
  refine reads_nextIsSymbol_bind (reads_nextIs_bind ?_)
  split
  · refine (reads_skipSymbol _).bind fun _ s₄ h₄ => ?_
    refine (shortens_sepBy1 (fun s₅ h₅ => shortens_ctorDecl hg (by omega))
      fun s₅ => reads_skipSymbol _).bind fun ctors s₅ h₅ => ?_
    exact reads_previousRange_bind (.pure (by omega))
  · exact (shortens_type hg (by omega)).bind fun body s₄ h₄ => .pure (by omega)

theorem shortens_typeGroup (hg : g.Enough n) (hs : s.rest.length ≤ n) :
    Shortens (typeGroup g) s := by
  refine (shortens_sepBy1 (fun s₁ h₁ => shortens_typeDecl hg (by omega))
    fun s₁ => reads_skipKeyword _).bind fun group s₁ h₁ => ?_
  exact (shortens_keyword _).bind fun _ s₂ h₂ => .pure (by omega)

theorem shortens_program (hg : g.Enough n) (hs : s.rest.length ≤ n) :
    Shortens (program g) s := by
  refine (Stepwise.loop (fun groups s₁ h₁ => ?_) []).bind fun groups s₁ h₁ => ?_
  · refine (reads_skipKeyword _).bind fun b s₂ h₂ => ?_
    split
    · next hb =>
        rw [hb, Bool.toNat_true] at h₂
        exact (shortens_typeGroup hg (by omega)).bind fun _ s₃ h₃ => .pure (by simp; omega)
    · exact .pure (by simp; omega)
  · exact (shortens_expr hg (by omega)).bind fun _ s₂ h₂ => .pure (by omega)

theorem shortens_wholeProgram (hg : g.Enough n) (hs : s.rest.length ≤ n) :
    Shortens (wholeProgram g) s := by
  refine (shortens_program hg hs).bind fun p s₁ h₁ => ?_
  refine reads_nextIs_bind ?_
  split
  · exact .pure h₁
  · exact reads_failHere (by simp)

end FieldML.Parser

namespace FieldML

/-- Reading a program never gives up for want of fuel. -/
theorem Program.ofTokens_error_ne_outOfFuel {tokens : List Token} {e : ParseError}
    (h : Program.ofTokens tokens = .error e) : e.cause ≠ .outOfFuel := by
  let start := Cursor.ofTokens tokens
  have hreads : Parser.Shortens
      (Parser.wholeProgram (Parser.grammar (start.rest.length + 1))) start :=
    Parser.shortens_wholeProgram (Parser.enough_grammar _) (Nat.le_succ _)
  unfold Parser.Shortens Parser.Reads at hreads
  unfold Program.ofTokens at h
  simp only [bind, Except.bind] at h
  split at h
  · next fault hrun =>
      rw [hrun] at hreads
      obtain rfl := Except.error.inj h
      exact hreads
  · split at h
    · obtain rfl := Except.error.inj h
      simp
    · simp [pure, Except.pure] at h

end FieldML
