import FieldML.Parser.Program
import FieldML.Proofs.Layout.Syntax
import FieldML.Proofs.Nesting
import FieldML.Proofs.Parser.Basic

/-!
# The grammar does not look at ranges

Every form of the grammar is read in the same way whatever the ranges of the tokens are. The forms
inside other forms are those of a grammar of which this is known, and a grammar that reads nothing
looks at nothing.
-/

/-! ## Parsers do not look at ranges

A parser does the same on tokens whose ranges are erased: it reads as many of them and has the same
outcome without its ranges. This passes from the parts of a sequence to the whole. -/

namespace FieldML

def ParseError.erase (e : ParseError) : ParseError := ⟨e.cause, .erased⟩

def Cursor.erase (s : Cursor) : Cursor :=
  ⟨s.rest.map Token.erase, .erased, .erased, s.fresh, s.depth⟩

theorem Cursor.peek_erase (s : Cursor) : s.erase.peek = s.peek.erase := by
  rcases s with ⟨_ | ⟨t, rest⟩, _, _, _, _⟩ <;> rfl

theorem Cursor.found_erase (s : Cursor) : s.erase.found = s.found := by
  rcases s with ⟨_ | ⟨t, rest⟩, _, _, _, _⟩ <;> rfl

theorem Cursor.advance_erase (s : Cursor) : s.erase.advance = s.advance.erase := by
  rcases s with ⟨_ | ⟨t, rest⟩, _, previous, _, _⟩ <;> rfl

namespace Parser

variable {α β : Type} {v : α → α} {w : β → β}

/-- On erased tokens `q` does what `p` does on the tokens themselves, and `v` erases the outcome. -/
def Blind (v : α → α) (p q : Parser α) : Prop :=
  ∀ s, q s.erase = match p s with
    | .ok (a, s') => .ok (v a, s'.erase)
    | .error e => .error e.erase

theorem Blind.bind {p q : Parser α} {f g : α → Parser β} (hp : Blind v p q)
    (hf : ∀ a, Blind w (f a) (g (v a))) : Blind w (p >>= f) (q >>= g) := by
  intro s
  rw [bind_apply, bind_apply, hp s]
  rcases p s with e | ⟨a, s'⟩
  · rfl
  · exact hf a s'

theorem Blind.pure {a b : α} (h : v a = b) : Blind v (Pure.pure a) (Pure.pure b) := by
  subst h
  exact fun _ => rfl

theorem Blind.ite {c : Prop} [Decidable c] {p p' q q' : Parser α} (hp : Blind v p q)
    (hp' : Blind v p' q') : Blind v (if c then p else p') (if c then q else q') := by
  split
  · exact hp
  · exact hp'

theorem Blind.map {f : α → β} {p : Parser α} (hp : Blind v p p) (hf : ∀ a, w (f a) = f (v a)) :
    Blind w (f <$> p) (f <$> p) := by
  change Blind w (p >>= fun a => Pure.pure (f a)) (p >>= fun a => Pure.pure (f a))
  exact hp.bind fun a => .pure (hf a)

/-! ### Looking at the next token -/

theorem blind_get : Blind Cursor.erase get get := fun _ => rfl

theorem blind_peek : Blind Token.erase peek peek := fun s =>
  congrArg (fun t => Except.ok (t, s.erase)) s.peek_erase

theorem blind_advance : Blind Token.erase advance advance := fun s => by
  rw [advance, s.peek_erase, s.advance_erase]
  rfl

theorem blind_previousRange : Blind (fun _ => .erased) previousRange previousRange := fun _ => rfl

theorem blind_failHere (cause : Option String → ParseError.Cause) :
    Blind v (failHere cause) (failHere cause) := fun s => by
  rw [failHere, s.found_erase, s.peek_erase]
  rfl

theorem blind_failExpected (what : String) : Blind v (failExpected what) (failExpected what) :=
  blind_failHere _

theorem blind_nextIs (kind : TokenKind) : Blind id (nextIs kind) (nextIs kind) :=
  blind_peek.bind fun _ => .pure rfl

theorem blind_nextIsSymbol (text : String) : Blind id (nextIsSymbol text) (nextIsSymbol text) :=
  blind_peek.bind fun _ => .pure rfl

theorem blind_nextIsKeyword (text : String) : Blind id (nextIsKeyword text) (nextIsKeyword text) :=
  blind_peek.bind fun _ => .pure rfl

theorem blind_skipSymbol (text : String) : Blind id (skipSymbol text) (skipSymbol text) :=
  (blind_nextIsSymbol text).bind fun _ =>
    .ite (blind_advance.bind fun _ => .pure rfl) (.pure rfl)

theorem blind_skipKeyword (text : String) : Blind id (skipKeyword text) (skipKeyword text) :=
  (blind_nextIsKeyword text).bind fun _ =>
    .ite (blind_advance.bind fun _ => .pure rfl) (.pure rfl)

theorem blind_symbol (text : String) : Blind (fun _ => .erased) (symbol text) (symbol text) :=
  (blind_nextIsSymbol text).bind fun _ =>
    .ite (blind_advance.bind fun _ => .pure rfl) (blind_failExpected _)

theorem blind_keyword (text : String) : Blind (fun _ => .erased) (keyword text) (keyword text) :=
  (blind_nextIsKeyword text).bind fun _ =>
    .ite (blind_advance.bind fun _ => .pure rfl) (blind_failExpected _)

theorem blind_name : Blind Ident.erase name name := blind_advance.bind fun _ => .pure rfl

theorem blind_nameOf (kind : TokenKind) (what : String) :
    Blind Ident.erase (nameOf kind what) (nameOf kind what) :=
  (blind_nextIs kind).bind fun _ => .ite blind_name (blind_failExpected what)

theorem blind_freshName (range : Range) :
    Blind Ident.erase (freshName range) (freshName .erased) := fun _ => rfl

theorem blind_integer (text : String) (range : Range) :
    Blind id (integer text range) (integer text .erased) := by
  intro s
  unfold integer
  cases Text.int64OfDecimal? text <;> rfl

/-! ### Nesting and repetition -/

theorem blind_closing {p q : Parser α} (hp : Blind v p q) : Blind v (closing p) (closing q) :=
  blind_get.bind fun _ => hp.bind fun _ =>
    Blind.bind (v := id) (fun _ => rfl) fun _ => .pure rfl

theorem blind_descend : Blind id descend descend :=
  blind_get.bind fun _ => .ite (blind_failHere _) fun _ => rfl

theorem blind_nested {p q : Parser α} (hp : Blind v p q) : Blind v (nested p) (nested q) :=
  blind_closing (blind_descend.bind fun _ => hp)

theorem blind_stuck : Blind v (stuck : Parser α) stuck := fun s => by
  rw [stuck, s.peek_erase]
  rfl

theorem blind_steps {step : α → Parser (Option α)}
    (hstep : ∀ a, Blind (Option.map v) (step a) (step (v a))) (n : Nat) (a : α) :
    Blind v (steps step n a) (steps step n (v a)) := by
  induction n generalizing a with
  | zero => exact blind_stuck
  | succ n ih =>
      refine (hstep a).bind fun b => ?_
      cases b with
      | some b => exact ih b
      | none => exact .pure rfl

theorem blind_loop {step : α → Parser (Option α)}
    (hstep : ∀ a, Blind (Option.map v) (step a) (step (v a))) (a : α) :
    Blind v (loop step a) (loop step (v a)) := by
  refine blind_get.bind fun s => ?_
  rw [Cursor.erase, List.length_map]
  exact blind_steps hstep _ a

/-- Items are collected in the same way as long as a separator comes next. -/
theorem blind_items {item : Parser α} {separator : Parser Bool} (hitem : Blind v item item)
    (hseparator : Blind id separator separator) (items : List α) :
    Blind (List.map v)
      (loop (fun items => do
        if ← separator then return some ((← item) :: items) else return none) items)
      (loop (fun items => do
        if ← separator then return some ((← item) :: items) else return none) (items.map v)) := by
  refine blind_loop (v := List.map v) (fun items => ?_) items
  exact hseparator.bind fun _ => .ite (hitem.bind fun _ => .pure rfl) (.pure rfl)

theorem blind_sepBy1 {item : Parser α} {separator : Parser Bool} (hitem : Blind v item item)
    (hseparator : Blind id separator separator) :
    Blind (List.map v) (sepBy1 item separator) (sepBy1 item separator) :=
  hitem.bind fun first => (blind_items hitem hseparator [first]).bind fun _ =>
    .pure (List.map_reverse ..)

theorem blind_commaList {item : Parser α} (hitem : Blind v item item) (close : String) :
    Blind (List.map v) (commaList item close) (commaList item close) :=
  (blind_nextIsSymbol close).bind fun _ =>
    .ite (.pure rfl) (blind_sepBy1 hitem (blind_skipSymbol ","))

end Parser

end FieldML

/-! ## Forms of the grammar -/

namespace FieldML.Parser

/-- No form of the grammar is read by looking at ranges. -/
structure BlindGrammar (g : Grammar) : Prop where
  type : Blind TypeExpr.erase g.type g.type
  pattern : Blind Pattern.erase g.pattern g.pattern
  patternCons : Blind Pattern.erase g.patternCons g.patternCons
  expr : Blind Expr.erase g.expr g.expr
  statement : Blind Expr.erase g.statement g.statement
  chain (least : Nat) : Blind Expr.erase (g.chain least) (g.chain least)
  unary : Blind Expr.erase g.unary g.unary
  access : Blind Expr.erase g.access g.access
  atom : Blind Expr.erase g.atom g.atom

variable {g : Grammar}

/-! ### Types -/

theorem blind_typeField (hg : BlindGrammar g) :
    Blind (Prod.map Ident.erase TypeExpr.erase) (typeField g) (typeField g) :=
  (blind_nameOf _ _).bind fun _ => (blind_symbol _).bind fun _ => hg.type.bind fun _ => .pure rfl

theorem blind_typeAtom (hg : BlindGrammar g) :
    Blind (List.map TypeExpr.erase) (typeAtom g) (typeAtom g) := by
  refine blind_peek.bind fun ⟨kind, text, range⟩ => ?_
  cases kind with
  | typeVar => exact blind_name.bind fun _ => .pure rfl
  | ident => exact blind_name.bind fun _ => .pure rfl
  | symbol =>
      refine .ite ?_ (.ite ?_ (blind_failExpected _))
      · exact blind_advance.bind fun _ => (blind_sepBy1 hg.type (blind_skipSymbol _)).bind
          fun _ => (blind_symbol _).bind fun _ => .pure rfl
      · exact blind_advance.bind fun _ => (blind_commaList (blind_typeField hg) _).bind
          fun fields => (blind_symbol _).bind fun _ => .pure (by simp [TypeExpr.erase, Token.erase])
  | constructor | number | string | keyword | eof => exact blind_failExpected _

theorem blind_typeApplications (args : List TypeExpr) :
    Blind (List.map TypeExpr.erase) (typeApplications args)
      (typeApplications (args.map TypeExpr.erase)) := by
  refine blind_closing (blind_loop (fun args => ?_) args)
  refine (blind_nextIs _).bind fun _ => .ite ?_ (.pure rfl)
  refine blind_descend.bind fun _ => blind_name.bind fun name => .pure ?_
  cases args <;> simp [TypeExpr.erase, Ident.erase]

theorem blind_typeApp (hg : BlindGrammar g) : Blind TypeExpr.erase (typeApp g) (typeApp g) := by
  refine (blind_typeAtom hg).bind fun args => (blind_typeApplications args).bind fun types => ?_
  match types with
  | [type] => exact .pure rfl
  | [] | _ :: _ :: _ => exact blind_failExpected _

theorem blind_typeProduct (hg : BlindGrammar g) :
    Blind TypeExpr.erase (typeProduct g) (typeProduct g) := by
  refine (blind_typeApp hg).bind fun first => (blind_nextIsSymbol _).bind fun _ =>
    .ite ?_ (.pure rfl)
  exact (blind_items (blind_typeApp hg) (blind_skipSymbol _) [first]).bind fun items =>
    blind_previousRange.bind fun _ => .pure (by simp [TypeExpr.erase])

theorem blind_type (hg : BlindGrammar g) : Blind TypeExpr.erase (type g) (type g) := by
  refine blind_nested ((blind_typeProduct hg).bind fun param => (blind_skipSymbol _).bind
    fun _ => .ite ?_ (.pure rfl))
  exact hg.type.bind fun result => .pure (by simp [TypeExpr.erase])

/-! ### Patterns -/

theorem erase_listPattern (items : List Pattern) (start stop : Range) :
    (listPattern items start stop).erase = listPattern (items.map Pattern.erase) .erased .erased := by
  have hcells : ∀ items : List Pattern, (items.foldr
      (fun head tail => Pattern.cons head tail (head.range.merge stop)) (.nil stop)).erase =
      (items.map Pattern.erase).foldr
        (fun head tail => Pattern.cons head tail (head.range.merge .erased)) (.nil .erased) := by
    intro items
    induction items with
    | nil => rfl
    | cons p items ih => simp [Pattern.erase, ih]
  cases items with
  | nil => rfl
  | cons p items => exact hcells (p :: items)

theorem blind_patternParens (hg : BlindGrammar g) (start : Range) :
    Blind Pattern.erase (patternParens g start) (patternParens g .erased) := by
  refine (blind_nextIsSymbol _).bind fun _ => .ite (blind_advance.bind fun _ => .pure rfl) ?_
  refine hg.pattern.bind fun first => (blind_nextIsSymbol _).bind fun _ =>
    .ite ?_ ((blind_symbol _).bind fun _ => .pure rfl)
  exact (blind_items hg.pattern (blind_skipSymbol _) [first]).bind fun items =>
    (blind_symbol _).bind fun _ => .pure (by simp [Pattern.erase])

theorem blind_patternNegative (start : Range) :
    Blind Pattern.erase (patternNegative start) (patternNegative .erased) :=
  (blind_nextIs _).bind fun _ => .ite (blind_advance.bind fun number =>
    (blind_integer _ number.range).bind fun _ => .pure rfl) (blind_failExpected _)

theorem blind_patternAtom (hg : BlindGrammar g) :
    Blind Pattern.erase (patternAtom g) (patternAtom g) := by
  refine blind_peek.bind fun ⟨kind, text, range⟩ => ?_
  cases kind with
  | ident =>
      refine blind_name.bind fun name => .pure ?_
      rw [apply_ite Pattern.erase]
      rfl
  | constructor => exact blind_name.bind fun _ => .pure rfl
  | number =>
      exact blind_advance.bind fun _ => (blind_integer text range).bind fun _ => .pure rfl
  | string => exact blind_advance.bind fun _ => .pure rfl
  | keyword => exact .ite (blind_advance.bind fun _ => .pure rfl) (blind_failExpected _)
  | symbol =>
      refine .ite ?_ (.ite ?_ (.ite ?_ (blind_failExpected _)))
      · exact blind_advance.bind fun _ => blind_patternNegative range
      · exact blind_advance.bind fun _ => blind_patternParens hg range
      · exact blind_advance.bind fun _ => (blind_commaList hg.pattern _).bind fun items =>
          (blind_symbol _).bind fun stop => .pure (erase_listPattern items range stop)
  | typeVar | eof => exact blind_failExpected _

theorem blind_patternCtor (hg : BlindGrammar g) :
    Blind Pattern.erase (patternCtor g) (patternCtor g) := by
  refine (blind_nextIs _).bind fun _ => .ite ?_ (blind_patternAtom hg)
  refine blind_name.bind fun ctor => blind_peek.bind fun _ => .ite ?_ (.pure rfl)
  exact (blind_patternAtom hg).bind fun arg =>
    .pure (by simp [Pattern.erase, Pattern.eraseArg, Ident.erase])

theorem blind_patternCons (hg : BlindGrammar g) :
    Blind Pattern.erase (patternCons g) (patternCons g) := by
  refine (blind_patternCtor hg).bind fun head => (blind_skipSymbol _).bind fun _ =>
    .ite ?_ (.pure rfl)
  exact (blind_nested hg.patternCons).bind fun tail => .pure (by simp [Pattern.erase])

theorem blind_pattern (hg : BlindGrammar g) : Blind Pattern.erase (pattern g) (pattern g) := by
  refine blind_nested ((blind_patternCons hg).bind fun pattern => (blind_skipKeyword _).bind
    fun _ => .ite ?_ (.pure rfl))
  exact (blind_nameOf _ _).bind fun name => .pure (by simp [Pattern.erase, Ident.erase])

/-! ### Expressions -/

theorem blind_recordField (hg : BlindGrammar g) : Blind (Prod.map Ident.erase Expr.erase)
    (recordField g.statement) (recordField g.statement) :=
  (blind_nameOf _ _).bind fun _ => (blind_symbol _).bind fun _ =>
    hg.statement.bind fun _ => .pure rfl

theorem blind_recordForm (hg : BlindGrammar g) (start : Range) :
    Blind Expr.erase (recordForm g start) (recordForm g .erased) := by
  have hfields := blind_commaList (blind_recordField hg)
  refine blind_get.bind fun ⟨rest, _, _, _, _⟩ => ?_
  -- Whether a field comes first is seen from the kinds and texts of two tokens.
  rcases rest with _ | ⟨first, _ | ⟨second, rest⟩⟩ <;>
    refine (blind_nextIsSymbol _).bind fun _ => .ite ?_ ?_
  all_goals first
    | exact (hfields _).bind fun fields => (blind_symbol _).bind fun _ =>
        .pure (by simp [Expr.erase])
    | refine hg.access.bind fun base => (blind_keyword _).bind fun _ =>
        (hfields _).bind fun fields => ?_
      rw [List.isEmpty_map]
      exact .ite (blind_failExpected _) ((blind_symbol _).bind fun _ =>
        .pure (by simp [Expr.erase]))

theorem blind_parenForm (hg : BlindGrammar g) (start : Range) :
    Blind Expr.erase (parenForm g start) (parenForm g .erased) := by
  refine (blind_nextIsSymbol _).bind fun _ => .ite (blind_advance.bind fun _ => .pure rfl) ?_
  refine hg.expr.bind fun first => (blind_skipSymbol _).bind fun _ => .ite ?_ ?_
  · exact hg.type.bind fun _ => (blind_symbol _).bind fun _ => .pure (by simp [Expr.erase])
  · refine (blind_nextIsSymbol _).bind fun _ => .ite ?_ ((blind_symbol _).bind fun _ => .pure rfl)
    exact (blind_items hg.expr (blind_skipSymbol _) [first]).bind fun items =>
      (blind_symbol _).bind fun _ => .pure (by simp [Expr.erase])

theorem blind_atom (hg : BlindGrammar g) : Blind Expr.erase (atom g) (atom g) := by
  refine blind_peek.bind fun ⟨kind, text, range⟩ => ?_
  cases kind with
  | number =>
      exact blind_advance.bind fun _ => (blind_integer text range).bind fun _ => .pure rfl
  | string => exact blind_advance.bind fun _ => .pure rfl
  | keyword => exact .ite (blind_advance.bind fun _ => .pure rfl) (blind_failExpected _)
  | ident => exact .ite (blind_failExpected _) (blind_name.bind fun _ => .pure rfl)
  | constructor => exact blind_name.bind fun _ => .pure rfl
  | symbol =>
      refine .ite ?_ (.ite ?_ (.ite ?_ (.ite ?_ (blind_failExpected _))))
      · exact blind_advance.bind fun _ => (blind_nested hg.atom).bind fun target =>
          .pure (by simp [Expr.erase, Token.erase])
      · exact blind_advance.bind fun _ => blind_parenForm hg range
      · exact blind_advance.bind fun _ => (blind_commaList hg.expr _).bind fun items =>
          (blind_symbol _).bind fun _ => .pure (by simp [Expr.erase, Token.erase])
      · exact blind_advance.bind fun _ => blind_recordForm hg range
  | typeVar | eof => exact blind_failExpected _

theorem blind_access (hg : BlindGrammar g) : Blind Expr.erase (access g) (access g) := by
  refine blind_closing ((blind_atom hg).bind fun atom => blind_loop (fun base => ?_) atom)
  refine (blind_skipSymbol _).bind fun _ => .ite ?_ (.pure rfl)
  exact blind_descend.bind fun _ => (blind_nameOf _ _).bind fun field =>
    .pure (by simp [Expr.erase, Ident.erase])

theorem blind_application (hg : BlindGrammar g) :
    Blind Expr.erase (application g) (application g) := by
  refine (blind_nextIs _).bind fun _ => .ite ?_ ?_
  · refine blind_name.bind fun ctor => blind_peek.bind fun _ => .ite ?_ (.pure rfl)
    exact (blind_access hg).bind fun arg =>
      .pure (by simp [Expr.erase, Expr.eraseArg, Ident.erase])
  · refine blind_closing ((blind_access hg).bind fun func => blind_loop (fun func => ?_) func)
    refine blind_peek.bind fun _ => .ite ?_ (.pure rfl)
    exact blind_descend.bind fun _ => (blind_access hg).bind fun arg =>
      .pure (by simp [Expr.erase])

theorem erase_apply (op : String) (place : Range) (left right : Expr) :
    (Operator.apply op place left right).erase =
      Operator.apply op .erased left.erase right.erase := by
  unfold Operator.apply
  simp only [Expr.range_erase, Range.erased_merge]
  split
  · rfl
  · split <;> rfl

theorem blind_unary (hg : BlindGrammar g) : Blind Expr.erase (unary g) (unary g) := by
  refine (blind_nextIsSymbol _).bind fun _ => .ite ?_ ?_
  · refine blind_advance.bind fun minus => (blind_nextIs _).bind fun _ => .ite ?_ ?_
    · exact blind_advance.bind fun number =>
        (blind_integer _ number.range).bind fun _ => .pure rfl
    · exact (blind_nested hg.unary).bind fun operand => .pure (erase_apply _ _ _ operand)
  · refine (blind_nextIsKeyword _).bind fun _ => .ite ?_ (blind_application hg)
    exact blind_advance.bind fun ref => (blind_access hg).bind fun value =>
      .pure (by simp [Expr.erase, Token.erase])

theorem blind_chain (hg : BlindGrammar g) (least : Nat) :
    Blind Expr.erase (chain g least) (chain g least) := by
  refine blind_closing ((blind_unary hg).bind fun left => blind_loop (fun left => ?_) left)
  refine blind_peek.bind fun token => ?_
  have hop : Operator.ofToken? token.erase = Operator.ofToken? token := rfl
  rw [hop]
  cases Operator.ofToken? token with
  | none => exact .pure rfl
  | some op =>
      refine .ite (.pure rfl) (blind_descend.bind fun _ => blind_advance.bind fun place =>
        (hg.chain _).bind fun right => .pure ?_)
      exact congrArg some (erase_apply _ _ left right)

theorem blind_assignment (hg : BlindGrammar g) :
    Blind Expr.erase (assignment g) (assignment g) := by
  refine (blind_chain hg 0).bind fun target => (blind_skipSymbol _).bind fun _ =>
    .ite ?_ (.pure rfl)
  exact hg.statement.bind fun value => .pure (by simp [Expr.erase])

/-! ### Functions and bindings -/

theorem blind_lambdas (params : List Pattern) (body : Expr) :
    Blind Expr.erase (lambdas params body) (lambdas (params.map Pattern.erase) body.erase) := by
  unfold lambdas
  induction params with
  | nil => exact .pure rfl
  | cons param params ih =>
      rw [List.map_cons, List.foldrM_cons, List.foldrM_cons]
      refine ih.bind fun body => ?_
      cases param with
      | var name => exact .pure (by simp [Expr.erase, Pattern.erase, Pattern.range, Ident.erase])
      | _ =>
          exact (blind_freshName _).bind fun name =>
            .pure (by simp [Expr.erase, Pattern.erase, Pattern.range, Expr.eraseArms, Ident.erase])

theorem blind_parameters (hg : BlindGrammar g) (stops : List String) (params : List Pattern) :
    Blind (List.map Pattern.erase) (parameters g stops params)
      (parameters g stops (params.map Pattern.erase)) := by
  have hstep : ∀ params, Blind (Option.map (List.map Pattern.erase))
      (do
        let token ← peek
        if stops.any (token.isWord .symbol) then return none
        else return some ((← patternAtom g) :: params))
      (do
        let token ← peek
        if stops.any (token.isWord .symbol) then return none
        else return some ((← patternAtom g) :: params.map Pattern.erase)) := fun params =>
    blind_peek.bind fun _ => .ite (.pure rfl) ((blind_patternAtom hg).bind fun _ => .pure rfl)
  unfold parameters
  rw [← List.map_reverse]
  exact (blind_loop hstep _).bind fun params => .pure (List.map_reverse ..)

theorem blind_bindingValue (hg : BlindGrammar g) :
    Blind Expr.erase (bindingValue g) (bindingValue g) := by
  have htype : Blind (Option.map TypeExpr.erase) (some <$> g.type) (some <$> g.type) :=
    hg.type.map fun _ => rfl
  refine (blind_parameters hg _ []).bind fun params => (blind_skipSymbol _).bind fun _ =>
    .ite (htype.bind fun type? => ?_)
      (Blind.bind (v := Option.map TypeExpr.erase) (.pure rfl) fun type? => ?_)
  all_goals
    refine (blind_symbol _).bind fun _ => hg.expr.bind fun e => ?_
    cases type? with
    | some type => simpa [Expr.erase] using blind_lambdas params (.annot e type e.range)
    | none => exact blind_lambdas params e

theorem blind_recBinding (hg : BlindGrammar g) :
    Blind RecBinding.erase (recBinding g) (recBinding g) :=
  (blind_nameOf _ _).bind fun name => (blind_bindingValue hg).bind fun value =>
    .pure (by simp [RecBinding.erase, Ident.erase])

theorem blind_letForm (hg : BlindGrammar g) (start : Range) :
    Blind Expr.erase (letForm g start) (letForm g .erased) := by
  refine (blind_skipKeyword _).bind fun _ => .ite ?_ ?_
  · exact (blind_sepBy1 (blind_recBinding hg) (blind_skipKeyword _)).bind fun bindings =>
      (blind_keyword _).bind fun _ => hg.expr.bind fun body => .pure (by simp [Expr.erase])
  · refine (blind_pattern hg).bind fun pattern => ?_
    cases pattern with
    | var name =>
        exact (blind_bindingValue hg).bind fun value => (blind_keyword _).bind fun _ =>
          hg.expr.bind fun body => .pure (by simp [Expr.erase])
    | _ =>
        exact (blind_symbol _).bind fun _ => hg.expr.bind fun value =>
          (blind_keyword _).bind fun _ => hg.expr.bind fun body =>
            .pure (by simp [Expr.erase, Expr.eraseArms, Pattern.erase, Pattern.range])

theorem blind_funForm (hg : BlindGrammar g) (start : Range) :
    Blind Expr.erase (funForm g start) (funForm g .erased) := by
  refine (blind_patternAtom hg).bind fun first => (blind_parameters hg _ [first]).bind
    fun params => (blind_symbol _).bind fun _ => hg.expr.bind fun body =>
      (blind_lambdas params body).bind fun e => ?_
  cases e with
  | lambda => exact .pure (by simp [Expr.erase])
  | _ => exact .pure rfl

theorem blind_ifForm (hg : BlindGrammar g) (start : Range) :
    Blind Expr.erase (ifForm g start) (ifForm g .erased) :=
  hg.expr.bind fun _ => (blind_keyword _).bind fun _ => hg.statement.bind fun _ =>
    (blind_keyword _).bind fun _ => hg.statement.bind fun _ => .pure (by simp [Expr.erase])

theorem blind_matchArm (hg : BlindGrammar g) :
    Blind MatchArm.erase (matchArm g) (matchArm g) :=
  (blind_pattern hg).bind fun _ => (blind_symbol _).bind fun _ => hg.statement.bind fun _ =>
    .pure (by simp [MatchArm.erase])

theorem blind_matchForm (hg : BlindGrammar g) (start : Range) :
    Blind Expr.erase (matchForm g start) (matchForm g .erased) :=
  hg.expr.bind fun _ => (blind_keyword _).bind fun _ => (blind_skipSymbol _).bind fun _ =>
    (blind_sepBy1 (blind_matchArm hg) (blind_skipSymbol _)).bind fun _ =>
      blind_previousRange.bind fun _ => .pure (by simp [Expr.erase])

theorem blind_statement (hg : BlindGrammar g) : Blind Expr.erase (statement g) (statement g) := by
  refine blind_nested ((blind_nextIsKeyword _).bind fun _ => .ite ?_ ?_)
  · exact blind_advance.bind fun t => blind_letForm hg t.range
  refine (blind_nextIsKeyword _).bind fun _ => .ite ?_ ?_
  · exact blind_advance.bind fun t => blind_funForm hg t.range
  refine (blind_nextIsKeyword _).bind fun _ => .ite ?_ ?_
  · exact blind_advance.bind fun t => blind_ifForm hg t.range
  refine (blind_nextIsKeyword _).bind fun _ => .ite ?_ (blind_assignment hg)
  exact blind_advance.bind fun t => blind_matchForm hg t.range

theorem erase_foldl_sequence (earlier : List Expr) (last : Expr) :
    (earlier.foldl (fun rest first => .sequence first rest (first.range.merge rest.range))
      last).erase = (earlier.map Expr.erase).foldl
        (fun rest first => .sequence first rest (first.range.merge rest.range)) last.erase := by
  induction earlier generalizing last with
  | nil => rfl
  | cons e earlier ih =>
      rw [List.foldl_cons, ih, List.map_cons, List.foldl_cons]
      simp [Expr.erase]

theorem blind_expr (hg : BlindGrammar g) : Blind Expr.erase (expr g) (expr g) := by
  refine (blind_statement hg).bind fun first => (blind_loop
    (v := Prod.map Expr.erase (List.map Expr.erase)) (fun r => ?_) (first, [])).bind
      fun r => .pure (erase_foldl_sequence r.2 r.1)
  refine (blind_skipSymbol _).bind fun _ => .ite ?_ (.pure rfl)
  rw [List.length_map]
  exact .ite (blind_failHere _) ((blind_statement hg).bind fun _ => .pure rfl)

/-! ### Programs -/

theorem BlindGrammar.unfold (hg : BlindGrammar g) : BlindGrammar g.unfold where
  type := blind_type hg
  pattern := blind_pattern hg
  patternCons := blind_patternCons hg
  expr := blind_expr hg
  statement := blind_statement hg
  chain least := blind_chain hg least
  unary := blind_unary hg
  access := blind_access hg
  atom := blind_atom hg

theorem BlindGrammar.stuck : BlindGrammar .stuck :=
  ⟨blind_stuck, blind_stuck, blind_stuck, blind_stuck, blind_stuck, fun _ => blind_stuck,
    blind_stuck, blind_stuck, blind_stuck⟩

theorem blindGrammar (n : Nat) : BlindGrammar (grammar n) := by
  induction n with
  | zero => exact .stuck
  | succ n ih => exact ih.unfold

theorem blind_typeParams : Blind (List.map Ident.erase) typeParams typeParams := by
  have hname := blind_nameOf .typeVar "a type parameter"
  refine (blind_nextIs _).bind fun _ => .ite (blind_name.bind fun _ => .pure rfl) ?_
  refine blind_get.bind fun ⟨rest, _, _, _, _⟩ => ?_
  rcases rest with _ | ⟨first, _ | ⟨second, rest⟩⟩ <;>
    exact .ite (blind_advance.bind fun _ => (blind_sepBy1 hname (blind_skipSymbol _)).bind
      fun _ => (blind_symbol _).bind fun _ => .pure rfl) (.pure rfl)

theorem blind_ctorDecl (hg : BlindGrammar g) : Blind CtorDecl.erase (ctorDecl g) (ctorDecl g) := by
  have hctor : ∀ name args, Blind CtorDecl.erase
      (do return ⟨name, args, name.range.merge (← previousRange)⟩)
      (do return ⟨name.erase, args.map TypeExpr.erase, name.erase.range.merge (← previousRange)⟩) :=
    fun name args => blind_previousRange.bind fun _ =>
      .pure (by simp [CtorDecl.erase, Ident.erase])
  refine (blind_nameOf _ _).bind fun name => (blind_skipKeyword _).bind fun _ => .ite ?_ ?_
  · exact (blind_sepBy1 (blind_typeApp hg) (blind_skipSymbol _)).bind (hctor name)
  · exact Blind.bind (v := List.map TypeExpr.erase) (.pure rfl) (hctor name)

theorem blind_typeDecl (hg : BlindGrammar g) : Blind TypeDecl.erase (typeDecl g) (typeDecl g) := by
  refine blind_peek.bind fun first => blind_typeParams.bind fun params =>
    (blind_nameOf _ _).bind fun name => (blind_symbol _).bind fun _ =>
      (blind_nextIsSymbol _).bind fun bar => (blind_nextIs _).bind fun _ => .ite ?_ ?_
  · exact (blind_skipSymbol _).bind fun _ =>
      (blind_sepBy1 (blind_ctorDecl hg) (blind_skipSymbol _)).bind fun ctors =>
        blind_previousRange.bind fun _ => .pure (by simp [TypeDecl.erase, Token.erase])
  · exact (blind_type hg).bind fun body => .pure (by simp [TypeDecl.erase, Token.erase])

theorem blind_typeGroup (hg : BlindGrammar g) :
    Blind (List.map TypeDecl.erase) (typeGroup g) (typeGroup g) :=
  (blind_sepBy1 (blind_typeDecl hg) (blind_skipKeyword _)).bind fun _ =>
    (blind_keyword _).bind fun _ => .pure rfl

theorem blind_program (hg : BlindGrammar g) : Blind Program.erase (program g) (program g) := by
  refine (blind_loop (v := List.map (List.map TypeDecl.erase)) (fun groups => ?_) []).bind
    fun groups => (blind_expr hg).bind fun body => .pure (by simp [Program.erase])
  exact (blind_skipKeyword _).bind fun _ =>
    .ite ((blind_typeGroup hg).bind fun _ => .pure rfl) (.pure rfl)

theorem blind_wholeProgram (hg : BlindGrammar g) :
    Blind Program.erase (wholeProgram g) (wholeProgram g) :=
  (blind_program hg).bind fun _ => (blind_nextIs _).bind fun _ => .ite (.pure rfl) (blind_failHere _)

end FieldML.Parser

namespace FieldML

theorem Cursor.ofTokens_erase (tokens : List Token) :
    Cursor.ofTokens (tokens.map Token.erase) = (Cursor.ofTokens tokens).erase := by
  have hrest : (tokens.map Token.erase).takeWhile (fun t => t.kind ≠ .eof) =
      (tokens.takeWhile fun t => t.kind ≠ .eof).map Token.erase := by
    rw [List.takeWhile_map]
    rfl
  have hstop : (Cursor.ofTokens (tokens.map Token.erase)).stop = .erased := by
    unfold Cursor.ofTokens
    dsimp only
    rw [List.find?_map, List.getLast?_map]
    cases tokens.find? ((fun t => decide (t.kind = .eof)) ∘ Token.erase) <;>
      cases tokens.getLast? <;> rfl
  have hprevious : (Cursor.ofTokens (tokens.map Token.erase)).previous = .erased := hstop
  change Cursor.mk _ _ _ 0 0 = Cursor.mk _ _ _ 0 0
  exact Cursor.mk.injEq .. ▸ ⟨hrest, hstop, hprevious, rfl, rfl⟩

/-- Tokens without their ranges are the program without its ranges, or refused for the same cause. -/
theorem Program.ofTokens_erase (tokens : List Token) :
    Program.ofTokens (tokens.map Token.erase) =
      ((Program.ofTokens tokens).map Program.erase).mapError ParseError.erase := by
  unfold Program.ofTokens
  have hblind := Parser.blind_wholeProgram
    (Parser.blindGrammar ((Cursor.ofTokens tokens).rest.length + 1)) (Cursor.ofTokens tokens)
  have hlength : (Cursor.ofTokens tokens).erase.rest.length = (Cursor.ofTokens tokens).rest.length :=
    List.length_map ..
  rw [Cursor.ofTokens_erase]
  dsimp only
  rw [hlength]
  rcases hrun : Parser.wholeProgram (Parser.grammar ((Cursor.ofTokens tokens).rest.length + 1))
    (Cursor.ofTokens tokens) with e | ⟨p, s⟩
  · rw [hrun] at hblind
    rw [hblind]
    rfl
  · rw [hrun] at hblind
    rw [hblind]
    change (if Parser.maxNesting < p.erase.nestingDepth then _ else _) =
      Except.mapError _ (Except.map _ (if Parser.maxNesting < p.nestingDepth then _ else _))
    rw [Program.nestingDepth_eq_depth, Program.nestingDepth_eq_depth, Program.depth_erase]
    split
    · exact congrArg (fun r => (Except.error ⟨.deeperThan Parser.maxNesting, r⟩ :
        Except ParseError Program)) p.body.range_erase
    · rfl

end FieldML
