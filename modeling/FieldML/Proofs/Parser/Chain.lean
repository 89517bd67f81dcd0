import FieldML.Parser.Program
import FieldML.Proofs.Parser.Expr
import FieldML.Proofs.Reading.Parser

/-!
# Grouping of operator chains

Operands with operators between them are read as a tree in which the operators bind as the table
says. A chain takes all operators that bind at least as tightly as it asks for, and stops before the
first one that does not.
-/

open FieldML.Parser

namespace FieldML

/-- How the operands of a chain are grouped. The tokens of the operators are kept. -/
inductive Grouping where
  | operand (token : Token)
  | operation (op : Operator) (token : Token) (written : Operator.ofToken? token = some op)
      (left right : Grouping)

namespace Grouping

/-- The tokens from left to right. -/
def tokens : Grouping → List Token
  | operand t => [t]
  | operation _ t _ left right => left.tokens ++ t :: right.tokens

/-- The operator at the root. -/
def root? : Grouping → Option Operator
  | operand _ => none
  | operation op _ _ _ _ => some op

/-- At every operator those at the roots of its operands bind more tightly, or as tightly on the side
to which the operators of this precedence group. -/
def Respects : Grouping → Prop
  | operand _ => True
  | operation op _ _ left right =>
      (∀ q ∈ left.root?, op.precedence < q.precedence ∨
        q.precedence = op.precedence ∧ op.groupsRight = false) ∧
      (∀ q ∈ right.root?, op.precedence < q.precedence ∨
        q.precedence = op.precedence ∧ op.groupsRight = true) ∧
      left.Respects ∧ right.Respects

/-- The expression that the grouping stands for. The logical operators are conditionals, every other
one applies the function of its name to the one operand and the result to the other. -/
def expr : Grouping → Expr
  | operand t =>
      if t.kind = .number then
        .literal (.int (Int64.ofNat (Text.natOfDigits t.text.toList))) t.range
      else .var ⟨t.text, t.range⟩
  | operation op t _ left right =>
      let range := left.expr.range.merge right.expr.range
      if op.text = "&&" then .ifElse left.expr right.expr (.literal (.bool false) t.range) range
      else if op.text = "||" then
        .ifElse left.expr (.literal (.bool true) t.range) right.expr range
      else .apply (.apply (.var ⟨op.text, t.range⟩) left.expr range) right.expr range

end Grouping

/-- An operator with the token it is written as, and the operand after it. -/
structure Operation where
  op : Operator
  token : Token
  operand : Token

/-- The tokens of an operation. -/
def Operation.tokens (o : Operation) : List Token := [o.token, o.operand]

/-- The tokens of an operand and the operations on it. -/
def chainTokens (first : Token) (ops : List Operation) : List Token :=
  first :: ops.flatMap Operation.tokens

/-- The token is a name, which is not the wildcard, or a numeral in the range of integers. -/
def Token.IsOperand (t : Token) : Prop :=
  t.kind = .ident ∧ t.text ≠ "_" ∨
    t.kind = .number ∧ t.text.toList ≠ [] ∧ (∀ d ∈ t.text.toList, d.isDigit = true) ∧
      (Text.natOfDigits t.text.toList : Int) ≤ Int64.maxValue.toInt

/-- The token is that of the operator, and an operand follows. -/
structure Operation.WellFormed (o : Operation) : Prop where
  written : Operator.ofToken? o.token = some o.op
  isOperand : o.operand.IsOperand

theorem Text.int64OfDecimal?_of_digits {text : String} (hne : text.toList ≠ [])
    (hall : ∀ d ∈ text.toList, d.isDigit = true)
    (hrange : (natOfDigits text.toList : Int) ≤ Int64.maxValue.toInt) :
    int64OfDecimal? text = some (Int64.ofNat (natOfDigits text.toList)) := by
  have hnat : natOfDecimal? text.toList = some (natOfDigits text.toList) :=
    if_pos ⟨hne, List.all_eq_true.2 hall⟩
  rw [int64OfDecimal?, intOfDecimal?_of_digits hall, hnat, Option.map_some, Option.bind_some,
    int64OfInt?, if_pos]
  · rfl
  · refine ⟨?_, hrange⟩
    rw [Int64.toInt_minValue]
    omega

namespace Operator

theorem mem_table_of_ofToken? {t : Token} {op : Operator} (h : ofToken? t = some op) :
    op ∈ table := by
  unfold ofToken? at h
  split at h
  · exact List.mem_of_find?_eq_some h
  · split at h
    · exact List.mem_of_find?_eq_some h
    · cases h
  · cases h

/-- Operators of one precedence group to the same side. -/
theorem groupsRight_eq {p q : Operator} (hp : p ∈ table) (hq : q ∈ table)
    (h : p.precedence = q.precedence) : p.groupsRight = q.groupsRight := by
  have hall : ∀ p ∈ table, ∀ q ∈ table, p.precedence = q.precedence →
      p.groupsRight = q.groupsRight := by
    decide
  exact hall p hp q hq h

end Operator

namespace Parser

variable {α β : Type} {p : Parser α} {f : α → Parser β} {s : Cursor} {g : Grammar}
  {Q Q' : α → List Token → Prop} {R : β → List Token → Prop} {t : Token} {rest : List Token}

/-- If the parser succeeds, `Q` holds of its outcome and the tokens that are left; if it fails, that
is because of nested forms. -/
def Leaves (p : Parser α) (s : Cursor) (Q : α → List Token → Prop) : Prop :=
  match p s with
  | .ok (a, s') => Q a s'.rest
  | .error e => e.IsLimit

theorem Leaves.bind (hp : Leaves p s Q) (hf : ∀ a s', Q a s'.rest → Leaves (f a) s' R) :
    Leaves (p >>= f) s R := by
  unfold Leaves at hp ⊢
  rw [bind_apply]
  rcases hrun : p s with e | ⟨a, s'⟩
  · rwa [hrun] at hp
  · rw [hrun] at hp
    exact hf a s' hp

theorem Leaves.mono (hp : Leaves p s Q) (h : ∀ a ts, Q a ts → Q' a ts) : Leaves p s Q' := by
  unfold Leaves at hp ⊢
  rcases hrun : p s with e | ⟨a, s'⟩
  · rwa [hrun] at hp
  · rw [hrun] at hp
    exact h a _ hp

theorem Leaves.pure {a : α} (h : Q a s.rest) : Leaves (Pure.pure a) s Q := h

theorem Leaves.closing (hp : Leaves p s Q) : Leaves (closing p) s Q := by
  unfold Leaves at hp ⊢
  rw [closing_apply]
  rcases hrun : p s with e | ⟨a, s'⟩
  · rwa [hrun] at hp
  · rwa [hrun] at hp

theorem leaves_descend : Leaves descend s fun _ ts => ts = s.rest := by
  unfold Leaves
  rw [descend_apply]
  split_ifs
  · exact Or.inl ⟨s.found, rfl⟩
  · rfl

theorem Leaves.nested (hp : ∀ s', s'.rest = s.rest → Leaves p s' Q) : Leaves (nested p) s Q :=
  (leaves_descend.bind fun _ s' hs' => hp s' hs').closing

theorem peek_of_rest (hs : s.rest = t :: rest) : s.peek = t := by
  rw [Cursor.peek, hs]
  rfl

theorem leaves_advance (hs : s.rest = t :: rest) :
    Leaves advance s fun u ts => u = t ∧ ts = rest := by
  refine ⟨peek_of_rest hs, ?_⟩
  rw [Cursor.advance, hs]

theorem leaves_name (hs : s.rest = t :: rest) :
    Leaves name s fun x ts => x = ⟨t.text, t.range⟩ ∧ ts = rest := by
  refine (leaves_advance hs).bind ?_
  rintro _ s₁ ⟨rfl, hs₁⟩
  exact .pure ⟨rfl, hs₁⟩

theorem leaves_peek_bind {f : Token → Parser β} (hf : Leaves (f s.peek) s R) :
    Leaves (peek >>= f) s R := hf

theorem leaves_nextIs_bind {kind : TokenKind} {f : Bool → Parser β}
    (hf : Leaves (f (decide (s.peek.kind = kind))) s R) : Leaves (nextIs kind >>= f) s R := hf

theorem leaves_nextIsSymbol_bind {text : String} {f : Bool → Parser β}
    (hf : Leaves (f (s.peek.isWord .symbol text)) s R) :
    Leaves (nextIsSymbol text >>= f) s R := hf

theorem leaves_nextIsKeyword_bind {text : String} {f : Bool → Parser β}
    (hf : Leaves (f (s.peek.isWord .keyword text)) s R) :
    Leaves (nextIsKeyword text >>= f) s R := hf

theorem leaves_skipSymbol_not {text : String} (h : s.peek.isWord .symbol text = false) :
    Leaves (skipSymbol text) s fun b ts => b = false ∧ ts = s.rest := by
  unfold Leaves
  rw [skipSymbol_of_not h]
  exact ⟨rfl, rfl⟩

/-- A loop ends where no step is taken. -/
theorem leaves_steps_done {step : α → Parser (Option α)} {n : Nat} {a : α}
    (hstep : Leaves (step a) s fun o ts => o = none ∧ ts = s.rest) :
    Leaves (steps step n a) s fun b ts => b = a ∧ ts = s.rest := by
  cases n with
  | zero => exact Or.inr rfl
  | succ n =>
      refine hstep.bind ?_
      rintro _ s' ⟨rfl, hs'⟩
      exact .pure ⟨rfl, hs'⟩

theorem leaves_loop_done {step : α → Parser (Option α)} {a : α}
    (hstep : Leaves (step a) s fun o ts => o = none ∧ ts = s.rest) :
    Leaves (loop step a) s fun b ts => b = a ∧ ts = s.rest :=
  leaves_steps_done (n := s.rest.length + 1) hstep

/-! ### Operands -/

/-- What comes next goes on with no operand. -/
def EndsOperand (rest : List Token) : Prop :=
  ∀ t ∈ rest.head?, startsAtom t = false ∧ t.isWord .symbol "." = false

theorem EndsOperand.peek (h : EndsOperand s.rest) :
    startsAtom s.peek = false ∧ s.peek.isWord .symbol "." = false := by
  cases hrest : s.rest with
  | nil =>
      rw [Cursor.peek, hrest]
      exact ⟨rfl, rfl⟩
  | cons t rest =>
      rw [peek_of_rest hrest]
      exact h t (by rw [hrest]; rfl)

theorem leaves_integer (hdigits : t.text.toList ≠ [])
    (hall : ∀ d ∈ t.text.toList, d.isDigit = true)
    (hrange : (Text.natOfDigits t.text.toList : Int) ≤ Int64.maxValue.toInt) (range : Range) :
    Leaves (integer t.text range) s fun i ts =>
      i = Int64.ofNat (Text.natOfDigits t.text.toList) ∧ ts = s.rest := by
  rw [integer, Text.int64OfDecimal?_of_digits hdigits hall hrange]
  exact ⟨rfl, rfl⟩

theorem leaves_atom (ht : t.IsOperand) (hs : s.rest = t :: rest) :
    Leaves (atom g) s fun e ts => e = (Grouping.operand t).expr ∧ ts = rest := by
  refine leaves_peek_bind ?_
  rw [peek_of_rest hs]
  obtain ⟨hkind, htext⟩ | ⟨hkind, hdigits, hall, hrange⟩ := ht
  · rw [hkind]
    dsimp only
    rw [if_neg htext]
    refine (leaves_name hs).bind ?_
    rintro _ s₁ ⟨rfl, hs₁⟩
    refine .pure ⟨?_, hs₁⟩
    simp [Grouping.expr, hkind]
  · rw [hkind]
    dsimp only
    refine (leaves_advance hs).bind ?_
    rintro _ s₁ ⟨rfl, hs₁⟩
    refine (leaves_integer hdigits hall hrange _).bind ?_
    rintro _ s₂ ⟨rfl, hs₂⟩
    refine .pure ⟨?_, hs₂.trans hs₁⟩
    simp [Grouping.expr, hkind]

theorem leaves_access (ht : t.IsOperand) (hs : s.rest = t :: rest) (hrest : EndsOperand rest) :
    Leaves (access g) s fun e ts => e = (Grouping.operand t).expr ∧ ts = rest := by
  refine ((leaves_atom ht hs).bind ?_).closing
  rintro _ s₁ ⟨rfl, rfl⟩
  refine leaves_loop_done ?_
  refine Leaves.bind (leaves_skipSymbol_not hrest.peek.2) ?_
  rintro _ s₂ ⟨rfl, hs₂⟩
  exact .pure ⟨rfl, hs₂⟩

theorem leaves_unary (ht : t.IsOperand) (hs : s.rest = t :: rest) (hrest : EndsOperand rest) :
    Leaves (unary g) s fun e ts => e = (Grouping.operand t).expr ∧ ts = rest := by
  have hpeek := peek_of_rest hs
  have hkind : t.kind = .ident ∨ t.kind = .number := ht.imp And.left And.left
  have hword (k : TokenKind) (text : String) (h₁ : k ≠ .ident) (h₂ : k ≠ .number) :
      s.peek.isWord k text = false := by
    rw [hpeek]
    obtain hkind | hkind := hkind <;> simp [Token.isWord, hkind, h₁.symm, h₂.symm]
  refine leaves_nextIsSymbol_bind ?_
  rw [hword _ _ (by decide) (by decide)]
  refine leaves_nextIsKeyword_bind ?_
  rw [hword _ _ (by decide) (by decide)]
  refine leaves_nextIs_bind ?_
  have hctor : decide (s.peek.kind = .constructor) = false := by
    rw [hpeek]
    obtain hkind | hkind := hkind <;> rw [hkind] <;> rfl
  rw [hctor]
  refine ((leaves_access ht hs hrest).bind ?_).closing
  rintro _ s₁ ⟨rfl, rfl⟩
  refine leaves_loop_done (leaves_peek_bind ?_)
  rw [hrest.peek.1]
  exact .pure ⟨rfl, rfl⟩

/-! ### Chains -/

theorem endsOperand_of_operator {op : Operator} (h : Operator.ofToken? t = some op) :
    EndsOperand (t :: rest) := by
  rintro _ ⟨rfl⟩
  unfold Operator.ofToken? at h
  split at h
  · next hkind =>
      have hall : ∀ op ∈ Operator.table, op.text ≠ "(" ∧ op.text ≠ "[" ∧ op.text ≠ "\x7b" ∧
          op.text ≠ "!" ∧ op.text ≠ "." := by decide
      have htext := List.find?_some h
      rw [decide_eq_true_eq] at htext
      have hop := hall op (List.mem_of_find?_eq_some h)
      rw [htext] at hop
      simp [startsAtom, Token.isWord, hkind, hop]
  · next hkind =>
      split at h
      · next htext => simp [startsAtom, Token.isWord, hkind, htext]
      · cases h
  · cases h

/-- One step of a chain: another operator that binds at least as tightly as `least`, with its right
operand. -/
def chainStep (g : Grammar) (least : Nat) (left : Expr) : Parser (Option Expr) := do
  match Operator.ofToken? (← peek) with
  | none => return none
  | some op =>
      if op.precedence < least then return none
      else
        descend
        let place := (← advance).range
        let right ← g.chain op.rightPrecedence
        return some (Operator.apply op.text place left right)

theorem chain_eq (g : Grammar) (least : Nat) :
    chain g least = closing (do loop (chainStep g least) (← unary g)) := rfl

variable {least : Nat} {first : Token} {ops used left : List Operation} {tree : Grouping}

theorem endsOperand_operations (hops : ∀ o ∈ ops, o.WellFormed) :
    EndsOperand (ops.flatMap Operation.tokens) := by
  cases ops with
  | nil => simp [EndsOperand]
  | cons o ops => exact endsOperand_of_operator (hops o (.head _)).written

/-- The tree is one for the operand and these operations, the operators in it stand where they may,
and the one at its root binds at least as tightly as `least`. -/
structure Groups (tree : Grouping) (least : Nat) (first : Token) (used : List Operation) :
    Prop where
  tokens_eq : tree.tokens = chainTokens first used
  respects : tree.Respects
  root : ∀ q ∈ tree.root?, q ∈ Operator.table ∧ least ≤ q.precedence

/-- The first operations went into the expression, and the first one of those that are left binds
less tightly than `least`. -/
def Chained (least : Nat) (first : Token) (ops : List Operation) (e : Expr) (ts : List Token) :
    Prop :=
  ∃ tree used left, ops = used ++ left ∧ e = tree.expr ∧ Groups tree least first used ∧
    ts = left.flatMap Operation.tokens ∧ ∀ o ∈ left.head?, o.op.precedence < least

/-- A tree with one more operator at its root. The operator binds less tightly than the root of the
tree would allow in its right operand, which is why it did not become a part of that. -/
theorem Groups.operation {o : Operation} {right : Grouping} {used' : List Operation}
    (hleft : Groups tree least first used) (ho : Operator.ofToken? o.token = some o.op)
    (hleast : least ≤ o.op.precedence)
    (hnext : ∀ q ∈ tree.root?, o.op.precedence < q.rightPrecedence)
    (hright : Groups right o.op.rightPrecedence o.operand used') :
    Groups (.operation o.op o.token ho tree right) least first (used ++ o :: used') where
  tokens_eq := by
    simp [Grouping.tokens, hleft.tokens_eq, hright.tokens_eq, chainTokens, Operation.tokens]
  respects := by
    have htable := Operator.mem_table_of_ofToken? ho
    refine ⟨fun q hq => ?_, fun q hq => ?_, hleft.respects, hright.respects⟩
    · have hlt := hnext q hq
      have hsame := Operator.groupsRight_eq (hleft.root q hq).1 htable
      unfold Operator.rightPrecedence at hlt
      split at hlt
      · exact Or.inl hlt
      · next hq' =>
          rcases Nat.lt_or_eq_of_le (Nat.le_of_lt_succ hlt) with hlt | heq
          · exact Or.inl hlt
          · exact Or.inr ⟨heq.symm, by rw [← hsame heq.symm, Bool.eq_false_of_not_eq_true hq']⟩
    · have hle := (hright.root q hq).2
      unfold Operator.rightPrecedence at hle
      split at hle
      · next ho' => exact (Nat.lt_or_eq_of_le hle).imp_right fun heq => ⟨heq.symm, ho'⟩
      · exact Or.inl hle
  root := by
    rintro _ ⟨rfl⟩
    exact ⟨Operator.mem_table_of_ofToken? ho, hleast⟩

/-- What the loop of a chain has before each step: a tree in whose right operand the next operator
has no place. -/
structure ChainState (least : Nat) (first : Token) (ops : List Operation) (tree : Grouping)
    (used left : List Operation) : Prop where
  split : ops = used ++ left
  groups : Groups tree least first used
  next : ∀ o ∈ left.head?, ∀ q ∈ tree.root?, o.op.precedence < q.rightPrecedence

/-- The chains inside a chain are read as they should. -/
def ReadsChains (g : Grammar) : Prop :=
  ∀ least first ops (s : Cursor), first.IsOperand → (∀ o ∈ ops, o.WellFormed) →
    s.rest = chainTokens first ops → Leaves (g.chain least) s (Chained least first ops)

theorem leaves_chainStep_stop (hs : s.rest = left.flatMap Operation.tokens)
    (hleft : ∀ o ∈ left, o.WellFormed) (hstop : ∀ o ∈ left.head?, o.op.precedence < least) (e : Expr) :
    Leaves (chainStep g least e) s fun o ts => o = none ∧ ts = s.rest := by
  refine leaves_peek_bind ?_
  cases left with
  | nil =>
      have hpeek : Operator.ofToken? s.peek = none := by
        rw [Cursor.peek, hs]
        rfl
      rw [hpeek]
      exact .pure ⟨rfl, rfl⟩
  | cons o left =>
      rw [peek_of_rest hs, (hleft o (.head _)).written]
      dsimp only
      rw [if_pos (hstop o rfl)]
      exact .pure ⟨rfl, rfl⟩

theorem leaves_chainStep_go {o : Operation} (hg : ReadsChains g)
    (hs : s.rest = (o :: left).flatMap Operation.tokens) (ho : o.WellFormed)
    (hleft : ∀ o ∈ left, o.WellFormed) (hleast : least ≤ o.op.precedence) :
    Leaves (chainStep g least tree.expr) s fun r ts => ∃ right used' left', left = used' ++ left' ∧
      r = some (Grouping.operation o.op o.token ho.written tree right).expr ∧
      Groups right o.op.rightPrecedence o.operand used' ∧ ts = left'.flatMap Operation.tokens ∧
      ∀ o' ∈ left'.head?, o'.op.precedence < o.op.rightPrecedence := by
  refine leaves_peek_bind ?_
  rw [peek_of_rest hs, ho.written]
  dsimp only
  rw [if_neg (Nat.not_lt.2 hleast)]
  refine leaves_descend.bind fun _ s₁ hs₁ => ?_
  refine (leaves_advance (hs₁.trans hs)).bind ?_
  rintro _ s₂ ⟨rfl, hs₂⟩
  refine (hg _ o.operand left s₂ ho.isOperand hleft hs₂).bind ?_
  rintro _ s₃ ⟨right, used', left', hsplit, rfl, hgroups, hs₃, hnext⟩
  exact .pure ⟨right, used', left', hsplit, rfl, hgroups, hs₃, hnext⟩

theorem leaves_chain_steps (hg : ReadsChains g) (hops : ∀ o ∈ ops, o.WellFormed) (n : Nat)
    (hstate : ChainState least first ops tree used left)
    (hs : s.rest = left.flatMap Operation.tokens) :
    Leaves (steps (chainStep g least) n tree.expr) s (Chained least first ops) := by
  induction n generalizing s tree used left with
  | zero => exact Or.inr rfl
  | succ n ih =>
      have hleft : ∀ o ∈ left, o.WellFormed := fun o ho =>
        hops o (hstate.split ▸ List.mem_append_right _ ho)
      by_cases hstop : ∀ o ∈ left.head?, o.op.precedence < least
      · refine (leaves_steps_done (leaves_chainStep_stop hs hleft hstop _)).mono ?_
        rintro _ _ ⟨rfl, rfl⟩
        exact ⟨tree, used, left, hstate.split, rfl, hstate.groups, hs, hstop⟩
      · push Not at hstop
        obtain ⟨o, ho, hleast⟩ := hstop
        cases left with
        | nil => cases ho
        | cons o' left =>
          obtain rfl : o' = o := Option.some.inj ho
          obtain ⟨hwf, hleft⟩ := List.forall_mem_cons.1 hleft
          refine (leaves_chainStep_go hg hs hwf hleft hleast).bind ?_
          rintro _ s₁ ⟨right, used', left', rfl, rfl, hright, hs₁, hnext⟩
          have hmore : ChainState least first ops
              (.operation o'.op o'.token hwf.written tree right) (used ++ o' :: used') left' := by
            refine ⟨?_, hstate.groups.operation hwf.written hleast (hstate.next o' rfl) hright, ?_⟩
            · rw [hstate.split, List.append_assoc, List.cons_append]
            · rintro o ho _ ⟨rfl⟩
              exact hnext o ho
          exact ih hmore hs₁

theorem leaves_chain (hg : ReadsChains g) (hfirst : first.IsOperand)
    (hops : ∀ o ∈ ops, o.WellFormed) (hs : s.rest = chainTokens first ops) :
    Leaves (chain g least) s (Chained least first ops) := by
  rw [chain_eq]
  refine ((leaves_unary hfirst hs (endsOperand_operations hops)).bind ?_).closing
  rintro _ s₁ ⟨rfl, hs₁⟩
  have hstate : ChainState least first ops (.operand first) [] ops :=
    ⟨rfl, ⟨rfl, trivial, by rintro _ ⟨⟩⟩, by rintro _ _ _ ⟨⟩⟩
  exact leaves_chain_steps hg hops _ hstate hs₁

theorem readsChains_grammar (n : Nat) : ReadsChains (grammar n) := by
  induction n with
  | zero => exact fun _ _ _ _ _ _ _ => Or.inr rfl
  | succ n ih =>
      intro least first ops s hfirst hops hs
      exact leaves_chain ih hfirst hops hs

/-! ### Programs that are one chain -/

/-- The expression is that of a tree for the operand and all the operations, and the operators in it
stand where they may. -/
def IsChain (first : Token) (ops : List Operation) (e : Expr) : Prop :=
  ∃ tree : Grouping, tree.tokens = chainTokens first ops ∧ tree.Respects ∧ tree.expr = e

theorem isWord_operand_keyword (ht : t.IsOperand) (text : String) :
    t.isWord .keyword text = false := by
  obtain ⟨hkind, -⟩ | ⟨hkind, -⟩ := ht <;> simp [Token.isWord, hkind]

theorem Chained.isChain {e : Expr} {ts : List Token} (h : Chained 0 first ops e ts) :
    IsChain first ops e ∧ ts = [] := by
  obtain ⟨tree, used, left, rfl, rfl, hgroups, rfl, hnext⟩ := h
  obtain rfl : left = [] :=
    List.head?_eq_none_iff.1 (Option.eq_none_iff_forall_not_mem.2 fun o ho =>
      Nat.not_lt_zero _ (hnext o ho))
  exact ⟨⟨tree, by simpa using hgroups.tokens_eq, hgroups.respects, rfl⟩, rfl⟩

theorem isWord_peek_of_nil {k : TokenKind} {text : String} (hs : s.rest = []) (hk : k ≠ .eof) :
    s.peek.isWord k text = false := by
  simp [Cursor.peek, hs, Token.isWord, hk.symm]

theorem leaves_assignment (hg : ReadsChains g) (hfirst : first.IsOperand)
    (hops : ∀ o ∈ ops, o.WellFormed) (hs : s.rest = chainTokens first ops) :
    Leaves (assignment g) s fun e ts => IsChain first ops e ∧ ts = [] := by
  refine (leaves_chain hg hfirst hops hs).bind fun e s₁ h => ?_
  obtain ⟨hchain, hs₁⟩ := h.isChain
  refine (leaves_skipSymbol_not (isWord_peek_of_nil hs₁ (by decide))).bind ?_
  rintro _ s₂ ⟨rfl, hs₂⟩
  exact .pure ⟨hchain, hs₂.trans hs₁⟩

theorem leaves_statement (hg : ReadsChains g) (hfirst : first.IsOperand)
    (hops : ∀ o ∈ ops, o.WellFormed) (hs : s.rest = chainTokens first ops) :
    Leaves (statement g) s fun e ts => IsChain first ops e ∧ ts = [] := by
  refine Leaves.nested fun s₁ hs₁ => ?_
  have hword (text : String) : s₁.peek.isWord .keyword text = false := by
    rw [peek_of_rest (hs₁.trans hs)]
    exact isWord_operand_keyword hfirst text
  refine leaves_nextIsKeyword_bind ?_
  rw [hword]
  refine leaves_nextIsKeyword_bind ?_
  rw [hword]
  refine leaves_nextIsKeyword_bind ?_
  rw [hword]
  refine leaves_nextIsKeyword_bind ?_
  rw [hword]
  exact leaves_assignment hg hfirst hops (hs₁.trans hs)

theorem leaves_expr (hg : ReadsChains g) (hfirst : first.IsOperand)
    (hops : ∀ o ∈ ops, o.WellFormed) (hs : s.rest = chainTokens first ops) :
    Leaves (expr g) s fun e ts => IsChain first ops e ∧ ts = [] := by
  refine (leaves_statement hg hfirst hops hs).bind ?_
  rintro e s₁ ⟨hchain, hs₁⟩
  refine (leaves_loop_done ?_).bind ?_
  · refine (leaves_skipSymbol_not (isWord_peek_of_nil hs₁ (by decide))).bind ?_
    rintro _ s₂ ⟨rfl, hs₂⟩
    exact .pure ⟨rfl, hs₂⟩
  · rintro _ s₂ ⟨rfl, hs₂⟩
    exact .pure ⟨hchain, hs₂.trans hs₁⟩

theorem leaves_wholeProgram (hg : ReadsChains g) (hfirst : first.IsOperand)
    (hops : ∀ o ∈ ops, o.WellFormed) (hs : s.rest = chainTokens first ops) :
    Leaves (wholeProgram g) s fun p _ => p.groups = [] ∧ IsChain first ops p.body := by
  have hword : s.peek.isWord .keyword "type" = false := by
    rw [peek_of_rest hs]
    exact isWord_operand_keyword hfirst _
  have hprogram : Leaves (program g) s fun p ts =>
      (p.groups = [] ∧ IsChain first ops p.body) ∧ ts = [] := by
    refine (leaves_loop_done ?_).bind ?_
    · refine Leaves.bind (Q := fun b ts => b = false ∧ ts = s.rest) ?_ ?_
      · unfold Leaves
        rw [skipKeyword_of_not hword]
        exact ⟨rfl, rfl⟩
      · rintro _ s₂ ⟨rfl, hs₂⟩
        exact .pure ⟨rfl, hs₂⟩
    · rintro _ s₂ ⟨rfl, hs₂⟩
      refine (leaves_expr hg hfirst hops (hs₂.trans hs)).bind ?_
      rintro e s₃ ⟨hchain, hs₃⟩
      exact .pure ⟨⟨rfl, hchain⟩, hs₃⟩
  refine hprogram.bind ?_
  rintro p s₁ ⟨hp, hs₁⟩
  refine leaves_nextIs_bind ?_
  have heof : decide (s₁.peek.kind = .eof) = true := by
    rw [Cursor.peek, hs₁]
    rfl
  rw [heof]
  exact .pure hp

end Parser

theorem kind_ne_eof_of_mem_chainTokens {first : Token} {ops : List Operation}
    (hfirst : first.IsOperand) (hops : ∀ o ∈ ops, o.WellFormed) {t : Token}
    (ht : t ∈ chainTokens first ops) : t.kind ≠ .eof := by
  have hoperand {t : Token} (h : t.IsOperand) : t.kind ≠ .eof := by
    obtain ⟨hkind, -⟩ | ⟨hkind, -⟩ := h <;> simp [hkind]
  rw [chainTokens, List.mem_cons, List.mem_flatMap] at ht
  obtain rfl | ⟨o, ho, ht⟩ := ht
  · exact hoperand hfirst
  · rw [Operation.tokens, List.mem_cons, List.mem_singleton] at ht
    obtain rfl | rfl := ht
    · exact kind_ne_eof_of_operator (hops o ho).written
    · exact hoperand (hops o ho).isOperand

theorem rest_ofTokens {tokens rest : List Token} (htokens : ∀ t ∈ tokens, t.kind ≠ .eof)
    (hrest : ∀ t ∈ rest.head?, t.kind = .eof) : (Cursor.ofTokens (tokens ++ rest)).rest = tokens := by
  have hstop : rest.takeWhile (fun t => decide (t.kind ≠ .eof)) = [] := by
    cases rest with
    | nil => rfl
    | cons t rest => rw [List.takeWhile_cons_of_neg (by simp [hrest t rfl])]
  unfold Cursor.ofTokens
  dsimp only
  rw [List.takeWhile_append_of_pos (by simpa using htokens), hstop, List.append_nil]

/-- Operands with operators between them are read as a tree that has them in this order and in which
each operator binds as the table says, unless the tree would be nested too deeply. -/
theorem Program.ofTokens_chain {first : Token} {ops : List Operation} {rest : List Token}
    (hfirst : first.IsOperand) (hops : ∀ o ∈ ops, o.WellFormed)
    (hrest : ∀ t ∈ rest.head?, t.kind = .eof) :
    match Program.ofTokens (chainTokens first ops ++ rest) with
    | .ok p => p.groups = [] ∧ ∃ tree : Grouping,
        tree.tokens = chainTokens first ops ∧ tree.Respects ∧ tree.expr = p.body
    | .error e => (∃ found, e.cause = .nestedTooDeeply found) ∨
        e.cause = .deeperThan maxNesting := by
  have hs := rest_ofTokens (fun t => kind_ne_eof_of_mem_chainTokens hfirst hops) hrest
  have hfuel {e : ParseError} := @Program.ofTokens_error_ne_outOfFuel
    (chainTokens first ops ++ rest) e
  set start := Cursor.ofTokens (chainTokens first ops ++ rest) with hstart
  have hread := leaves_wholeProgram (readsChains_grammar (start.rest.length + 1)) hfirst hops hs
  unfold Leaves at hread
  unfold Program.ofTokens at hfuel ⊢
  rw [← hstart] at hfuel ⊢
  simp only [bind, Except.bind] at hfuel ⊢
  cases hrun : wholeProgram (grammar (start.rest.length + 1)) start with
  | error e =>
      rw [hrun] at hread hfuel
      exact Or.inl (hread.resolve_right (hfuel rfl))
  | ok r =>
      rw [hrun] at hread
      dsimp only
      split_ifs
      · exact Or.inr rfl
      · exact hread

/-- The chain `a - 2 mod b && c`, which is read. -/
theorem Program.ofTokens_chain_mixed :
    let name (text : String) : Token := ⟨.ident, text, .erased⟩
    let ops : List Operation :=
      [⟨⟨"-", 6, false⟩, ⟨.symbol, "-", .erased⟩, ⟨.number, "2", .erased⟩⟩,
        ⟨⟨"mod", 7, false⟩, ⟨.keyword, "mod", .erased⟩, name "b"⟩,
        ⟨⟨"&&", 2, true⟩, ⟨.symbol, "&&", .erased⟩, name "c"⟩]
    (name "a").IsOperand ∧ (∀ o ∈ ops, o.WellFormed) ∧
      ∃ p, Program.ofTokens (chainTokens (name "a") ops) = .ok p ∧ ∃ tree : Grouping,
        tree.tokens = chainTokens (name "a") ops ∧ tree.Respects ∧ tree.expr = p.body := by
  intro name ops
  have hfirst : (name "a").IsOperand := Or.inl (by decide)
  have hnumber : Token.IsOperand ⟨.number, "2", .erased⟩ := by
    refine Or.inr ⟨rfl, by decide, List.all_eq_true.1 rfl, ?_⟩
    rw [Int64.toInt_maxValue]
    decide
  have hops : ∀ o ∈ ops, o.WellFormed := by
    simp only [ops, List.forall_mem_cons]
    exact ⟨⟨by decide, hnumber⟩, ⟨by decide, Or.inl (by decide)⟩,
      ⟨by decide, Or.inl (by decide)⟩, by simp⟩
  have hend : ∀ t ∈ ([] : List Token).head?, t.kind = .eof := by simp
  have hchain := Program.ofTokens_chain hfirst hops hend
  rw [List.append_nil] at hchain
  have hok : (Program.ofTokens (chainTokens (name "a") ops)).isOk = true := by decide +kernel
  refine ⟨hfirst, hops, ?_⟩
  cases hparse : Program.ofTokens (chainTokens (name "a") ops) with
  | error e => simp [hparse, Except.isOk, Except.toBool] at hok
  | ok p =>
      rw [hparse] at hchain
      exact ⟨p, rfl, hchain.2⟩

end FieldML
