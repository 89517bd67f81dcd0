import FieldML.Parser.Operator
import FieldML.Primitive
import FieldML.Proofs.Reading.Lexeme

/-!
# Names in written programs

Which names an expression binds, which ones it refers to, and which of these references are to
nothing inside it. Names that are spelled in a program text are neither operators nor names that the
parser makes up.
-/

namespace FieldML

/-! ### Bound names and references -/

mutual

/-- The names that the pattern binds. -/
def Pattern.binders : Pattern → List String
  | .wildcard _ | .literal _ _ | .nil _ | .construct _ none _ => []
  | .var name => [name.text]
  | .tuple items _ => bindersOfList items
  | .cons head tail _ => head.binders ++ tail.binders
  | .construct _ (some arg) _ => arg.binders
  | .alias pattern name _ => pattern.binders ++ [name.text]

/-- The names that some patterns bind. -/
def Pattern.bindersOfList : List Pattern → List String
  | [] => []
  | p :: ps => p.binders ++ bindersOfList ps

end

namespace Expr

mutual

/-- All expressions inside the expression. -/
def inner : Expr → List Expr
  | .literal _ _ | .var _ | .construct _ none _ => []
  | .lambda _ e _ | .field e _ _ | .construct _ (some e) _ | .ref e _ | .deref e _ | .annot e _ _ =>
      e :: e.inner
  | .apply a b _ | .letIn _ a b _ | .assign a b _ | .sequence a b _ =>
      a :: a.inner ++ b :: b.inner
  | .letRec bindings e _ => innerOfBindings bindings ++ e :: e.inner
  | .ifElse a b c _ => a :: a.inner ++ b :: b.inner ++ c :: c.inner
  | .list es _ | .tuple es _ => innerOfList es
  | .record fields _ => innerOfFields fields
  | .update e fields _ => e :: e.inner ++ innerOfFields fields
  | .caseOf e arms _ => e :: e.inner ++ innerOfArms arms

/-- Some expressions and all expressions inside them. -/
def innerOfList : List Expr → List Expr
  | [] => []
  | e :: es => e :: e.inner ++ innerOfList es

/-- The values of some fields and all expressions inside them. -/
def innerOfFields : List (Ident × Expr) → List Expr
  | [] => []
  | (_, e) :: fields => e :: e.inner ++ innerOfFields fields

/-- The values of a recursive group and all expressions inside them. -/
def innerOfBindings : List (RecBinding Expr) → List Expr
  | [] => []
  | ⟨_, e, _⟩ :: bindings => e :: e.inner ++ innerOfBindings bindings

/-- The bodies of some arms and all expressions inside them. -/
def innerOfArms : List (MatchArm Expr) → List Expr
  | [] => []
  | ⟨_, e, _⟩ :: arms => e :: e.inner ++ innerOfArms arms

end

/-- The expression and all expressions inside it. -/
def nodes (e : Expr) : List Expr := e :: e.inner

/-- The names that the outermost form of the expression binds. -/
def binds : Expr → List String
  | .lambda param _ _ => [param.text]
  | .letIn name _ _ _ => [name.text]
  | .letRec bindings _ _ => bindings.map fun b => b.name.text
  | .caseOf _ arms _ => arms.flatMap fun arm => arm.pattern.binders
  | _ => []

/-- The name that the expression is. -/
def refers : Expr → List String
  | .var name => [name.text]
  | _ => []

/-- The name that the expression matches on with one arm. -/
def matched? : Expr → Option Ident
  | .caseOf (.var name) [_] _ => some name
  | _ => none

/-- The parameter of the function that the expression is, if the body matches on it with one arm. -/
def unpacks : Expr → List String
  | .lambda param body _ =>
      if body.matched?.map Ident.text = some param.text then [param.text] else []
  | _ => []

/-- All names that are bound in the expression, each as often as it is. -/
def binders (e : Expr) : List String := e.nodes.flatMap binds

/-- All names that are referred to in the expression, each as often as it is. -/
def references (e : Expr) : List String := e.nodes.flatMap refers

mutual

/-- The references to nothing that is bound inside the expression. -/
def freeNames : Expr → List String
  | .literal _ _ | .construct _ none _ => []
  | .var name => [name.text]
  | .lambda param e _ => e.freeNames.filter (· ≠ param.text)
  | .field e _ _ | .construct _ (some e) _ | .ref e _ | .deref e _ | .annot e _ _ => e.freeNames
  | .apply a b _ | .assign a b _ | .sequence a b _ => a.freeNames ++ b.freeNames
  | .letIn name a b _ => a.freeNames ++ b.freeNames.filter (· ≠ name.text)
  | .letRec bindings e _ =>
      (freeNamesOfBindings bindings ++ e.freeNames).filter
        (· ∉ bindings.map fun b => b.name.text)
  | .ifElse a b c _ => a.freeNames ++ b.freeNames ++ c.freeNames
  | .list es _ | .tuple es _ => freeNamesOfList es
  | .record fields _ => freeNamesOfFields fields
  | .update e fields _ => e.freeNames ++ freeNamesOfFields fields
  | .caseOf e arms _ => e.freeNames ++ freeNamesOfArms arms

def freeNamesOfList : List Expr → List String
  | [] => []
  | e :: es => e.freeNames ++ freeNamesOfList es

def freeNamesOfFields : List (Ident × Expr) → List String
  | [] => []
  | (_, e) :: fields => e.freeNames ++ freeNamesOfFields fields

def freeNamesOfBindings : List (RecBinding Expr) → List String
  | [] => []
  | ⟨_, e, _⟩ :: bindings => e.freeNames ++ freeNamesOfBindings bindings

def freeNamesOfArms : List (MatchArm Expr) → List String
  | [] => []
  | ⟨p, e, _⟩ :: arms => e.freeNames.filter (· ∉ p.binders) ++ freeNamesOfArms arms

end

theorem innerOfList_eq (es : List Expr) : innerOfList es = es.flatMap nodes := by
  induction es with
  | nil => rfl
  | cons e es ih => rw [innerOfList, ih, List.flatMap_cons, nodes]

theorem innerOfFields_eq (fields : List (Ident × Expr)) :
    innerOfFields fields = fields.flatMap fun f => f.2.nodes := by
  induction fields with
  | nil => rfl
  | cons f fields ih => rw [innerOfFields, ih, List.flatMap_cons, nodes]

theorem innerOfBindings_eq (bindings : List (RecBinding Expr)) :
    innerOfBindings bindings = bindings.flatMap fun b => b.value.nodes := by
  induction bindings with
  | nil => rfl
  | cons b bindings ih => rw [innerOfBindings, ih, List.flatMap_cons, nodes]

theorem innerOfArms_eq (arms : List (MatchArm Expr)) :
    innerOfArms arms = arms.flatMap fun arm => arm.body.nodes := by
  induction arms with
  | nil => rfl
  | cons arm arms ih => rw [innerOfArms, ih, List.flatMap_cons, nodes]

theorem mem_binds_of_mem_unpacks {e : Expr} {x : String} (h : x ∈ e.unpacks) : x ∈ e.binds := by
  unfold unpacks at h
  split at h
  · split at h
    · exact h
    · cases h
  · cases h

theorem exists_of_mem_unpacks {e : Expr} {x : String} (h : x ∈ e.unpacks) :
    ∃ param name arm range range', e = lambda param (.caseOf (.var name) [arm] range) range' ∧
      param.text = x ∧ name.text = x := by
  unfold unpacks at h
  split at h
  · next param body range' =>
      split at h
      · next hmatched =>
          obtain rfl := List.mem_singleton.1 h
          obtain ⟨name, hname, htext⟩ := Option.map_eq_some_iff.1 hmatched
          unfold matched? at hname
          split at hname
          · cases hname
            exact ⟨param, name, _, _, range', rfl, rfl, htext⟩
          · cases hname
      · cases h
  · cases h

/-! ### References to nothing inside -/

variable {x : String}

theorem count_filter_of_not_mem {names bound : List String} (h : x ∉ bound) :
    (names.filter (· ∉ bound)).count x = names.count x := List.count_filter (by simpa using h)

theorem count_filter_of_ne {names : List String} {y : String} (h : x ≠ y) :
    (names.filter (· ≠ y)).count x = names.count x := List.count_filter (by simpa using h)

mutual

theorem count_freeNames_eq (e : Expr) (hbinds : x ∉ e.binds) (h : x ∉ e.inner.flatMap binds) :
    e.freeNames.count x = e.refers.count x + (e.inner.flatMap refers).count x := by
  match e with
  | .literal _ _ | .construct _ none _ => rfl
  | .var _ => rfl
  | .lambda param e _ =>
      simp only [inner, List.flatMap_cons, List.mem_append, not_or] at h
      have hne : x ≠ param.text := by simpa [binds] using hbinds
      rw [freeNames, count_filter_of_ne hne, count_freeNames_eq e h.1 h.2]
      simp [inner, refers]
  | .field e _ _ | .construct _ (some e) _ | .ref e _ | .deref e _ | .annot e _ _ =>
      simp only [inner, List.flatMap_cons, List.mem_append, not_or] at h
      simp [freeNames, inner, refers, count_freeNames_eq e h.1 h.2]
  | .apply a b _ | .assign a b _ | .sequence a b _ =>
      simp only [inner, List.flatMap_cons, List.flatMap_append, List.mem_append, not_or] at h
      simp [freeNames, inner, refers, count_freeNames_eq a h.1.1 h.1.2,
        count_freeNames_eq b h.2.1 h.2.2, Nat.add_assoc]
  | .letIn name a b _ =>
      simp only [inner, List.flatMap_cons, List.flatMap_append, List.mem_append, not_or] at h
      have hne : x ≠ name.text := by simpa [binds] using hbinds
      rw [freeNames, List.count_append, count_filter_of_ne hne, count_freeNames_eq a h.1.1 h.1.2,
        count_freeNames_eq b h.2.1 h.2.2]
      simp [inner, refers, Nat.add_assoc]
  | .letRec bindings e _ =>
      simp only [inner, List.flatMap_cons, List.flatMap_append, List.mem_append, not_or] at h
      rw [binds] at hbinds
      rw [freeNames, count_filter_of_not_mem hbinds, List.count_append,
        count_freeNamesOfBindings bindings h.1, count_freeNames_eq e h.2.1 h.2.2]
      simp [inner, refers]
  | .ifElse a b c _ =>
      simp only [inner, List.flatMap_cons, List.flatMap_append, List.mem_append, not_or] at h
      simp [freeNames, inner, refers, count_freeNames_eq a h.1.1.1 h.1.1.2,
        count_freeNames_eq b h.1.2.1 h.1.2.2, count_freeNames_eq c h.2.1 h.2.2, Nat.add_assoc]
  | .list es _ | .tuple es _ =>
      simp [freeNames, inner, refers, count_freeNamesOfList es h]
  | .record fields _ => simp [freeNames, inner, refers, count_freeNamesOfFields fields h]
  | .update e fields _ =>
      simp only [inner, List.flatMap_cons, List.flatMap_append, List.mem_append, not_or] at h
      simp [freeNames, inner, refers, count_freeNames_eq e h.1.1 h.1.2,
        count_freeNamesOfFields fields h.2, Nat.add_assoc]
  | .caseOf e arms _ =>
      simp only [inner, List.flatMap_cons, List.flatMap_append, List.mem_append, not_or] at h
      simp [freeNames, inner, refers, count_freeNames_eq e h.1.1 h.1.2,
        count_freeNamesOfArms arms hbinds h.2, Nat.add_assoc]

theorem count_freeNamesOfList (es : List Expr) (h : x ∉ (innerOfList es).flatMap binds) :
    (freeNamesOfList es).count x = ((innerOfList es).flatMap refers).count x := by
  match es with
  | [] => rfl
  | e :: es =>
      simp only [innerOfList, List.flatMap_cons, List.flatMap_append, List.mem_append, not_or] at h
      simp [freeNamesOfList, innerOfList, count_freeNames_eq e h.1.1 h.1.2,
        count_freeNamesOfList es h.2, Nat.add_assoc]

theorem count_freeNamesOfFields (fields : List (Ident × Expr))
    (h : x ∉ (innerOfFields fields).flatMap binds) :
    (freeNamesOfFields fields).count x = ((innerOfFields fields).flatMap refers).count x := by
  match fields with
  | [] => rfl
  | (_, e) :: fields =>
      simp only [innerOfFields, List.flatMap_cons, List.flatMap_append, List.mem_append, not_or] at h
      simp [freeNamesOfFields, innerOfFields, count_freeNames_eq e h.1.1 h.1.2,
        count_freeNamesOfFields fields h.2, Nat.add_assoc]

theorem count_freeNamesOfBindings (bindings : List (RecBinding Expr))
    (h : x ∉ (innerOfBindings bindings).flatMap binds) :
    (freeNamesOfBindings bindings).count x =
      ((innerOfBindings bindings).flatMap refers).count x := by
  match bindings with
  | [] => rfl
  | ⟨_, e, _⟩ :: bindings =>
      simp only [innerOfBindings, List.flatMap_cons, List.flatMap_append, List.mem_append,
        not_or] at h
      simp [freeNamesOfBindings, innerOfBindings, count_freeNames_eq e h.1.1 h.1.2,
        count_freeNamesOfBindings bindings h.2, Nat.add_assoc]

theorem count_freeNamesOfArms (arms : List (MatchArm Expr))
    (hbinds : x ∉ arms.flatMap fun arm => arm.pattern.binders)
    (h : x ∉ (innerOfArms arms).flatMap binds) :
    (freeNamesOfArms arms).count x = ((innerOfArms arms).flatMap refers).count x := by
  match arms with
  | [] => rfl
  | ⟨p, e, _⟩ :: arms =>
      simp only [innerOfArms, List.flatMap_cons, List.flatMap_append, List.mem_append, not_or] at h
      rw [List.flatMap_cons, List.mem_append, not_or] at hbinds
      rw [freeNamesOfArms, List.count_append, count_filter_of_not_mem hbinds.1,
        count_freeNames_eq e h.1.1 h.1.2, count_freeNamesOfArms arms hbinds.2 h.2]
      simp [innerOfArms, Nat.add_assoc]

end

/-- A name that is bound nowhere in an expression is free in it wherever it is referred to. -/
theorem count_freeNames {e : Expr} (h : x ∉ e.binders) :
    e.freeNames.count x = e.references.count x := by
  rw [binders, nodes, List.flatMap_cons, List.mem_append, not_or] at h
  rw [count_freeNames_eq e h.1 h.2, references, nodes, List.flatMap_cons, List.count_append]

end Expr

/-! ### Names from the program text -/

namespace Token

/-- The text is a name as it is spelled in a program. -/
def IsName (x : String) : Prop :=
  ∃ c cs, x.toList = c :: cs ∧ isNameStart c = true ∧ (∀ d ∈ cs, isNameChar d = true) ∧
    kindOfName c x = .ident

theorem isName_of_lexeme {kind : TokenKind} {cs : List Char} {x : String} (h : Lexeme kind cs x)
    (hkind : kind = .ident) : IsName x := by
  cases h with
  | @name c cs hc hcs => exact ⟨c, cs, String.toList_ofList, hc, hcs, hkind⟩
  | typeVar | number | symbol | string => cases hkind

theorem Partitions.isName {before text : List Char} {tokens : List Token}
    (h : Partitions before text tokens) : ∀ t ∈ tokens, t.kind = .ident → IsName t.text := by
  induction h with
  | stop => exact fun t ht hkind => by simp [List.mem_singleton.1 ht] at hkind
  | token hgap hlexeme hrest ih => exact List.forall_mem_cons.2 ⟨isName_of_lexeme hlexeme, ih⟩

/-- The names among the words of a text are spelled as names. -/
theorem isName_of_lex {source : String} {tokens : List Token} (h : lex source = .ok tokens) :
    ∀ t ∈ tokens, t.kind = .ident → IsName t.text := by
  rw [lex_eq] at h
  obtain ⟨after, htokens, hparts⟩ := @partitions_lexFrom _ [] .start [] rfl _ h
  obtain rfl : tokens = after := htokens
  exact hparts.isName

/-- An operator is not spelled as a name. -/
theorem not_isName_operator {op : Operator} (hop : op ∈ Operator.table) : ¬IsName op.text := by
  have hall : ∀ op ∈ Operator.table, isNameStart (op.text.toList.headD ' ') = true →
      kindOfName (op.text.toList.headD ' ') op.text ≠ .ident := by
    decide +kernel
  rintro ⟨c, cs, htext, hc, -, hkind⟩
  have hne := hall op hop
  rw [htext] at hne
  exact hne hc hkind

end Token

namespace Parser

/-- The name that is made up as the `n`-th one. -/
def madeUp (n : Nat) : String := s!"%arg{n}"

theorem toList_madeUp (n : Nat) :
    (madeUp n).toList = ['%', 'a', 'r', 'g'] ++ Nat.toDigits 10 n := by
  have hprefix : (toString "%arg").toList = ['%', 'a', 'r', 'g'] := rfl
  simp [madeUp, hprefix]

theorem madeUp_injective {n m : Nat} (h : madeUp n = madeUp m) : n = m := by
  have hlist := congrArg String.toList h
  rw [toList_madeUp, toList_madeUp] at hlist
  have hdigits := congrArg (Nat.ofDigitChars 10 · 0) (List.append_cancel_left hlist)
  simpa using hdigits

theorem not_isName_madeUp (n : Nat) : ¬Token.IsName (madeUp n) := by
  rintro ⟨c, cs, htext, hc, -, -⟩
  rw [toList_madeUp] at htext
  obtain ⟨rfl, -⟩ := List.cons.inj htext
  exact absurd hc (by decide)

theorem madeUp_ne_operator (n : Nat) {op : Operator} (hop : op ∈ Operator.table) :
    madeUp n ≠ op.text := by
  have hall : ∀ op ∈ Operator.table, op.text.toList.head? ≠ some '%' := by decide
  intro h
  refine hall op hop ?_
  rw [← h, toList_madeUp]
  rfl

end Parser

/-! ### Names that are used once -/

section

open FieldML.Parser FieldML.Token

variable {lo mid hi n m : Nat} {e a b : Expr} {as bs es : List Expr} {x : String}

/-- The primitive is written as an operator. -/
def Primitive.IsOperator (p : Primitive) : Prop := ∃ op ∈ Operator.table, op.text = p.name

theorem Primitive.exists_of_operator {op : Operator} (hop : op ∈ Operator.table)
    (hand : op.text ≠ "&&") (hor : op.text ≠ "||") : ∃ p : Primitive, p.name = op.text := by
  have hall : ∀ op ∈ Operator.table, op.text ≠ "&&" → op.text ≠ "||" →
      ∃ p ∈ Primitive.all, p.name = op.text := by
    decide
  obtain ⟨p, -, hp⟩ := hall op hop hand hor
  exact ⟨p, hp⟩

/-- What a reference in a program may be to, apart from made-up names. -/
def IsReferable (x : String) : Prop := IsName x ∨ ∃ p : Primitive, p.IsOperator ∧ p.name = x

theorem IsReferable.ne_madeUp (h : IsReferable x) (n : Nat) : x ≠ madeUp n := by
  rintro rfl
  rcases h with hname | ⟨p, ⟨op, hop, htext⟩, hp⟩
  · exact not_isName_madeUp n hname
  · exact madeUp_ne_operator n hop (htext.trans hp).symm

namespace Expr

/-- The outermost form uses no name that is made up. -/
structure Plain (e : Expr) : Prop where
  binds : ∀ x ∈ e.binds, IsName x
  refers : ∀ x ∈ e.refers, IsReferable x

/-- The expressions together use the names from the one after the `lo`-th to the `hi`-th that was made
up, each once in each of the ways. -/
structure UseUp (lo hi : Nat) (es : List Expr) : Prop where
  le : lo ≤ hi
  binds : ∀ e ∈ es, ∀ x ∈ e.binds, IsName x ∨ ∃ n, x = madeUp n
  refers : ∀ e ∈ es, ∀ x ∈ e.refers, IsReferable x ∨ ∃ n, x = madeUp n
  count : ∀ f ∈ [Expr.binds, Expr.refers, Expr.unpacks], ∀ n,
    (es.flatMap f).count (madeUp n) = if lo < n ∧ n ≤ hi then 1 else 0

namespace UseUp

theorem nil (n : Nat) : UseUp n n [] where
  le := le_refl n
  binds := List.forall_mem_nil _
  refers := List.forall_mem_nil _
  count f _ m := by
    rw [List.flatMap_nil, List.count_nil, if_neg]
    omega

theorem append (ha : UseUp lo mid as) (hb : UseUp mid hi bs) : UseUp lo hi (as ++ bs) where
  le := ha.le.trans hb.le
  binds := List.forall_mem_append.2 ⟨ha.binds, hb.binds⟩
  refers := List.forall_mem_append.2 ⟨ha.refers, hb.refers⟩
  count f hf n := by
    have hlo := ha.le
    have hhi := hb.le
    rw [List.flatMap_append, List.count_append, ha.count f hf n, hb.count f hf n]
    split_ifs <;> omega

theorem perm (h : UseUp lo hi as) (hperm : as.Perm bs) : UseUp lo hi bs where
  le := h.le
  binds e he := h.binds e (hperm.mem_iff.2 he)
  refers e he := h.refers e (hperm.mem_iff.2 he)
  count f hf n := by rw [← h.count f hf n, (hperm.flatMap_right f).count_eq]

theorem cons (he : e.Plain) (h : UseUp lo hi es) : UseUp lo hi (e :: es) where
  le := h.le
  binds := List.forall_mem_cons.2 ⟨fun x hx => Or.inl (he.binds x hx), h.binds⟩
  refers := List.forall_mem_cons.2 ⟨fun x hx => Or.inl (he.refers x hx), h.refers⟩
  count f hf n := by
    have hfree : madeUp n ∉ f e := by
      intro hx
      simp only [List.mem_cons, List.not_mem_nil, or_false] at hf
      rcases hf with rfl | rfl | rfl
      · exact not_isName_madeUp n (he.binds _ hx)
      · exact (he.refers _ hx).ne_madeUp n rfl
      · exact not_isName_madeUp n (he.binds _ (mem_binds_of_mem_unpacks hx))
    rw [List.flatMap_cons, List.count_append, List.count_eq_zero_of_not_mem hfree, Nat.zero_add,
      h.count f hf n]

/-- The ranges in the outermost form do not matter. -/
theorem congr_head (h : UseUp lo hi (a :: es)) (hbinds : a.binds = b.binds)
    (hrefers : a.refers = b.refers) (hunpacks : a.unpacks = b.unpacks) :
    UseUp lo hi (b :: es) where
  le := h.le
  binds := List.forall_mem_cons.2
    ⟨hbinds ▸ h.binds a List.mem_cons_self, (List.forall_mem_cons.1 h.binds).2⟩
  refers := List.forall_mem_cons.2
    ⟨hrefers ▸ h.refers a List.mem_cons_self, (List.forall_mem_cons.1 h.refers).2⟩
  count f hf n := by
    have hhead : f b = f a := by
      simp only [List.mem_cons, List.not_mem_nil, or_false] at hf
      rcases hf with rfl | rfl | rfl
      exacts [hbinds.symm, hrefers.symm, hunpacks.symm]
    rw [List.flatMap_cons, hhead, ← List.flatMap_cons, h.count f hf n]

theorem count_madeUp (n m : Nat) :
    [madeUp (n + 1)].count (madeUp m) = if n < m ∧ m ≤ n + 1 then 1 else 0 := by
  by_cases h : m = n + 1
  · subst h
    simp
  · have hne : madeUp (n + 1) ≠ madeUp m := fun heq => h (madeUp_injective heq).symm
    rw [List.count_singleton, if_neg (by simpa using hne), if_neg]
    omega

/-- A function whose parameter is a pattern uses the next name. -/
theorem unpack {p : Pattern} {range : Range} (hp : ∀ x ∈ p.binders, IsName x)
    (h : UseUp lo hi e.nodes) {name : Ident} (hname : name.text = madeUp (hi + 1)) :
    UseUp lo (hi + 1) (lambda name (.caseOf (.var name) [⟨p, e, range⟩] range) range).nodes := by
  have houter : UseUp hi (hi + 1) [lambda name (.caseOf (.var name) [⟨p, e, range⟩] range) range,
      .caseOf (.var name) [⟨p, e, range⟩] range, .var name] := by
    refine ⟨Nat.le_succ hi, ?_, ?_, fun f hf n => ?_⟩
    · simp only [List.forall_mem_cons, Expr.binds, hname, List.flatMap_cons, List.flatMap_nil,
        List.append_nil]
      exact ⟨by simp, fun x hx => Or.inl (hp x hx), by simp⟩
    · simp [Expr.refers, hname]
    · have hfree : p.binders.count (madeUp n) = 0 :=
        List.count_eq_zero_of_not_mem fun hx => not_isName_madeUp n (hp _ hx)
      rw [← count_madeUp hi n]
      simp only [List.mem_cons, List.not_mem_nil, or_false] at hf
      rcases hf with rfl | rfl | rfl
      · simp [Expr.binds, hname, List.count_cons, hfree]
      · simp [Expr.refers, hname]
      · simp [unpacks, matched?, hname]
  have hnodes : (lambda name (.caseOf (.var name) [⟨p, e, range⟩] range) range).nodes =
      [lambda name (.caseOf (.var name) [⟨p, e, range⟩] range) range,
        .caseOf (.var name) [⟨p, e, range⟩] range, .var name] ++ e.nodes := by
    simp [nodes, inner, innerOfArms]
  rw [hnodes]
  exact (h.append houter).perm List.perm_append_comm

end UseUp

end Expr

end

end FieldML
