import FieldML.Proofs.Reading.Parser

/-!
# Reading patterns from their words

A pattern is read as an atom, as a constructor with an argument, or as a chain of such. What follows a
constructor decides whether it has an argument, so of every pattern it is said how its words begin.
-/

namespace FieldML.Parser

open Token

variable {ws ws' rest : List Word} {Q Q' : Pattern → Prop} {γ : Type} {c d : γ} {cs : List γ}
  {words : γ → List Word} {S : γ → Pattern → Prop}

/-- Whether the word can begin an argument of a constructor. -/
def startsArgument (w : Word) : Bool := startsPatternAtom ⟨w.1, w.2, .erased⟩

/-- The words begin an argument of a constructor, whatever follows them. -/
def Starts (ws : List Word) : Prop := ∀ rest, startsArgument (Word.first (ws ++ rest)) = true

/-- The word may come after a pattern. -/
def Ends (w : Word) : Prop :=
  startsArgument w = false ∧ w ≠ (.symbol, "::") ∧ w ≠ (.keyword, "as")

/-- The words are read as a constructor with its argument or as an atom. -/
structure ReadsCtor (ws : List Word) (Q : Pattern → Prop) : Prop where
  starts : Starts ws
  gives : ∀ n rest, startsArgument (Word.first rest) = false →
    Gives (patternCtor (grammar n)) ws rest Q

/-- The words are read as an atom, also behind a constructor. -/
structure ReadsAtom (ws : List Word) (Q : Pattern → Prop) : Prop extends ReadsCtor ws Q where
  atom : ∀ n rest, Gives (patternAtom (grammar n)) ws rest Q

/-- The words are read as a pattern. -/
structure ReadsChain (ws : List Word) (Q : Pattern → Prop) : Prop where
  starts : Starts ws
  gives : ∀ n rest, Ends (Word.first rest) → Gives (patternCons (grammar n)) ws rest Q

theorem ReadsAtom.mono (h : ReadsAtom ws Q) (hQ : ∀ p, Q p → Q' p) : ReadsAtom ws Q' :=
  ⟨⟨h.starts, fun n rest hrest => (h.gives n rest hrest).mono hQ⟩,
    fun n rest => (h.atom n rest).mono hQ⟩

theorem ReadsChain.mono (h : ReadsChain ws Q) (hQ : ∀ p, Q p → Q' p) : ReadsChain ws Q' :=
  ⟨h.starts, fun n rest hrest => (h.gives n rest hrest).mono hQ⟩

theorem ReadsCtor.chain (h : ReadsCtor ws Q) : ReadsChain ws Q := by
  refine ⟨h.starts, fun n rest hrest => ?_⟩
  apply (h.gives n rest hrest.1).last
  intro p hp
  apply (gives_skipSymbol_not hrest.2.1).last
  rintro _ rfl
  exact gives_pure hp

theorem ReadsChain.gives_pattern (h : ReadsChain ws Q) (n : Nat) (hrest : Ends (Word.first rest)) :
    Gives (pattern (grammar n)) ws rest Q := by
  refine Gives.nested ?_
  apply (h.gives n rest hrest).last
  intro p hp
  apply (gives_skipKeyword_not hrest.2.2).last
  rintro _ rfl
  exact gives_pure hp

/-- Inside another form a pattern is read with less fuel. -/
theorem ReadsChain.inside (h : ReadsChain ws Q) (n : Nat) (hrest : Ends (Word.first rest)) :
    Gives (grammar n).pattern ws rest Q := by
  cases n with
  | zero => exact gives_stuck
  | succ n => exact h.gives_pattern n hrest

/-! ### Atoms -/

theorem readsAtom_of_first (hfirst : ∀ rest, (Word.first (ws ++ rest)).1 ≠ .constructor)
    (hstarts : Starts ws) (hatom : ∀ n rest, Gives (patternAtom (grammar n)) ws rest Q) :
    ReadsAtom ws Q := by
  refine ⟨⟨hstarts, fun n rest _ => ?_⟩, hatom⟩
  apply (gives_nextIs .constructor).look
  rintro _ rfl
  rw [decide_eq_false (hfirst rest)]
  exact hatom n rest

theorem gives_startsPatternAtom : Gives peek [] ws fun t =>
    startsPatternAtom t = startsArgument (Word.first ws) := by
  refine gives_peek.mono fun t ht => ?_
  rw [← ht]
  rfl

theorem readsAtom_wildcard : ReadsAtom [(.ident, "_")] fun p => ∃ r, p = .wildcard r := by
  refine readsAtom_of_first (fun rest => by simp [Word.first]) (fun _ => rfl) fun n rest => ?_
  apply gives_peek.look
  intro t ht
  obtain ⟨hkind, -⟩ := word_of_first ht
  simp only [hkind]
  apply (gives_name .ident "_").last
  intro name hname
  rw [if_pos hname]
  exact gives_pure ⟨name.range, rfl⟩

theorem readsAtom_bool (b : Bool) : ReadsAtom [(.keyword, if b then "true" else "false")] fun p =>
    ∃ r, p = .literal (.bool b) r := by
  refine readsAtom_of_first (fun rest => by simp [Word.first]) (fun _ => by cases b <;> rfl)
    fun n rest => ?_
  apply gives_peek.look
  intro t ht
  obtain ⟨hkind, htext⟩ := word_of_first ht
  have hword : t.text = "true" ∨ t.text = "false" := by
    cases b <;> simp [htext]
  have hvalue : decide (t.text = "true") = b := by
    cases b <;> simp [htext]
  simp only [hkind]
  rw [if_pos hword, hvalue]
  apply (gives_advance _).last
  intro _ _
  exact gives_pure ⟨t.range, rfl⟩

theorem readsAtom_constant (name : String) : ReadsAtom [(.constructor, name)] fun p =>
    ∃ ctor r, p = .construct ctor none r ∧ ctor.text = name := by
  refine ⟨⟨fun _ => rfl, fun n rest hrest => ?_⟩, fun n rest => ?_⟩
  · apply (gives_nextIs .constructor).look
    rintro _ rfl
    have hnext : decide ((Word.first ([(TokenKind.constructor, name)] ++ rest)).1 = .constructor) =
        true := decide_eq_true rfl
    rw [hnext, if_pos rfl]
    apply (gives_name .constructor name).last
    intro ctor hctor
    apply gives_startsPatternAtom.last
    intro t ht
    rw [ht, hrest]
    exact gives_pure ⟨ctor, _, rfl, hctor⟩
  · apply gives_peek.look
    intro t ht
    obtain ⟨hkind, -⟩ := word_of_first ht
    simp only [hkind]
    apply (gives_name .constructor name).last
    intro ctor hctor
    exact gives_pure ⟨ctor, _, rfl, hctor⟩

theorem readsAtom_nil : ReadsAtom [(.symbol, "["), (.symbol, "]")] fun p => ∃ r, p = .nil r := by
  refine readsAtom_of_first (fun rest => by simp [Word.first]) (fun _ => rfl) fun n rest => ?_
  apply gives_peek.look
  intro t ht
  obtain ⟨hkind, htext⟩ := word_of_first ht
  simp only [hkind, htext]
  have hopen : Gives (advance >>= fun _ => commaList (grammar n).pattern "]" >>= fun items =>
      symbol "]" >>= fun stop => pure (listPattern items t.range stop))
      ([(.symbol, "[")] ++ [(.symbol, "]")]) rest fun p => ∃ r, p = .nil r := by
    apply (gives_advance _).bind
    intro _ _
    have hitems : Gives (commaList (grammar n).pattern "]") (listed (.symbol, ",")
        (([] : List Unit).map fun _ => [])) ([(.symbol, "]")] ++ rest)
        fun items => List.Forall₂ (fun _ _ => False) ([] : List Unit) items :=
      gives_commaList (by decide) (by simp) (by simp)
    apply Gives.look hitems
    rintro _ ⟨⟩
    apply (gives_symbol "]").last
    intro stop _
    exact gives_pure ⟨_, rfl⟩
  exact hopen

/-- An opening parenthesis and what is read behind it. -/
theorem readsAtom_open
    (h : ∀ n rest start, Gives (patternParens (grammar n) start) ws rest Q) :
    ReadsAtom ((.symbol, "(") :: ws) Q := by
  refine readsAtom_of_first (fun rest => by simp [Word.first]) (fun _ => rfl) fun n rest => ?_
  apply gives_peek.look
  intro t ht
  obtain ⟨hkind, htext⟩ := word_of_first ht
  simp only [hkind, htext]
  have hopen : Gives (advance >>= fun _ => patternParens (grammar n) t.range)
      ([(.symbol, "(")] ++ ws) rest Q := by
    apply (gives_advance _).bind
    intro _ _
    exact h n rest t.range
  exact hopen

theorem readsAtom_unit : ReadsAtom [(.symbol, "("), (.symbol, ")")] fun p =>
    ∃ r, p = .literal .unit r := by
  refine readsAtom_open fun n rest start => ?_
  apply (gives_nextIsSymbol ")").look
  rintro _ rfl
  have hnext : decide (Word.first ([(TokenKind.symbol, ")")] ++ rest) = (.symbol, ")")) = true :=
    decide_eq_true rfl
  rw [hnext]
  apply (gives_advance _).last
  intro t _
  exact gives_pure ⟨_, rfl⟩

theorem Starts.ne_close (h : Starts ws) (rest : List Word) :
    Word.first (ws ++ rest) ≠ (.symbol, ")") := by
  intro hclose
  have hstarts := h rest
  rw [hclose] at hstarts
  cases hstarts

theorem ends_symbol {text : String} (h : text = ")" ∨ text = ",") : Ends (.symbol, text) := by
  rcases h with rfl | rfl <;> exact ⟨rfl, by decide, by decide⟩

theorem ReadsChain.parens (h : ReadsChain ws Q) :
    ReadsAtom ((.symbol, "(") :: (ws ++ [(.symbol, ")")])) Q := by
  refine readsAtom_open fun n rest start => ?_
  apply (gives_nextIsSymbol ")").look
  rintro _ rfl
  rw [List.append_assoc, decide_eq_false (h.starts.ne_close _)]
  have hpattern : Gives (grammar n).pattern ws ([(.symbol, ")")] ++ rest) Q :=
    h.inside n (ends_symbol (Or.inl rfl))
  apply hpattern.bind
  intro p hp
  have hcomma : Word.first ([(TokenKind.symbol, ")")] ++ rest) ≠ (.symbol, ",") := by
    simp [Word.first]
  apply (gives_nextIsSymbol ",").look
  rintro _ rfl
  rw [decide_eq_false hcomma]
  apply (gives_symbol ")").last
  intro _ _
  exact gives_pure hp

/-- Several patterns between parentheses. -/
theorem readsAtom_tuple (hcs : ∀ e ∈ c :: d :: cs, ReadsChain (words e) (S e)) :
    ReadsAtom ((.symbol, "(") :: (listed (.symbol, ",") ((c :: d :: cs).map words) ++
      [(.symbol, ")")])) fun p => ∃ ps r, p = .tuple ps r ∧ List.Forall₂ S (c :: d :: cs) ps := by
  obtain ⟨hc, hds⟩ := List.forall_mem_cons.1 hcs
  refine readsAtom_open fun n rest start => ?_
  have hends : ∀ after, MayFollow (.symbol, ",") ([(.symbol, ")")] ++ rest) after →
      Ends (Word.first after) := by
    rintro after (rfl | hafter)
    · exact ends_symbol (Or.inl rfl)
    · rw [hafter]
      exact ends_symbol (Or.inr rfl)
  rw [List.map_cons, listed, List.append_assoc]
  apply (gives_nextIsSymbol ")").look
  rintro _ rfl
  rw [List.append_assoc, decide_eq_false (hc.starts.ne_close _)]
  apply (hc.inside n (hends _ (Or.inr rfl))).bind
  intro first hfirst
  apply (gives_nextIsSymbol ",").look
  rintro _ rfl
  have hcomma : Word.first (separated (.symbol, ",") ((d :: cs).map words) ++
      [(.symbol, ")")] ++ rest) = (.symbol, ",") := rfl
  rw [decide_eq_true hcomma]
  apply (gives_moreItems hfirst (by simp [Word.first]) fun e he after hafter =>
    (hds e he).inside n (hends after hafter)).bind
  intro items hitems
  apply (gives_symbol ")").last
  intro stop _
  exact gives_pure ⟨items.reverse, _, rfl, hitems⟩

/-! ### Larger patterns -/

theorem ReadsAtom.construct (h : ReadsAtom ws Q) (name : String) :
    ReadsCtor ((.constructor, name) :: ws) fun p => ∃ ctor arg r,
      p = .construct ctor (some arg) r ∧ ctor.text = name ∧ Q arg := by
  refine ⟨fun _ => rfl, fun n rest hrest => ?_⟩
  apply (gives_nextIs .constructor).look
  rintro _ rfl
  have hnext : decide ((Word.first ((TokenKind.constructor, name) :: ws ++ rest)).1 =
      .constructor) = true := decide_eq_true rfl
  rw [hnext, if_pos rfl]
  have hwords : Gives (Parser.name >>= fun ctor => peek >>= fun t =>
      if startsPatternAtom t = true then do
        let arg ← patternAtom (grammar n)
        return Pattern.construct ctor (some arg) (ctor.range.merge arg.range)
      else return Pattern.construct ctor none ctor.range) ([(.constructor, name)] ++ ws) rest
      fun p => ∃ ctor arg r, p = .construct ctor (some arg) r ∧ ctor.text = name ∧ Q arg := by
    apply (gives_name .constructor name).bind
    intro ctor hctor
    apply gives_startsPatternAtom.look
    intro t ht
    rw [ht, h.starts rest, if_pos rfl]
    apply (h.atom n rest).last
    intro arg harg
    exact gives_pure ⟨ctor, arg, _, rfl, hctor, harg⟩
  exact hwords

theorem ReadsCtor.cons (h : ReadsCtor ws Q) (h' : ReadsChain ws' Q') :
    ReadsChain (ws ++ (.symbol, "::") :: ws') fun p => ∃ head tail r,
      p = .cons head tail r ∧ Q head ∧ Q' tail := by
  refine ⟨fun rest => ?_, fun n rest hrest => ?_⟩
  · rw [List.append_assoc]
    exact h.starts _
  · have htail : Gives (grammar n).patternCons ws' rest Q' := by
      cases n with
      | zero => exact gives_stuck
      | succ n => exact h'.gives n rest hrest
    have hnext : startsArgument (Word.first ((.symbol, "::") :: ws' ++ rest)) = false := rfl
    apply (h.gives n _ hnext).bind
    intro head hhead
    have hcons : Gives (skipSymbol "::" >>= fun b => if b = true then do
          let tail ← nested (grammar n).patternCons
          return Pattern.cons head tail (head.range.merge tail.range)
        else return head) ([(.symbol, "::")] ++ ws') rest fun p => ∃ head tail r,
          p = .cons head tail r ∧ Q head ∧ Q' tail := by
      apply (gives_skipSymbol "::").bind
      rintro _ rfl
      apply htail.nested.last
      intro tail htail
      exact gives_pure ⟨head, tail, _, rfl, hhead, htail⟩
    exact hcons

end FieldML.Parser
