import FieldML.Proofs.Reading.Parser

/-!
# Reading types from their words

A type is read at three levels, and words that are read at one level are read at the weaker ones,
too; in parentheses they are read at every level. A constructor follows its arguments, so of a type
before a constructor it is said how reading goes on from there.
-/

namespace FieldML.Parser

open Token

variable {ws ws' rest : List Word} {Q Q' : TypeExpr → Prop} {n : Nat} {γ : Type} {c : γ}
  {cs : List γ} {words : γ → List Word} {S : γ → TypeExpr → Prop}

/-- Reads one more constructor. -/
def typeStep (args : List TypeExpr) : Parser (Option (List TypeExpr)) := do
  if ← nextIs .ident then
    descend
    let name ← name
    let start := (args.head?.map TypeExpr.range).getD name.range
    return some [.named args name (start.merge name.range)]
  else return none

/-- The words are read as a type to which constructors may be applied. -/
def ReadsApplied (ws : List Word) (Q : TypeExpr → Prop) : Prop :=
  ∀ n ws' rest R, (∀ m e, Q e → Gives (steps typeStep m [e]) ws' rest R) →
    Gives (typeAtom (grammar n) >>= loop typeStep) (ws ++ ws') rest R

/-- The words are read as a type without an outer arrow. -/
def ReadsProduct (ws : List Word) (Q : TypeExpr → Prop) : Prop :=
  ∀ n rest, (Word.first rest).1 ≠ .ident → Word.first rest ≠ (.symbol, "*") →
    Gives (typeProduct (grammar n)) ws rest Q

/-- The words are read as a type. -/
def ReadsArrow (ws : List Word) (Q : TypeExpr → Prop) : Prop :=
  ∀ n rest, (Word.first rest).1 ≠ .ident → Word.first rest ≠ (.symbol, "*") →
    Word.first rest ≠ (.symbol, "->") → Gives (type (grammar n)) ws rest Q

theorem ReadsApplied.mono (h : ReadsApplied ws Q) (hQ : ∀ e, Q e → Q' e) : ReadsApplied ws Q' :=
  fun n ws' rest R hnext => h n ws' rest R fun m e he => hnext m e (hQ e he)

theorem ReadsProduct.mono (h : ReadsProduct ws Q) (hQ : ∀ e, Q e → Q' e) : ReadsProduct ws Q' :=
  fun n rest hident hstar => (h n rest hident hstar).mono hQ

theorem ReadsArrow.mono (h : ReadsArrow ws Q) (hQ : ∀ e, Q e → Q' e) : ReadsArrow ws Q' :=
  fun n rest hident hstar harrow => (h n rest hident hstar harrow).mono hQ

/-! ### Types and constructors after them -/

theorem readsApplied_atom (h : ∀ n rest, Gives (typeAtom (grammar n)) ws rest
    fun es => ∃ e, es = [e] ∧ Q e) : ReadsApplied ws Q := by
  intro n ws' rest R hnext
  apply (h n (ws' ++ rest)).bind
  rintro _ ⟨e, rfl, he⟩
  exact gives_loop fun m => hnext m e he

theorem gives_typeStep (args : List TypeExpr) (text : String) :
    Gives (typeStep args) [(.ident, text)] rest fun o => ∃ es, o = some es ∧
      ∃ name range, es = [.named args name range] ∧ name.text = text := by
  apply (gives_nextIs .ident).look
  rintro _ rfl
  have hnext : decide ((Word.first ([(TokenKind.ident, text)] ++ rest)).1 = .ident) = true :=
    decide_eq_true rfl
  rw [hnext]
  apply gives_descend.look
  intro _ _
  apply (gives_name .ident text).last
  intro name hname
  exact gives_pure ⟨_, rfl, name, _, rfl, hname⟩

theorem gives_typeStep_none (args : List TypeExpr) (hrest : (Word.first rest).1 ≠ .ident) :
    Gives (typeStep args) [] rest fun o => o = none := by
  apply (gives_nextIs .ident).last
  rintro _ rfl
  rw [decide_eq_false hrest]
  exact gives_pure rfl

/-- One more constructor after some arguments, whichever way these were read. -/
theorem gives_steps_named {args : List TypeExpr} {text : String} {m : Nat}
    {R : List TypeExpr → Prop}
    (hnext : ∀ m e, (∃ name range, e = .named args name range ∧ name.text = text) →
      Gives (steps typeStep m [e]) ws' rest R) :
    Gives (steps typeStep m args) ((.ident, text) :: ws') rest R := by
  refine gives_steps_more (gives_typeStep args text) ?_
  rintro m _ ⟨name, range, rfl, hname⟩
  exact hnext m _ ⟨name, range, rfl, hname⟩

theorem ReadsApplied.named (h : ReadsApplied ws Q) (text : String) :
    ReadsApplied (ws ++ [(.ident, text)]) fun e => ∃ arg name range,
      e = .named [arg] name range ∧ name.text = text ∧ Q arg := by
  intro n ws' rest R hnext
  rw [List.append_assoc]
  apply h
  intro m arg harg
  refine gives_steps_named fun m e he => hnext m e ?_
  obtain ⟨name, range, rfl, hname⟩ := he
  exact ⟨arg, name, range, rfl, hname, harg⟩

/-! ### The three levels -/

theorem ReadsApplied.gives_typeApp (h : ReadsApplied ws Q) (hrest : (Word.first rest).1 ≠ .ident) :
    Gives (typeApp (grammar n)) ws rest Q := by
  have hloop : Gives (typeAtom (grammar n) >>= loop typeStep) ws rest
      fun es => ∃ e, es = [e] ∧ Q e := by
    have happlied := h n [] rest (fun es => ∃ e, es = [e] ∧ Q e) fun m e he =>
      gives_steps_done (gives_typeStep_none [e] hrest) ⟨e, rfl, he⟩
    rwa [List.append_nil] at happlied
  unfold typeApp
  rw [← bind_assoc]
  apply hloop.bind_closing.last
  rintro _ ⟨e, rfl, he⟩
  exact gives_pure he

theorem ReadsApplied.product (h : ReadsApplied ws Q) : ReadsProduct ws Q := by
  intro n rest hident hstar
  apply (h.gives_typeApp hident).last
  intro e he
  apply (gives_nextIsSymbol "*").last
  rintro _ rfl
  rw [decide_eq_false hstar]
  exact gives_pure he

theorem ReadsProduct.arrow (h : ReadsProduct ws Q) : ReadsArrow ws Q := by
  intro n rest hident hstar harrow
  refine Gives.nested ?_
  apply (h n rest hident hstar).last
  intro e he
  apply (gives_skipSymbol_not harrow).last
  rintro _ rfl
  exact gives_pure he

/-- Inside another form a type is read with less fuel. -/
theorem ReadsArrow.inside (h : ReadsArrow ws Q) (hident : (Word.first rest).1 ≠ .ident)
    (hstar : Word.first rest ≠ (.symbol, "*")) (harrow : Word.first rest ≠ (.symbol, "->")) :
    Gives (grammar n).type ws rest Q := by
  cases n with
  | zero => exact gives_stuck
  | succ n => exact h n rest hident hstar harrow

/-! ### Forms of types -/

theorem ReadsArrow.func (hp : ReadsProduct ws Q) (hq : ReadsArrow ws' Q') :
    ReadsArrow (ws ++ (.symbol, "->") :: ws') fun e => ∃ param result range,
      e = .func param result range ∧ Q param ∧ Q' result := by
  intro n rest hident hstar harrow
  refine Gives.nested ?_
  have hnext : Word.first ((.symbol, "->") :: ws' ++ rest) = (.symbol, "->") := rfl
  apply (hp n _ (by rw [hnext]; decide) (by rw [hnext]; decide)).bind
  intro param hparam
  have hresult : Gives (grammar n).type ws' rest Q' := hq.inside hident hstar harrow
  have htail : Gives (skipSymbol "->" >>= fun b => if b = true then do
        let result ← (grammar n).type
        return .func param result (param.range.merge result.range)
      else return param) ([(.symbol, "->")] ++ ws') rest fun e => ∃ param result range,
        e = .func param result range ∧ Q param ∧ Q' result := by
    apply (gives_skipSymbol "->").bind
    rintro _ rfl
    apply hresult.last
    intro result hr
    exact gives_pure ⟨param, result, _, rfl, hparam, hr⟩
  exact htail

theorem readsProduct_items (hc : ReadsApplied (words c) (S c))
    (hcs : ∀ d ∈ cs, ReadsApplied (words d) (S d)) (hne : cs ≠ []) :
    ReadsProduct (listed (.symbol, "*") ((c :: cs).map words)) fun e => ∃ es range,
      e = .product es range ∧ List.Forall₂ S (c :: cs) es := by
  intro n rest hident hstar
  have hnext : ∀ after, MayFollow (.symbol, "*") rest after → (Word.first after).1 ≠ .ident := by
    rintro after (rfl | hafter)
    · exact hident
    · rw [hafter]
      decide
  apply (hc.gives_typeApp (hnext _ (mayFollow_separated _ _ _))).bind
  intro first hfirst
  obtain ⟨d, ds, rfl⟩ := List.exists_cons_of_ne_nil hne
  apply (gives_nextIsSymbol "*").look
  rintro _ rfl
  have hstarred : Word.first (separated (.symbol, "*") ((d :: ds).map words) ++ rest) =
      (.symbol, "*") := rfl
  rw [decide_eq_true hstarred]
  apply (gives_moreItems hfirst hstar fun d hd after hafter =>
    (hcs d hd).gives_typeApp (hnext after hafter)).last
  intro items hitems
  have hread : Gives previousRange [] rest fun _ => True := fun s hs => ⟨hs, trivial⟩
  apply hread.last
  intro range _
  exact gives_pure ⟨items.reverse, _, rfl, hitems⟩

/-- What stands between two parentheses: one or more types. -/
theorem gives_typeAtom_parens (hc : ∀ d ∈ c :: cs, ReadsArrow (words d) (S d)) :
    Gives (typeAtom (grammar n)) ((.symbol, "(") :: (listed (.symbol, ",")
      ((c :: cs).map words) ++ [(.symbol, ")")])) rest
      fun es => List.Forall₂ S (c :: cs) es := by
  apply gives_peek.look
  intro t ht
  obtain ⟨hkind, htext⟩ := word_of_first ht
  simp only [hkind, htext, if_true]
  have hopen : Gives (advance >>= fun _ => sepBy1 (grammar n).type (skipSymbol ",") >>= fun items =>
      symbol ")" >>= fun _ => pure items) ([(.symbol, "(")] ++ (listed (.symbol, ",")
      ((c :: cs).map words) ++ [(.symbol, ")")])) rest
      fun es => List.Forall₂ S (c :: cs) es := by
    apply (gives_advance _).bind
    intro _ _
    have hitems : Gives (sepBy1 (grammar n).type (skipSymbol ",")) (listed (.symbol, ",")
        ((c :: cs).map words)) ([(.symbol, ")")] ++ rest)
        fun es => List.Forall₂ S (c :: cs) es := by
      refine gives_sepBy1 (by simp [Word.first]) fun d hd after hafter => ?_
      have hnext : Word.first after = (.symbol, ")") ∨ Word.first after = (.symbol, ",") := by
        rcases hafter with rfl | hafter
        · exact Or.inl rfl
        · exact Or.inr hafter
      refine (hc d hd).inside ?_ ?_ ?_
      all_goals
        rcases hnext with hnext | hnext <;> rw [hnext] <;> decide
    apply hitems.bind
    intro items hitems
    apply (gives_symbol ")").last
    intro _ _
    exact gives_pure hitems
  exact hopen

theorem ReadsArrow.parens (h : ReadsArrow ws Q) :
    ReadsApplied ((.symbol, "(") :: (ws ++ [(.symbol, ")")])) Q := by
  refine readsApplied_atom fun n rest => ?_
  have hone : ∀ d ∈ [()], ReadsArrow ((fun _ => ws) d) Q := fun _ _ => h
  have hatom : Gives (typeAtom (grammar n)) ((.symbol, "(") :: (listed (.symbol, ",")
      ([()].map fun _ => ws) ++ [(.symbol, ")")])) rest
      fun es => List.Forall₂ (fun _ => Q) [()] es := gives_typeAtom_parens hone
  simp only [List.map_cons, List.map_nil, listed, separated, List.flatMap_nil,
    List.append_nil] at hatom
  refine hatom.mono fun es hes => ?_
  cases hes with
  | cons he hnil =>
      cases hnil
      exact ⟨_, rfl, he⟩

/-- Several arguments of a constructor. -/
theorem readsApplied_args (hc : ∀ d ∈ c :: cs, ReadsArrow (words d) (S d)) (text : String) :
    ReadsApplied ((.symbol, "(") :: (listed (.symbol, ",") ((c :: cs).map words) ++
      [(.symbol, ")")]) ++ [(.ident, text)]) fun e => ∃ args name range,
      e = .named args name range ∧ name.text = text ∧ List.Forall₂ S (c :: cs) args := by
  intro n ws' rest R hnext
  rw [List.append_assoc]
  apply (gives_typeAtom_parens hc).bind
  intro args hargs
  refine gives_loop fun m => gives_steps_named fun m e he => hnext m e ?_
  obtain ⟨name, range, rfl, hname⟩ := he
  exact ⟨args, name, range, rfl, hname, hargs⟩

theorem readsApplied_var (text : String) : ReadsApplied [(.typeVar, text)] fun e =>
    ∃ name, e = .var name ∧ name.text = text := by
  refine readsApplied_atom fun n rest => ?_
  apply gives_peek.look
  intro t ht
  obtain ⟨hkind, -⟩ := word_of_first ht
  simp only [hkind]
  apply (gives_name .typeVar text).last
  intro name hname
  exact gives_pure ⟨_, rfl, name, rfl, hname⟩

theorem readsApplied_name (text : String) : ReadsApplied [(.ident, text)] fun e =>
    ∃ name range, e = .named [] name range ∧ name.text = text := by
  refine readsApplied_atom fun n rest => ?_
  apply gives_peek.look
  intro t ht
  obtain ⟨hkind, -⟩ := word_of_first ht
  simp only [hkind]
  apply (gives_name .ident text).last
  intro name hname
  exact gives_pure ⟨_, rfl, name, _, rfl, hname⟩

/-! ### Records -/

/-- The words of a field. -/
def fieldWords (name : String) (ws : List Word) : List Word :=
  (.ident, name) :: (.symbol, ":") :: ws

theorem gives_typeField {name : String} (h : ReadsArrow ws Q)
    (hident : (Word.first rest).1 ≠ .ident)
    (hstar : Word.first rest ≠ (.symbol, "*")) (harrow : Word.first rest ≠ (.symbol, "->")) :
    Gives (typeField (grammar n)) (fieldWords name ws) rest fun f => f.1.text = name ∧ Q f.2 := by
  have hfield : Gives (typeField (grammar n)) ([(.ident, name)] ++ ([(.symbol, ":")] ++ ws)) rest
      fun f => f.1.text = name ∧ Q f.2 := by
    apply (gives_nameOf .ident name _).bind
    intro field hfield
    apply (gives_symbol ":").bind
    intro _ _
    apply (h.inside hident hstar harrow).last
    intro e he
    exact gives_pure ⟨hfield, he⟩
  exact hfield

theorem readsApplied_record {name : γ → String} (hcs : ∀ d ∈ cs, ReadsArrow (words d) (S d)) :
    ReadsApplied ((.symbol, "\x7b") :: (listed (.symbol, ",")
      (cs.map fun d => fieldWords (name d) (words d)) ++ [(.symbol, "\x7d")])) fun e =>
      ∃ fields range, e = .record fields range ∧
        List.Forall₂ (fun d f => f.1.text = name d ∧ S d f.2) cs fields := by
  refine readsApplied_atom fun n rest => ?_
  apply gives_peek.look
  intro t ht
  obtain ⟨hkind, htext⟩ := word_of_first ht
  simp only [hkind, htext]
  have hfields : Gives (commaList (typeField (grammar n)) "\x7d") (listed (.symbol, ",")
      (cs.map fun d => fieldWords (name d) (words d))) ([(.symbol, "\x7d")] ++ rest)
      fun fields => List.Forall₂ (fun d f => f.1.text = name d ∧ S d f.2) cs fields := by
    refine gives_commaList (by decide) (fun d _ => ?_) fun d hd after hafter => ?_
    · exact ⟨List.cons_ne_nil _ _, by simp [Word.first, fieldWords]⟩
    · have hnext : Word.first after = (.symbol, "\x7d") ∨ Word.first after = (.symbol, ",") := by
        rcases hafter with rfl | hafter
        · exact Or.inl rfl
        · exact Or.inr hafter
      refine gives_typeField (hcs d hd) ?_ ?_ ?_
      all_goals
        rcases hnext with hnext | hnext <;> rw [hnext] <;> decide
  have hopen : Gives (advance >>= fun _ => commaList (typeField (grammar n)) "\x7d" >>= fun fields =>
      symbol "\x7d" >>= fun stop => pure [TypeExpr.record fields (t.range.merge stop)])
      ([(.symbol, "\x7b")] ++ (listed (.symbol, ",")
        (cs.map fun d => fieldWords (name d) (words d)) ++ [(.symbol, "\x7d")])) rest
      fun es => ∃ e, es = [e] ∧ ∃ fields range, e = .record fields range ∧
        List.Forall₂ (fun d f => f.1.text = name d ∧ S d f.2) cs fields := by
    apply (gives_advance _).bind
    intro _ _
    apply hfields.bind
    intro fields hfields
    apply (gives_symbol "\x7d").last
    intro stop _
    exact gives_pure ⟨_, rfl, fields, _, rfl, hfields⟩
  exact hopen

end FieldML.Parser
