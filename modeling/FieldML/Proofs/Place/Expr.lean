import FieldML.Proofs.Parser.Expr
import FieldML.Proofs.Place.Grammar

/-!
# Where expressions and programs are
-/

namespace FieldML.Parser

variable {P : Position → Prop} {g : Grammar} {s : Cursor} {lo hi mid : Position}

theorem places_recordField (hg : g.Places P) (hs : s.Ready P lo) :
    Parser.Places P lo (recordField g.statement) s := by
  apply (places_nameOf hs (by decide) _).bind
  intro field s₁ m₁ h₁ hs₁ hfield
  apply (yields_symbol hs₁.ready _).bind
  intro _ s₂ m₂ h₂ hs₂ _
  apply (hg.statement hs₂.ready).bind
  intro e s₃ m₃ h₃ hs₃ he
  apply Yields.pure hs₃
  exact ⟨⟨hfield.all, he.all⟩, hfield.range.merge (he.range.mono h₂ (le_refl m₃))⟩

theorem allFields_of_lies {fields : List (Ident × Expr)}
    (h : ∀ f ∈ fields, Tree.Lies P lo hi f) : Expr.AllFields (Range.Points P) fields :=
  Expr.allFields_iff.2 fun f hf => (h f hf).all

theorem places_recordForm (hg : g.Places P) (hs : s.Passed P mid) {start : Range}
    (hstart : start.Lies P lo mid) :
    Yields P mid (recordForm g start) s fun e hi => Tree.Lies P lo hi e := by
  have hfields : ∀ s m, s.Passed P m → Yields P m (commaList (recordField g.statement) "\x7d") s
      fun fields hi => ∀ f ∈ fields, Tree.Lies P m hi f :=
    fun s m hs => yields_commaList hs (fun _ _ _ hs => places_recordField hg hs.ready) _
  refine yields_get_bind (yields_nextIsSymbol_bind ?_)
  split_ifs
  · apply (hfields s mid hs).bind
    intro fields s₁ m₁ h₁ hs₁ hfields₁
    apply (yields_symbol hs₁.ready _).bind
    intro stop s₂ m₂ h₂ hs₂ hstop
    apply Yields.pure hs₂
    have hrange := hstart.merge (hstop.mono h₁ (le_refl m₂))
    exact ⟨⟨allFields_of_lies hfields₁, hrange.points⟩, hrange⟩
  · apply (hg.access hs.ready).bind
    intro base s₁ m₁ h₁ hs₁ hbase
    apply (yields_keyword hs₁.ready _).bind
    intro _ s₂ m₂ h₂ hs₂ _
    apply (hfields s₂ m₂ hs₂).bind
    intro fields s₃ m₃ h₃ hs₃ hfields₃
    split
    · exact yields_failExpected hs₃.ready _
    · apply (yields_symbol hs₃.ready _).bind
      intro stop s₄ m₄ h₄ hs₄ hstop
      apply Yields.pure hs₄
      have hrange := hstart.merge (hstop.mono (h₁.trans (h₂.trans h₃)) (le_refl m₄))
      exact ⟨⟨hbase.all, allFields_of_lies hfields₃, hrange.points⟩, hrange⟩

theorem places_parenForm (hg : g.Places P) (hs : s.Passed P mid) {start : Range}
    (hstart : start.Lies P lo mid) :
    Yields P mid (parenForm g start) s fun e hi => Tree.Lies P lo hi e := by
  apply yields_nextIsSymbol_bind
  split
  · next h =>
      apply (yields_advance hs.ready (rest_ne_nil_of_isWord h (by decide))).bind
      intro token s₁ m₁ _ hs₁ htoken
      apply Yields.pure hs₁
      have hrange := hstart.merge htoken.2
      exact ⟨hrange.points, hrange⟩
  · apply (hg.expr hs.ready).bind
    intro first s₁ m₁ h₁ hs₁ hfirst
    apply (yields_skipSymbol hs₁ _).bind
    intro _ s₂ m₂ h₂ hs₂ _
    split
    · apply (hg.type hs₂.ready).bind
      intro type s₃ m₃ h₃ hs₃ htype
      apply (yields_symbol hs₃.ready _).bind
      intro stop s₄ m₄ h₄ hs₄ hstop
      apply Yields.pure hs₄
      have hrange := hstart.merge (hstop.mono (h₁.trans (h₂.trans h₃)) (le_refl m₄))
      exact ⟨⟨hfirst.all, htype.all, hrange.points⟩, hrange⟩
    · apply yields_nextIsSymbol_bind
      split
      · apply (yields_items (h₁.trans h₂) hs₂ (fun _ _ _ hs => hg.expr hs.ready)
          (fun _ _ hs => yields_skipSymbol hs _)
          (List.forall_mem_singleton.2 (hfirst.mono (le_refl mid) h₂))).bind
        intro items s₃ m₃ h₃ hs₃ hitems
        apply (yields_symbol hs₃.ready _).bind
        intro stop s₄ m₄ h₄ hs₄ hstop
        apply Yields.pure hs₄
        have hrange := hstart.merge (hstop.mono (h₁.trans (h₂.trans h₃)) (le_refl m₄))
        refine ⟨⟨?_, hrange.points⟩, hrange⟩
        exact Expr.allList_iff.2 fun e he => (hitems e (List.mem_reverse.1 he)).all
      · apply (yields_symbol hs₂.ready _).bind
        intro _ s₃ m₃ h₃ hs₃ _
        apply Yields.pure hs₃
        exact hfirst.mono hstart.le (h₂.trans h₃)

theorem places_atom (hg : g.Places P) (hs : s.Ready P lo) : Parser.Places P lo (atom g) s := by
  apply yields_peek_bind
  split
  · next hkind =>
      apply (yields_advance hs (rest_ne_nil (by simp [hkind]))).bind
      intro _ s₁ m₁ h₁ hs₁ htoken
      obtain ⟨rfl, htoken⟩ := htoken
      apply (yields_integer hs₁ _ htoken.points).bind
      intro _ s₂ m₂ h₂ hs₂ _
      apply Yields.pure hs₂
      exact ⟨htoken.points, htoken.mono (le_refl lo) h₂⟩
  · next hkind =>
      apply (yields_advance hs (rest_ne_nil (by simp [hkind]))).bind
      intro _ s₁ m₁ h₁ hs₁ htoken
      apply Yields.pure hs₁
      obtain ⟨rfl, htoken⟩ := htoken
      exact ⟨htoken.points, htoken⟩
  · next hkind =>
      split
      · apply (yields_advance hs (rest_ne_nil (by simp [hkind]))).bind
        intro _ s₁ m₁ h₁ hs₁ htoken
        apply Yields.pure hs₁
        obtain ⟨rfl, htoken⟩ := htoken
        exact ⟨htoken.points, htoken⟩
      · exact yields_failExpected hs _
  · next hkind =>
      split
      · exact yields_failExpected hs _
      · apply (places_name hs (rest_ne_nil (by simp [hkind]))).bind
        intro name s₁ m₁ h₁ hs₁ hname
        apply Yields.pure hs₁
        exact ⟨hname.all, hname.range⟩
  · next hkind =>
      apply (places_name hs (rest_ne_nil (by simp [hkind]))).bind
      intro ctor s₁ m₁ h₁ hs₁ hctor
      apply Yields.pure hs₁
      exact ⟨⟨hctor.all, trivial, hctor.all⟩, hctor.range⟩
  · next hkind =>
      have hadvance := yields_advance hs (rest_ne_nil (by simp [hkind]))
      split
      · apply hadvance.bind
        intro _ s₁ m₁ h₁ hs₁ htoken
        obtain ⟨rfl, htoken⟩ := htoken
        have htarget : Parser.Places P m₁ (nested g.atom) s₁ :=
          Yields.nested hs₁.ready fun depth => hg.atom (hs₁.deeper depth).ready
        apply htarget.bind
        intro target s₂ m₂ h₂ hs₂ htarget
        apply Yields.pure hs₂
        have hrange := htoken.merge htarget.range
        exact ⟨⟨htarget.all, hrange.points⟩, hrange⟩
      · split
        · apply hadvance.bind
          intro _ s₁ m₁ h₁ hs₁ htoken
          obtain ⟨rfl, htoken⟩ := htoken
          exact places_parenForm hg hs₁ htoken
        · split
          · apply hadvance.bind
            intro _ s₁ m₁ h₁ hs₁ htoken
            obtain ⟨rfl, htoken⟩ := htoken
            apply (yields_commaList hs₁ (fun _ _ _ hs => hg.expr hs.ready) _).bind
            intro items s₂ m₂ h₂ hs₂ hitems
            apply (yields_symbol hs₂.ready _).bind
            intro stop s₃ m₃ h₃ hs₃ hstop
            apply Yields.pure hs₃
            have hrange := htoken.merge (hstop.mono h₂ (le_refl m₃))
            refine ⟨⟨?_, hrange.points⟩, hrange⟩
            exact Expr.allList_iff.2 fun e he => (hitems e he).all
          · split
            · apply hadvance.bind
              intro _ s₁ m₁ h₁ hs₁ htoken
              obtain ⟨rfl, htoken⟩ := htoken
              exact places_recordForm hg hs₁ htoken
            · exact yields_failExpected hs _
  · exact yields_failExpected hs _

theorem places_access (hg : g.Places P) (hs : s.Ready P lo) : Parser.Places P lo (access g) s := by
  refine ((places_atom hg hs).bind fun base s₁ m₁ h₁ hs₁ hbase => ?_).closing
  refine Yields.loop (I := fun e hi => Tree.Lies P lo hi e)
    (fun base s₂ m₂ h₂ hs₂ hbase => ?_) hs₁ hbase
  apply (yields_skipSymbol hs₂ _).bind
  intro _ s₃ m₃ h₃ hs₃ _
  split
  · refine yields_descend_bind hs₃.ready fun depth => ?_
    apply (places_nameOf (hs₃.deeper depth).ready (by decide) _).bind
    intro name s₄ m₄ h₄ hs₄ hname
    apply Yields.pure hs₄
    rintro _ rfl
    have hrange := hbase.range.merge (hname.range.mono h₃ (le_refl m₄))
    exact ⟨⟨hbase.all, hname.all, hrange.points⟩, hrange⟩
  · refine .pure hs₃ ?_
    rintro _ rfl
    exact hbase.mono (le_refl lo) h₃

theorem places_application (hg : g.Places P) (hs : s.Ready P lo) :
    Parser.Places P lo (application g) s := by
  apply yields_nextIs_bind
  split
  · next h =>
      refine (places_name hs (rest_ne_nil (by simp [of_decide_eq_true h]))).bind
        fun ctor s₁ m₁ h₁ hs₁ hctor => yields_peek_bind ?_
      split
      · apply (places_access hg hs₁.ready).bind
        intro arg s₂ m₂ h₂ hs₂ harg
        apply Yields.pure hs₂
        have hrange := hctor.range.merge harg.range
        exact ⟨⟨hctor.all, harg.all, hrange.points⟩, hrange⟩
      · exact .pure hs₁ ⟨⟨hctor.all, trivial, hctor.all⟩, hctor.range⟩
  · refine ((places_access hg hs).bind fun func s₁ m₁ h₁ hs₁ hfunc => ?_).closing
    refine Yields.loop (I := fun e hi => Tree.Lies P lo hi e)
      (fun func s₂ m₂ h₂ hs₂ hfunc => yields_peek_bind ?_) hs₁ hfunc
    split
    · refine yields_descend_bind hs₂.ready fun depth => ?_
      apply (places_access hg (hs₂.deeper depth).ready).bind
      intro arg s₃ m₃ h₃ hs₃ harg
      apply Yields.pure hs₃
      rintro _ rfl
      have hrange := hfunc.range.merge harg.range
      exact ⟨⟨hfunc.all, harg.all, hrange.points⟩, hrange⟩
    · refine .pure hs₂ ?_
      rintro _ rfl
      exact hfunc

theorem lies_apply {op : String} {place : Range} {left right : Expr} (hplace : place.Points P)
    (hleft : Tree.Lies P lo mid left) (hright : Tree.Lies P mid hi right) :
    Tree.Lies P lo hi (Operator.apply op place left right) := by
  have hrange := hleft.range.merge hright.range
  have hpoints := hrange.points
  unfold Operator.apply
  dsimp only
  split_ifs
  · exact ⟨⟨hleft.all, hright.all, hplace, hpoints⟩, hrange⟩
  · exact ⟨⟨hleft.all, hplace, hright.all, hpoints⟩, hrange⟩
  · exact ⟨⟨⟨hplace, hleft.all, hpoints⟩, hright.all, hpoints⟩, hrange⟩

theorem places_unary (hg : g.Places P) (hs : s.Ready P lo) : Parser.Places P lo (unary g) s := by
  apply yields_nextIsSymbol_bind
  split
  · next h =>
      refine (yields_advance hs (rest_ne_nil_of_isWord h (by decide))).bind
        fun token s₁ m₁ h₁ hs₁ htoken => yields_nextIs_bind ?_
      split
      · next h =>
          apply (yields_advance hs₁.ready (rest_ne_nil (by simp [of_decide_eq_true h]))).bind
          intro number s₂ m₂ h₂ hs₂ hnumber
          apply (yields_integer hs₂ _ hnumber.2.points).bind
          intro _ s₃ m₃ h₃ hs₃ _
          apply Yields.pure hs₃
          have hrange := (htoken.2.merge hnumber.2).mono (le_refl lo) h₃
          exact ⟨hrange.points, hrange⟩
      · have hoperand : Parser.Places P m₁ (nested g.unary) s₁ :=
          Yields.nested hs₁.ready fun depth => hg.unary (hs₁.deeper depth).ready
        apply hoperand.bind
        intro operand s₂ m₂ h₂ hs₂ hoperand
        apply Yields.pure hs₂
        exact lies_apply htoken.2.points ⟨htoken.2.points, htoken.2⟩ hoperand
  · apply yields_nextIsKeyword_bind
    split
    · next h =>
        apply (yields_advance hs (rest_ne_nil_of_isWord h (by decide))).bind
        intro token s₁ m₁ h₁ hs₁ htoken
        apply (places_access hg hs₁.ready).bind
        intro value s₂ m₂ h₂ hs₂ hvalue
        apply Yields.pure hs₂
        have hrange := htoken.2.merge hvalue.range
        exact ⟨⟨hvalue.all, hrange.points⟩, hrange⟩
    · exact places_application hg hs

theorem places_chain (hg : g.Places P) (hs : s.Ready P lo) (least : Nat) :
    Parser.Places P lo (chain g least) s := by
  refine ((places_unary hg hs).bind fun left s₁ m₁ h₁ hs₁ hleft => ?_).closing
  refine Yields.loop (I := fun e hi => Tree.Lies P lo hi e)
    (fun left s₂ m₂ h₂ hs₂ hleft => yields_peek_bind ?_) hs₁ hleft
  have hstop : Yields P m₂ (pure none : Parser (Option Expr)) s₂
      fun o hi => ∀ b, o.getD left = b → Tree.Lies P lo hi b := by
    refine .pure hs₂ ?_
    rintro _ rfl
    exact hleft
  split
  · exact hstop
  · next op hop =>
      split
      · exact hstop
      · have hrest := rest_ne_nil (kind_ne_eof_of_operator hop)
        refine yields_descend_bind hs₂.ready fun depth => ?_
        apply (yields_advance (hs₂.deeper depth).ready hrest).bind
        intro place s₃ m₃ h₃ hs₃ hplace
        apply (hg.chain _ hs₃.ready).bind
        intro right s₄ m₄ h₄ hs₄ hright
        apply Yields.pure hs₄
        rintro _ rfl
        exact lies_apply hplace.2.points hleft (hright.mono h₃ (le_refl m₄))

theorem places_assignment (hg : g.Places P) (hs : s.Ready P lo) :
    Parser.Places P lo (assignment g) s := by
  apply (places_chain hg hs 0).bind
  intro target s₁ m₁ h₁ hs₁ htarget
  apply (yields_skipSymbol hs₁ _).bind
  intro _ s₂ m₂ h₂ hs₂ _
  split
  · apply (hg.statement hs₂.ready).bind
    intro value s₃ m₃ h₃ hs₃ hvalue
    apply Yields.pure hs₃
    have hrange := htarget.range.merge (hvalue.range.mono h₂ (le_refl m₃))
    exact ⟨⟨htarget.all, hvalue.all, hrange.points⟩, hrange⟩
  · exact .pure hs₂ (htarget.mono (le_refl lo) h₂)

/-- The parameters are in front of the body, so the function reaches from them to its end. -/
theorem yields_lambdas (hs : s.Passed P hi) {params : List Pattern} {body : Expr}
    (hparams : ∀ p ∈ params, Tree.Lies P lo mid p) (hbody : body.All (Range.Points P))
    (hrange : body.range.Crosses P lo mid hi) :
    Yields P hi (lambdas params body) s fun e hi' =>
      e.All (Range.Points P) ∧ e.range.Crosses P lo mid hi' := by
  unfold lambdas
  induction params generalizing s with
  | nil => exact .pure hs ⟨hbody, hrange⟩
  | cons param params ih =>
      obtain ⟨hparam, hparams⟩ := List.forall_mem_cons.1 hparams
      rw [List.foldrM_cons]
      apply (ih hs hparams).bind
      intro body s₁ m₁ h₁ hs₁ hbody
      have hwhole := hparam.range.merge_crosses hbody.2
      have hpoints := hwhole.lies.points
      split
      · exact .pure hs₁ ⟨⟨hparam.all, hbody.1, hpoints⟩, hwhole⟩
      · apply (yields_freshName hs₁ _).bind
        intro name s₂ m₂ h₂ hs₂ hname
        apply Yields.pure hs₂
        have hname' : name.range.Points P := hname ▸ hparam.range.points
        refine ⟨⟨hname', ⟨hname', ?_, hpoints⟩, hpoints⟩, hwhole.mono h₂⟩
        exact ⟨hparam.all, hbody.1, hpoints, trivial⟩

theorem yields_parameters (hg : g.Places P) (hs : s.Passed P mid) (hle : lo ≤ mid)
    (stops : List String) {params : List Pattern} (hparams : ∀ p ∈ params, Tree.Lies P lo mid p) :
    Yields P mid (parameters g stops params) s fun params hi =>
      ∀ p ∈ params, Tree.Lies P lo hi p := by
  have hreverse : ∀ p ∈ params.reverse, Tree.Lies P lo mid p :=
    fun p hp => hparams p (List.mem_reverse.1 hp)
  refine (Yields.loop (I := fun params hi => ∀ p ∈ params, Tree.Lies P lo hi p)
    (fun params s₁ m₁ h₁ hs₁ hparams => yields_peek_bind ?_) hs hreverse).bind
    fun params s₁ m₁ h₁ hs₁ hparams => .pure hs₁ fun p hp => hparams p (List.mem_reverse.1 hp)
  split
  · refine .pure hs₁ ?_
    rintro _ rfl
    exact hparams
  · apply (places_patternAtom hg hs₁.ready).bind
    intro p s₂ m₂ h₂ hs₂ hp
    apply Yields.pure hs₂
    rintro _ rfl
    refine List.forall_mem_cons.2 ⟨hp.mono (hle.trans h₁) (le_refl m₂), fun q hq => ?_⟩
    exact (hparams q hq).mono (le_refl lo) h₂

/-- An optional type is read before what follows it. -/
theorem yields_annotation {f : Option TypeExpr → Parser Expr} {Q : Expr → Position → Prop}
    {m : Position} (hg : g.Places P) (hs : s.Passed P m)
    (hf : ∀ type? s₁ m₁, m ≤ m₁ → s₁.Passed P m₁ →
      (∀ t : TypeExpr, type? = some t → t.All (Range.Points P)) → Yields P m₁ (f type?) s₁ Q) :
    Yields P m (do if ← skipSymbol ":" then (some <$> g.type) >>= f else f none) s Q := by
  apply (yields_skipSymbol hs _).bind
  intro _ s₁ m₁ h₁ hs₁ _
  split
  · have htype : Yields P m₁ (some <$> g.type) s₁
        fun type? _ => ∀ t, type? = some t → t.All (Range.Points P) :=
      Yields.map ((hg.type hs₁.ready).mono fun t hi _ ht u hu => Option.some.inj hu ▸ ht.all)
    exact htype.bind fun type? s₂ m₂ h₂ hs₂ ht => hf type? s₂ m₂ (h₁.trans h₂) hs₂ ht
  · exact hf none s₁ m₁ h₁ hs₁ nofun

theorem places_bindingValue (hg : g.Places P) (hs : s.Passed P lo) :
    Parser.Places P lo (bindingValue g) s := by
  apply (yields_parameters hg hs (le_refl lo) _ (List.forall_mem_nil _)).bind
  intro params s₁ m₁ h₁ hs₁ hparams
  apply yields_annotation hg hs₁
  intro type? s₂ m₂ h₂ hs₂ htype
  apply (yields_symbol hs₂.ready _).bind
  intro _ s₃ m₃ h₃ hs₃ _
  apply (hg.expr hs₃.ready).bind
  intro value s₄ m₄ h₄ hs₄ hvalue
  have hcross := (hvalue.range.mono (h₂.trans h₃) (le_refl m₄)).crosses h₁
  cases type? with
  | some type =>
      have hannot : (Expr.annot value type value.range).All (Range.Points P) :=
        ⟨hvalue.all, htype type rfl, hvalue.range.points⟩
      exact (yields_lambdas hs₄ hparams hannot hcross).mono
        fun e hi _ he => ⟨he.1, he.2.lies⟩
  | none =>
      exact (yields_lambdas hs₄ hparams hvalue.all hcross).mono
        fun e hi _ he => ⟨he.1, he.2.lies⟩

theorem places_recBinding (hg : g.Places P) (hs : s.Ready P lo) :
    Parser.Places P lo (recBinding g) s := by
  apply (places_nameOf hs (by decide) _).bind
  intro name s₁ m₁ h₁ hs₁ hname
  apply (places_bindingValue hg hs₁).bind
  intro value s₂ m₂ h₂ hs₂ hvalue
  apply Yields.pure hs₂
  have hrange := hname.range.merge hvalue.range
  exact ⟨⟨hname.all, hvalue.all, hrange.points⟩, hrange⟩

/-- A form that begins with a keyword which was just read. -/
def PlacesForm (P : Position → Prop) (form : Range → Parser Expr) : Prop :=
  ∀ {s lo mid} {start : Range}, s.Passed P mid → start.Lies P lo mid →
    Yields P mid (form start) s fun e hi => Tree.Lies P lo hi e

theorem places_letForm (hg : g.Places P) : PlacesForm P (letForm g) := by
  intro s lo mid start hs hstart
  apply (yields_skipKeyword hs _).bind
  intro _ s₁ m₁ h₁ hs₁ _
  split
  · apply (yields_sepBy1 hs₁ (fun _ _ _ hs => places_recBinding hg hs.ready)
      fun _ _ hs => yields_skipKeyword hs _).bind
    intro bindings s₂ m₂ h₂ hs₂ hbindings
    apply (yields_keyword hs₂.ready _).bind
    intro _ s₃ m₃ h₃ hs₃ _
    apply (hg.expr hs₃.ready).bind
    intro body s₄ m₄ h₄ hs₄ hbody
    apply Yields.pure hs₄
    have hrange := hstart.merge (hbody.range.mono (h₁.trans (h₂.trans h₃)) (le_refl m₄))
    refine ⟨⟨?_, hbody.all, hrange.points⟩, hrange⟩
    exact Expr.allBindings_iff.2 fun b hb => (hbindings b hb).all
  · apply (places_pattern hg hs₁.ready).bind
    intro pat s₂ m₂ h₂ hs₂ hpat
    split
    · apply (places_bindingValue hg hs₂).bind
      intro value s₃ m₃ h₃ hs₃ hvalue
      apply (yields_keyword hs₃.ready _).bind
      intro _ s₄ m₄ h₄ hs₄ _
      apply (hg.expr hs₄.ready).bind
      intro body s₅ m₅ h₅ hs₅ hbody
      apply Yields.pure hs₅
      have hrange := hstart.merge
        (hbody.range.mono (h₁.trans (h₂.trans (h₃.trans h₄))) (le_refl m₅))
      exact ⟨⟨hpat.all, hvalue.all, hbody.all, hrange.points⟩, hrange⟩
    · apply (yields_symbol hs₂.ready _).bind
      intro _ s₃ m₃ h₃ hs₃ _
      apply (hg.expr hs₃.ready).bind
      intro value s₄ m₄ h₄ hs₄ hvalue
      apply (yields_keyword hs₄.ready _).bind
      intro _ s₅ m₅ h₅ hs₅ _
      apply (hg.expr hs₅.ready).bind
      intro body s₆ m₆ h₆ hs₆ hbody
      apply Yields.pure hs₆
      have hafter := h₃.trans (h₄.trans h₅)
      have harm := hpat.range.merge (hbody.range.mono hafter (le_refl m₆))
      have hrange := hstart.merge (hbody.range.mono (h₁.trans (h₂.trans hafter)) (le_refl m₆))
      exact ⟨⟨hvalue.all, ⟨hpat.all, hbody.all, harm.points, trivial⟩, hrange.points⟩, hrange⟩

theorem places_funForm (hg : g.Places P) : PlacesForm P (funForm g) := by
  intro s lo mid start hs hstart
  apply (places_patternAtom hg hs.ready).bind
  intro first s₁ m₁ h₁ hs₁ hfirst
  apply (yields_parameters hg hs₁ h₁ _ (List.forall_mem_singleton.2 hfirst)).bind
  intro params s₂ m₂ h₂ hs₂ hparams
  apply (yields_symbol hs₂.ready _).bind
  intro _ s₃ m₃ h₃ hs₃ _
  apply (hg.expr hs₃.ready).bind
  intro body s₄ m₄ h₄ hs₄ hbody
  have hcross := (hbody.range.mono h₃ (le_refl m₄)).crosses (h₁.trans h₂)
  apply (yields_lambdas hs₄ hparams hbody.all hcross).bind
  intro e s₅ m₅ h₅ hs₅ he
  split
  · have hrange := hstart.merge he.2.lies
    exact .pure hs₅ ⟨⟨he.1.1, he.1.2.1, hrange.points⟩, hrange⟩
  · exact .pure hs₅ ⟨he.1, he.2.lies.mono hstart.le (le_refl m₅)⟩

theorem places_ifForm (hg : g.Places P) : PlacesForm P (ifForm g) := by
  intro s lo mid start hs hstart
  apply (hg.expr hs.ready).bind
  intro cond s₁ m₁ h₁ hs₁ hcond
  apply (yields_keyword hs₁.ready _).bind
  intro _ s₂ m₂ h₂ hs₂ _
  apply (hg.statement hs₂.ready).bind
  intro yes s₃ m₃ h₃ hs₃ hyes
  apply (yields_keyword hs₃.ready _).bind
  intro _ s₄ m₄ h₄ hs₄ _
  apply (hg.statement hs₄.ready).bind
  intro no s₅ m₅ h₅ hs₅ hno
  apply Yields.pure hs₅
  have hrange := hstart.merge (hno.range.mono (h₁.trans (h₂.trans (h₃.trans h₄))) (le_refl m₅))
  exact ⟨⟨hcond.all, hyes.all, hno.all, hrange.points⟩, hrange⟩

theorem places_matchArm (hg : g.Places P) (hs : s.Ready P lo) :
    Parser.Places P lo (matchArm g) s := by
  apply (places_pattern hg hs).bind
  intro pat s₁ m₁ h₁ hs₁ hpat
  apply (yields_symbol hs₁.ready _).bind
  intro _ s₂ m₂ h₂ hs₂ _
  apply (hg.statement hs₂.ready).bind
  intro body s₃ m₃ h₃ hs₃ hbody
  apply Yields.pure hs₃
  have hrange := hpat.range.merge (hbody.range.mono h₂ (le_refl m₃))
  exact ⟨⟨hpat.all, hbody.all, hrange.points⟩, hrange⟩

theorem places_matchForm (hg : g.Places P) : PlacesForm P (matchForm g) := by
  intro s lo mid start hs hstart
  apply (hg.expr hs.ready).bind
  intro scrutinee s₁ m₁ h₁ hs₁ hscrutinee
  apply (yields_keyword hs₁.ready _).bind
  intro _ s₂ m₂ h₂ hs₂ _
  apply (yields_skipSymbol hs₂ _).bind
  intro _ s₃ m₃ h₃ hs₃ _
  refine (yields_sepBy1 hs₃ (fun _ _ _ hs => places_matchArm hg hs.ready)
    fun _ _ hs => yields_skipSymbol hs _).bind
    fun arms s₄ m₄ h₄ hs₄ harms => yields_previousRange_bind ?_
  obtain ⟨a, hprevious⟩ := hs₄.previous
  have hle := h₁.trans (h₂.trans (h₃.trans h₄))
  have hrange := hprevious ▸ (hstart.mono (le_refl lo) hle).merge_end (a := a)
  refine .pure hs₄ ⟨⟨hscrutinee.all, ?_, hrange.points⟩, hrange⟩
  exact Expr.allArms_iff.2 fun arm harm => (harms arm harm).all

theorem places_statement (hg : g.Places P) (hs : s.Ready P lo) :
    Parser.Places P lo (statement g) s := by
  have hform : ∀ {form : Range → Parser Expr} {word : String} {s : Cursor}, s.Ready P lo →
      s.peek.isWord .keyword word = true → PlacesForm P form →
        Parser.Places P lo (advance >>= fun token => form token.range) s := by
    intro form word s hs hword hform
    exact (yields_advance hs (rest_ne_nil_of_isWord hword (by decide))).bind
      fun token s₁ m₁ h₁ hs₁ htoken => hform hs₁ htoken.2
  refine Yields.nested hs fun depth => yields_nextIsKeyword_bind ?_
  have hs' : ({ s with depth := depth } : Cursor).Ready P lo := hs
  split
  · next h => exact hform hs' h (places_letForm hg)
  · apply yields_nextIsKeyword_bind
    split
    · next h => exact hform hs' h (places_funForm hg)
    · apply yields_nextIsKeyword_bind
      split
      · next h => exact hform hs' h (places_ifForm hg)
      · apply yields_nextIsKeyword_bind
        split
        · next h => exact hform hs' h (places_matchForm hg)
        · exact places_assignment hg hs'

/-- Statements before the last one, the latest first, are in front of it. -/
theorem lies_sequence {earlier : List Expr} {last : Expr}
    (hearlier : ∀ e ∈ earlier, Tree.Lies P lo mid e) (hlast : last.All (Range.Points P))
    (hrange : last.range.Crosses P lo mid hi) :
    Tree.Lies P lo hi (earlier.foldl
      (fun rest first => Expr.sequence first rest (first.range.merge rest.range)) last) := by
  induction earlier generalizing last with
  | nil => exact ⟨hlast, hrange.lies⟩
  | cons first earlier ih =>
      obtain ⟨hfirst, hearlier⟩ := List.forall_mem_cons.1 hearlier
      have hwhole := hfirst.range.merge_crosses hrange
      exact ih hearlier ⟨hfirst.all, hlast, hwhole.lies.points⟩ hwhole

theorem places_expr (hg : g.Places P) (hs : s.Ready P lo) : Parser.Places P lo (expr g) s := by
  apply (places_statement hg hs).bind
  intro first s₁ m₁ h₁ hs₁ hfirst
  -- The statements before the last one end where that one begins, or before.
  let Chained : Expr × List Expr → Position → Prop := fun chain hi =>
    ∃ mid, lo ≤ mid ∧ (∀ e ∈ chain.2, Tree.Lies P lo mid e) ∧ Tree.Lies P mid hi chain.1
  have hstart : Chained (first, []) m₁ := ⟨lo, le_refl lo, List.forall_mem_nil _, hfirst⟩
  refine (Yields.loop (I := Chained) (fun chain s₂ m₂ h₂ hs₂ hchain => ?_) hs₁ hstart).bind
    fun chain s₂ m₂ h₂ hs₂ hchain => ?_
  · obtain ⟨last, earlier⟩ := chain
    obtain ⟨mid, hmid, hearlier, hlast⟩ := hchain
    apply (yields_skipSymbol hs₂ _).bind
    intro _ s₃ m₃ h₃ hs₃ _
    split
    · split
      · exact yields_failHere hs₃.ready _
      · apply (places_statement hg hs₃.ready).bind
        intro next s₄ m₄ h₄ hs₄ hnext
        apply Yields.pure hs₄
        rintro _ rfl
        refine ⟨m₃, h₁.trans (h₂.trans h₃), List.forall_mem_cons.2 ⟨?_, fun e he => ?_⟩, hnext⟩
        · exact hlast.mono hmid h₃
        · exact (hearlier e he).mono (le_refl lo) (hlast.range.le.trans h₃)
    · refine .pure hs₃ ?_
      rintro _ rfl
      exact ⟨mid, hmid, hearlier, hlast.mono (le_refl mid) h₃⟩
  · obtain ⟨last, earlier⟩ := chain
    obtain ⟨mid, hmid, hearlier, hlast⟩ := hchain
    exact .pure hs₂ (lies_sequence hearlier hlast.all (hlast.range.crosses hmid))

/-! ### Programs -/

theorem Grammar.Places.unfold (hg : g.Places P) : g.unfold.Places P where
  type := places_type hg
  pattern := places_pattern hg
  patternCons := places_patternCons hg
  expr := places_expr hg
  statement := places_statement hg
  chain least hs := places_chain hg hs least
  unary := places_unary hg
  access := places_access hg
  atom := places_atom hg

theorem places_grammar (n : Nat) : (grammar n).Places P := by
  induction n with
  | zero =>
      constructor
      all_goals intros
      all_goals exact Cursor.Ready.peek ‹_›
  | succ n ih => exact ih.unfold

end FieldML.Parser
