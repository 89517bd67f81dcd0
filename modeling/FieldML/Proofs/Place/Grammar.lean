import FieldML.Parser.Program
import FieldML.Proofs.Place.Parser

/-!
# Where types and patterns are
-/

namespace FieldML.Parser

/-- What a form reads lies where it was read. -/
structure Grammar.Places (P : Position → Prop) (g : Grammar) : Prop where
  type : ∀ {s lo}, s.Ready P lo → Parser.Places P lo g.type s
  pattern : ∀ {s lo}, s.Ready P lo → Parser.Places P lo g.pattern s
  patternCons : ∀ {s lo}, s.Ready P lo → Parser.Places P lo g.patternCons s
  expr : ∀ {s lo}, s.Ready P lo → Parser.Places P lo g.expr s
  statement : ∀ {s lo}, s.Ready P lo → Parser.Places P lo g.statement s
  chain : ∀ {s lo} least, s.Ready P lo → Parser.Places P lo (g.chain least) s
  unary : ∀ {s lo}, s.Ready P lo → Parser.Places P lo g.unary s
  access : ∀ {s lo}, s.Ready P lo → Parser.Places P lo g.access s
  atom : ∀ {s lo}, s.Ready P lo → Parser.Places P lo g.atom s

variable {P : Position → Prop} {g : Grammar} {s : Cursor} {lo hi mid : Position}

/-! ### Types -/

theorem places_typeField (hg : g.Places P) (hs : s.Ready P lo) :
    Parser.Places P lo (typeField g) s := by
  apply (places_nameOf hs (by decide) _).bind
  intro field s₁ m₁ h₁ hs₁ hfield
  apply (yields_symbol hs₁.ready _).bind
  intro _ s₂ m₂ h₂ hs₂ _
  apply (hg.type hs₂.ready).bind
  intro t s₃ m₃ h₃ hs₃ ht
  apply Yields.pure hs₃
  exact ⟨⟨hfield.all, ht.all⟩, hfield.range.merge (ht.range.mono h₂ (le_refl m₃))⟩

theorem yields_typeAtom (hg : g.Places P) (hs : s.Ready P lo) :
    Yields P lo (typeAtom g) s fun ts hi => ∀ t ∈ ts, Tree.Lies P lo hi t := by
  apply yields_peek_bind
  split
  · next hkind =>
      apply (places_name hs (rest_ne_nil (by simp [hkind]))).bind
      intro name s₁ m₁ _ hs₁ hname
      exact .pure hs₁ (List.forall_mem_singleton.2 ⟨hname.all, hname.range⟩)
  · next hkind =>
      apply (places_name hs (rest_ne_nil (by simp [hkind]))).bind
      intro name s₁ m₁ _ hs₁ hname
      exact .pure hs₁ (List.forall_mem_singleton.2 ⟨⟨trivial, hname.all, hname.all⟩, hname.range⟩)
  · next hkind =>
      have hadvance := yields_advance hs (rest_ne_nil (by simp [hkind]))
      split
      · apply hadvance.bind
        intro _ s₁ m₁ h₁ hs₁ _
        apply (yields_sepBy1 hs₁ (fun _ _ _ hs => hg.type hs.ready)
          fun _ _ hs => yields_skipSymbol hs _).bind
        intro items s₂ m₂ h₂ hs₂ hitems
        apply (yields_symbol hs₂.ready _).bind
        intro _ s₃ m₃ h₃ hs₃ _
        apply Yields.pure hs₃
        exact fun t ht => (hitems t ht).mono h₁ h₃
      · split
        · apply hadvance.bind
          intro _ s₁ m₁ h₁ hs₁ htoken
          obtain ⟨rfl, htoken⟩ := htoken
          apply (yields_commaList hs₁ (fun _ _ _ hs => places_typeField hg hs.ready) _).bind
          intro fields s₂ m₂ h₂ hs₂ hfields
          apply (yields_symbol hs₂.ready _).bind
          intro stop s₃ m₃ h₃ hs₃ hstop
          apply Yields.pure hs₃
          have hrange := htoken.merge (hstop.mono h₂ (le_refl m₃))
          refine List.forall_mem_singleton.2 ⟨⟨?_, hrange.points⟩, hrange⟩
          exact TypeExpr.allFields_iff.2 fun f hf => (hfields f hf).all
        · exact yields_failExpected hs _
  · exact yields_failExpected hs _

theorem yields_typeApplications (hs : s.Passed P mid) (hle : lo ≤ mid) {args : List TypeExpr}
    (hargs : ∀ t ∈ args, Tree.Lies P lo mid t) :
    Yields P mid (typeApplications args) s fun ts hi => ∀ t ∈ ts, Tree.Lies P lo hi t := by
  refine Yields.closing (Yields.loop (I := fun ts hi => ∀ t ∈ ts, Tree.Lies P lo hi t)
    (fun args s₁ m₁ h₁ hs₁ hargs₁ => ?_) hs hargs)
  apply yields_nextIs_bind
  split
  · next h =>
      have hrest := rest_ne_nil (s := s₁) (by simp [of_decide_eq_true h])
      refine yields_descend_bind hs₁.ready fun depth => ?_
      apply (places_name (hs₁.deeper depth).ready hrest).bind
      intro name s₂ m₂ h₂ hs₂ hname
      have hrange : (((args.head?.map TypeExpr.range).getD name.range).merge name.range).Lies
          P lo m₂ := by
        cases args with
        | nil =>
            obtain ⟨a, b, heq, ha, hle', hab, hb⟩ := hname.range
            change name.range = _ at heq
            exact ⟨a, b, by simp [heq, Range.merge], ha, (hle.trans h₁).trans hle', hab, hb⟩
        | cons t args => exact (hargs₁ t List.mem_cons_self).range.merge hname.range
      refine .pure hs₂ ?_
      rintro _ rfl
      refine List.forall_mem_singleton.2 ⟨⟨?_, hname.all, hrange.points⟩, hrange⟩
      exact TypeExpr.allList_iff.2 fun t ht => (hargs₁ t ht).all
  · refine .pure hs₁ ?_
    rintro _ rfl
    exact hargs₁

theorem places_typeApp (hg : g.Places P) (hs : s.Ready P lo) : Parser.Places P lo
    (typeApp g) s := by
  apply (yields_typeAtom hg hs).bind
  intro args s₁ m₁ h₁ hs₁ hargs
  apply (yields_typeApplications hs₁ h₁ hargs).bind
  intro ts s₂ m₂ h₂ hs₂ hts
  split
  · exact .pure hs₂ (hts _ List.mem_cons_self)
  · exact yields_failExpected hs₂.ready _

theorem places_typeProduct (hg : g.Places P) (hs : s.Ready P lo) :
    Parser.Places P lo (typeProduct g) s := by
  apply (places_typeApp hg hs).bind
  intro first s₁ m₁ h₁ hs₁ hfirst
  apply yields_nextIsSymbol_bind
  split
  · refine (yields_items h₁ hs₁ (fun _ _ _ hs => places_typeApp hg hs.ready)
      (fun _ _ hs => yields_skipSymbol hs _) (List.forall_mem_singleton.2 hfirst)).bind
      fun items s₂ m₂ h₂ hs₂ hitems => yields_previousRange_bind (.pure hs₂ ?_)
    obtain ⟨a, hprevious⟩ := hs₂.previous
    have hrange := hprevious ▸ (hfirst.range.mono (le_refl lo) h₂).merge_end (a := a)
    refine ⟨⟨?_, hrange.points⟩, hrange⟩
    exact TypeExpr.allList_iff.2 fun t ht => (hitems t (List.mem_reverse.1 ht)).all
  · exact .pure hs₁ hfirst

theorem places_type (hg : g.Places P) (hs : s.Ready P lo) : Parser.Places P lo (type g) s := by
  refine Yields.nested hs fun depth => ?_
  apply (places_typeProduct hg (s := { s with depth := depth }) hs).bind
  intro param s₁ m₁ h₁ hs₁ hparam
  apply (yields_skipSymbol hs₁ _).bind
  intro _ s₂ m₂ h₂ hs₂ _
  split
  · apply (hg.type hs₂.ready).bind
    intro result s₃ m₃ h₃ hs₃ hresult
    apply Yields.pure hs₃
    have hrange := hparam.range.merge (hresult.range.mono h₂ (le_refl m₃))
    exact ⟨⟨hparam.all, hresult.all, hrange.points⟩, hrange⟩
  · exact .pure hs₂ (hparam.mono (le_refl lo) h₂)

/-! ### Patterns -/

theorem lies_listPattern {items : List Pattern} {start stop : Range} (hstart : start.Lies P lo mid)
    (hstop : stop.Lies P mid hi) (hitems : ∀ p ∈ items, Tree.Lies P lo mid p) :
    Tree.Lies P lo hi (listPattern items start stop) := by
  unfold listPattern
  split
  · have hrange := hstart.merge hstop
    exact ⟨hrange.points, hrange⟩
  · next hne =>
      clear hne
      induction items with
      | nil => exact ⟨hstop.points, hstop.mono hstart.le (le_refl hi)⟩
      | cons head items ih =>
          obtain ⟨hhead, hitems⟩ := List.forall_mem_cons.1 hitems
          have hrange := hhead.range.merge hstop
          exact ⟨⟨hhead.all, (ih hitems).all, hrange.points⟩, hrange⟩

theorem places_patternParens (hg : g.Places P) (hs : s.Passed P mid) {start : Range}
    (hstart : start.Lies P lo mid) :
    Yields P mid (patternParens g start) s fun p hi => Tree.Lies P lo hi p := by
  have hlo := hstart.le
  apply yields_nextIsSymbol_bind
  split
  · next h =>
      apply (yields_advance hs.ready (rest_ne_nil_of_isWord h (by decide))).bind
      intro token s₁ m₁ _ hs₁ htoken
      apply Yields.pure hs₁
      have hrange := hstart.merge htoken.2
      exact ⟨hrange.points, hrange⟩
  · apply (hg.pattern hs.ready).bind
    intro first s₁ m₁ h₁ hs₁ hfirst
    apply yields_nextIsSymbol_bind
    split
    · apply (yields_items h₁ hs₁ (fun _ _ _ hs => hg.pattern hs.ready)
        (fun _ _ hs => yields_skipSymbol hs _) (List.forall_mem_singleton.2 hfirst)).bind
      intro items s₂ m₂ h₂ hs₂ hitems
      apply (yields_symbol hs₂.ready _).bind
      intro stop s₃ m₃ h₃ hs₃ hstop
      apply Yields.pure hs₃
      have hrange := hstart.merge (hstop.mono (h₁.trans h₂) (le_refl m₃))
      refine ⟨⟨?_, hrange.points⟩, hrange⟩
      exact Pattern.allList_iff.2 fun p hp => (hitems p (List.mem_reverse.1 hp)).all
    · apply (yields_symbol hs₁.ready _).bind
      intro _ s₂ m₂ h₂ hs₂ _
      apply Yields.pure hs₂
      exact hfirst.mono hlo h₂

theorem places_patternNegative (hs : s.Passed P mid) {start : Range}
    (hstart : start.Lies P lo mid) :
    Yields P mid (patternNegative start) s fun p hi => Tree.Lies P lo hi p := by
  apply yields_nextIs_bind
  split
  · next h =>
      apply (yields_advance hs.ready (rest_ne_nil (by simp [of_decide_eq_true h]))).bind
      intro number s₁ m₁ h₁ hs₁ hnumber
      apply (yields_integer hs₁ _ hnumber.2.points).bind
      intro _ s₂ m₂ h₂ hs₂ _
      apply Yields.pure hs₂
      have hrange := (hstart.merge hnumber.2).mono (le_refl lo) h₂
      exact ⟨hrange.points, hrange⟩
  · exact yields_failExpected hs.ready _

theorem places_patternAtom (hg : g.Places P) (hs : s.Ready P lo) :
    Parser.Places P lo (patternAtom g) s := by
  apply yields_peek_bind
  split
  · next hkind =>
      apply (places_name hs (rest_ne_nil (by simp [hkind]))).bind
      intro name s₁ m₁ _ hs₁ hname
      refine .pure hs₁ ?_
      split
      · exact ⟨hname.all, hname.range⟩
      · exact ⟨hname.all, hname.range⟩
  · next hkind =>
      apply (places_name hs (rest_ne_nil (by simp [hkind]))).bind
      intro name s₁ m₁ _ hs₁ hname
      exact .pure hs₁ ⟨⟨hname.all, trivial, hname.all⟩, hname.range⟩
  · next hkind =>
      apply (yields_advance hs (rest_ne_nil (by simp [hkind]))).bind
      intro _ s₁ m₁ h₁ hs₁ htoken
      obtain ⟨rfl, htoken⟩ := htoken
      apply (yields_integer hs₁ _ htoken.points).bind
      intro _ s₂ m₂ h₂ hs₂ _
      apply Yields.pure hs₂
      exact ⟨htoken.points, htoken.mono (le_refl lo) h₂⟩
  · next hkind =>
      apply (yields_advance hs (rest_ne_nil (by simp [hkind]))).bind
      intro _ s₁ m₁ h₁ hs₁ htoken
      apply Yields.pure hs₁
      obtain ⟨rfl, htoken⟩ := htoken
      exact ⟨htoken.points, htoken⟩
  · next hkind =>
      split
      · apply (yields_advance hs (rest_ne_nil (by simp [hkind]))).bind
        intro _ s₁ m₁ h₁ hs₁ htoken
        apply Yields.pure hs₁
        obtain ⟨rfl, htoken⟩ := htoken
        exact ⟨htoken.points, htoken⟩
      · exact yields_failExpected hs _
  · next hkind =>
      have hadvance := yields_advance hs (rest_ne_nil (by simp [hkind]))
      split
      · apply hadvance.bind
        intro _ s₁ m₁ h₁ hs₁ htoken
        obtain ⟨rfl, htoken⟩ := htoken
        exact places_patternNegative hs₁ htoken
      · split
        · apply hadvance.bind
          intro _ s₁ m₁ h₁ hs₁ htoken
          obtain ⟨rfl, htoken⟩ := htoken
          exact places_patternParens hg hs₁ htoken
        · split
          · apply hadvance.bind
            intro _ s₁ m₁ h₁ hs₁ htoken
            obtain ⟨rfl, htoken⟩ := htoken
            apply (yields_commaList hs₁ (fun _ _ _ hs => hg.pattern hs.ready) _).bind
            intro items s₂ m₂ h₂ hs₂ hitems
            apply (yields_symbol hs₂.ready _).bind
            intro stop s₃ m₃ h₃ hs₃ hstop
            apply Yields.pure hs₃
            exact lies_listPattern (htoken.mono (le_refl lo) h₂) hstop
              fun p hp => (hitems p hp).mono h₁ (le_refl m₂)
          · exact yields_failExpected hs _
  · exact yields_failExpected hs _

theorem places_patternCtor (hg : g.Places P) (hs : s.Ready P lo) :
    Parser.Places P lo (patternCtor g) s := by
  apply yields_nextIs_bind
  split
  · next h =>
      refine (places_name hs (rest_ne_nil (by simp [of_decide_eq_true h]))).bind
        fun ctor s₁ m₁ h₁ hs₁ hctor => yields_peek_bind ?_
      split
      · apply (places_patternAtom hg hs₁.ready).bind
        intro arg s₂ m₂ h₂ hs₂ harg
        apply Yields.pure hs₂
        have hrange := hctor.range.merge harg.range
        exact ⟨⟨hctor.all, harg.all, hrange.points⟩, hrange⟩
      · exact .pure hs₁ ⟨⟨hctor.all, trivial, hctor.all⟩, hctor.range⟩
  · exact places_patternAtom hg hs

theorem places_patternCons (hg : g.Places P) (hs : s.Ready P lo) :
    Parser.Places P lo (patternCons g) s := by
  apply (places_patternCtor hg hs).bind
  intro head s₁ m₁ h₁ hs₁ hhead
  apply (yields_skipSymbol hs₁ _).bind
  intro _ s₂ m₂ h₂ hs₂ _
  split
  · have htail : Parser.Places P m₂ (nested g.patternCons) s₂ :=
      Yields.nested hs₂.ready fun depth => hg.patternCons (hs₂.deeper depth).ready
    apply htail.bind
    intro tail s₃ m₃ h₃ hs₃ htail
    apply Yields.pure hs₃
    have hrange := hhead.range.merge (htail.range.mono h₂ (le_refl m₃))
    exact ⟨⟨hhead.all, htail.all, hrange.points⟩, hrange⟩
  · exact .pure hs₂ (hhead.mono (le_refl lo) h₂)

theorem places_pattern (hg : g.Places P) (hs : s.Ready P lo) :
    Parser.Places P lo (pattern g) s := by
  refine Yields.nested hs fun depth => ?_
  apply (places_patternCons hg (s := { s with depth := depth }) hs).bind
  intro inner s₁ m₁ h₁ hs₁ hinner
  apply (yields_skipKeyword hs₁ _).bind
  intro _ s₂ m₂ h₂ hs₂ _
  split
  · apply (places_nameOf hs₂.ready (by decide) _).bind
    intro name s₃ m₃ h₃ hs₃ hname
    apply Yields.pure hs₃
    have hrange := hinner.range.merge (hname.range.mono h₂ (le_refl m₃))
    exact ⟨⟨hinner.all, hname.all, hrange.points⟩, hrange⟩
  · exact .pure hs₂ (hinner.mono (le_refl lo) h₂)

end FieldML.Parser
