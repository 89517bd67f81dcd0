import FieldML.Proofs.Place.Expr

/-!
# Where declarations and programs are

The tree of a program points into its text everywhere, and so does a fault in its form.
-/

namespace FieldML

namespace Parser

variable {P : Position → Prop} {g : Grammar} {s : Cursor} {lo hi mid : Position}

/-- What comes next may be taken as the position from which a parser starts. -/
theorem exists_source_peek (hs : s.Ready P lo) :
    ∃ a b, s.peek.range = .source a b ∧ P a ∧ lo ≤ a ∧ s.Ready P a := by
  unfold Cursor.Ready at hs ⊢
  rw [Cursor.peek]
  cases hrest : s.rest with
  | nil =>
      rw [hrest] at hs
      obtain ⟨hi, a, b, hstop, ha, hlo, hab, hb⟩ := hs
      exact ⟨a, b, hstop, ha, hlo, hi, a, b, hstop, ha, le_refl a, hab, hb⟩
  | cons t rest =>
      rw [hrest] at hs
      obtain ⟨a, b, hrange, ha, hlo, hab, hrest⟩ := hs
      exact ⟨a, b, hrange, ha, hlo, a, b, hrange, ha, le_refl a, hab, hrest⟩

theorem lies_merge_source {a b : Position} {r : Range} (ha : P a) (hlo : lo ≤ a)
    (hr : r.Lies P a hi) : ((Range.source a b).merge r).Lies P lo hi := by
  obtain ⟨c, d, rfl, -, hac, hcd, hd⟩ := hr
  exact ⟨a, d, rfl, ha, hlo, hac.trans hcd, hd⟩

theorem lies_merge_previous {a b : Position} (ha : P a) (hlo : lo ≤ a) (hle : a ≤ hi)
    (hs : s.Passed P hi) : ((Range.source a b).merge s.previous).Lies P lo hi := by
  obtain ⟨c, hprevious⟩ := hs.previous
  rw [hprevious]
  exact ⟨a, hi, rfl, ha, hlo, hle, le_refl hi⟩

/-- Nothing is read if there are no parameters. -/
theorem yields_typeParams_bind {β : Type} {f : List Ident → Parser β}
    {Q : β → Position → Prop} (hs : s.Ready P lo)
    (hf : ∀ params s' hi, lo ≤ hi → s'.Ready P hi → (∀ p ∈ params, p.range.Points P) →
      Yields P hi (f params) s' Q) : Yields P lo (typeParams >>= f) s Q := by
  have hread : ∀ {p : Parser (List Ident)},
      Yields P lo p s (fun params _ => ∀ p ∈ params, p.range.Points P) →
        Yields P lo (p >>= f) s Q := fun hp =>
    hp.bind fun params s' hi hle hs' hparams => hf params s' hi hle hs'.ready hparams
  have hnone : Yields P lo (pure [] >>= f) s Q := by
    rw [pure_bind]
    exact hf [] s lo (le_refl lo) hs (List.forall_mem_nil _)
  unfold typeParams
  rw [bind_assoc]
  apply yields_nextIs_bind
  split
  · next h =>
      refine hread ((places_name hs (rest_ne_nil (by simp [of_decide_eq_true h]))).bind
        fun name s₁ m₁ h₁ hs₁ hname => ?_)
      exact .pure hs₁ (List.forall_mem_singleton.2 hname.all)
  · rw [bind_assoc]
    apply yields_get_bind
    dsimp only
    split
    · next heq =>
        split
        · refine hread ((yields_advance hs (by simp [heq])).bind fun _ s₁ m₁ h₁ hs₁ _ => ?_)
          apply (yields_sepBy1 hs₁ (fun _ _ _ hs => places_nameOf hs.ready (by decide) _)
            fun _ _ hs => yields_skipSymbol hs _).bind
          intro params s₂ m₂ h₂ hs₂ hparams
          apply (yields_symbol hs₂.ready _).bind
          intro _ s₃ m₃ h₃ hs₃ _
          apply Yields.pure hs₃
          exact fun p hp => (hparams p hp).all
        · exact hnone
    · exact hnone

theorem places_ctorDecl (hg : g.Places P) (hs : s.Ready P lo) :
    Parser.Places P lo (ctorDecl g) s := by
  apply (places_nameOf hs (by decide) _).bind
  intro name s₁ m₁ h₁ hs₁ hname
  have hend : ∀ args s₂ m₂, m₁ ≤ m₂ → s₂.Passed P m₂ →
      (∀ t ∈ args, TypeExpr.All (Range.Points P) t) →
        Yields P m₂ (do return ⟨name, args, name.range.merge (← previousRange)⟩ : Parser CtorDecl)
          s₂ fun c hi => Tree.Lies P lo hi c := by
    intro args s₂ m₂ h₂ hs₂ hargs
    obtain ⟨a, hprevious⟩ := hs₂.previous
    have hrange := hprevious ▸ (hname.range.mono (le_refl lo) h₂).merge_end (a := a)
    exact yields_previousRange_bind (.pure hs₂ ⟨⟨hname.all, hargs, hrange.points⟩, hrange⟩)
  apply (yields_skipKeyword hs₁ _).bind
  intro _ s₂ m₂ h₂ hs₂ _
  split
  · apply (yields_sepBy1 hs₂ (fun _ _ _ hs => places_typeApp hg hs.ready)
      fun _ _ hs => yields_skipSymbol hs _).bind
    intro args s₃ m₃ h₃ hs₃ hargs
    exact hend args s₃ m₃ (h₂.trans h₃) hs₃ fun t ht => (hargs t ht).all
  · exact hend [] s₂ m₂ h₂ hs₂ (List.forall_mem_nil _)

theorem places_typeDecl (hg : g.Places P) (hs : s.Ready P lo) :
    Parser.Places P lo (typeDecl g) s := by
  apply yields_peek_bind
  obtain ⟨a, b, hpeek, ha, hlo, hready⟩ := exists_source_peek hs
  rw [hpeek]
  refine Yields.from_le hlo ?_
  refine yields_typeParams_bind hready fun params s₁ m₁ h₁ hs₁ hparams => ?_
  apply (places_nameOf hs₁ (by decide) _).bind
  intro name s₂ m₂ h₂ hs₂ hname
  apply (yields_symbol hs₂.ready _).bind
  intro _ s₃ m₃ h₃ hs₃ _
  have h₀₃ := h₁.trans (h₂.trans h₃)
  refine yields_nextIsSymbol_bind (yields_nextIs_bind ?_)
  split
  · apply (yields_skipSymbol hs₃ _).bind
    intro _ s₄ m₄ h₄ hs₄ _
    refine (yields_sepBy1 hs₄ (fun _ _ _ hs => places_ctorDecl hg hs.ready)
      fun _ _ hs => yields_skipSymbol hs _).bind
      fun ctors s₅ m₅ h₅ hs₅ hctors => yields_previousRange_bind (.pure hs₅ ?_)
    have hrange := lies_merge_previous (b := b) ha hlo (h₀₃.trans (h₄.trans h₅)) hs₅
    exact ⟨⟨hparams, hname.all, fun c hc => (hctors c hc).all, hrange.points⟩, hrange⟩
  · apply (places_type hg hs₃.ready).bind
    intro body s₄ m₄ h₄ hs₄ hbody
    apply Yields.pure hs₄
    have hrange := lies_merge_source (b := b) ha hlo (hbody.range.mono h₀₃ (le_refl m₄))
    exact ⟨⟨hparams, hname.all, hbody.all, hrange.points⟩, hrange⟩

theorem yields_typeGroup (hg : g.Places P) (hs : s.Passed P lo) :
    Yields P lo (typeGroup g) s fun group _ => ∀ decl ∈ group, decl.All (Range.Points P) := by
  apply (yields_sepBy1 hs (fun _ _ _ hs => places_typeDecl hg hs.ready)
    fun _ _ hs => yields_skipKeyword hs _).bind
  intro group s₁ m₁ h₁ hs₁ hgroup
  apply (yields_keyword hs₁.ready _).bind
  intro _ s₂ m₂ h₂ hs₂ _
  apply Yields.pure hs₂
  exact fun decl hdecl => (hgroup decl hdecl).all

/-- Nothing is read before the expression if there are no declarations. -/
theorem yields_program (hg : g.Places P) (hs : s.Ready P lo) :
    Yields P lo (program g) s fun p _ => p.All (Range.Points P) := by
  let Declared : List (List TypeDecl) → Position → Prop := fun groups _ =>
    ∀ group ∈ groups, ∀ decl ∈ group, decl.All (Range.Points P)
  have hbody : ∀ groups s' hi, s'.Ready P hi → Declared groups hi →
      Yields P hi (do return ⟨groups.reverse, ← expr g⟩ : Parser Program) s'
        fun p _ => p.All (Range.Points P) := by
    intro groups s' hi hs' hgroups
    apply (places_expr hg hs').bind
    intro body s₁ m₁ h₁ hs₁ hbody
    apply Yields.pure hs₁
    exact ⟨fun group hgroup => hgroups group (List.mem_reverse.1 hgroup), hbody.all⟩
  let step : List (List TypeDecl) → Parser (Option (List (List TypeDecl))) := fun groups => do
    if ← skipKeyword "type" then return some ((← typeGroup g) :: groups) else return none
  have hstep : ∀ groups s mid, lo ≤ mid → s.Passed P mid → Declared groups mid →
      Yields P mid (step groups) s fun o hi => ∀ b, o.getD groups = b → Declared b hi := by
    intro groups s mid _ hs hgroups
    apply (yields_skipKeyword hs _).bind
    intro _ s₁ m₁ h₁ hs₁ _
    split
    · apply (yields_typeGroup hg hs₁).bind
      intro group s₂ m₂ h₂ hs₂ hgroup
      apply Yields.pure hs₂
      rintro _ rfl
      exact List.forall_mem_cons.2 ⟨hgroup, hgroups⟩
    · refine .pure hs₁ ?_
      rintro _ rfl
      exact hgroups
  change Yields P lo (loop step [] >>= fun groups => do
    return ⟨groups.reverse, ← expr g⟩ : Parser Program) s fun p _ => p.All (Range.Points P)
  by_cases hword : s.peek.isWord .keyword "type" = true
  · have hskip : Yields P lo (skipKeyword "type") s fun b _ => b = true := by
      apply yields_nextIsKeyword_bind
      rw [if_pos hword]
      exact (yields_advance hs (rest_ne_nil_of_isWord hword (by decide))).bind
        fun _ _ _ _ hs₁ _ => .pure hs₁ rfl
    have hfirst : Yields P lo (step []) s fun o hi => ∀ b, o.getD [] = b → Declared b hi := by
      apply hskip.bind
      intro _ s₁ m₁ h₁ hs₁ hb
      subst hb
      apply (yields_typeGroup hg hs₁).bind
      intro group s₂ m₂ h₂ hs₂ hgroup
      apply Yields.pure hs₂
      rintro _ rfl
      exact List.forall_mem_singleton.2 hgroup
    have hloop : Yields P lo (loop step []) s Declared := by
      refine yields_get_bind (hfirst.bind fun o s₁ m₁ h₁ hs₁ ho => ?_)
      cases o with
      | none => exact .pure hs₁ (ho [] rfl)
      | some groups => exact Yields.steps hstep _ h₁ hs₁ (ho groups rfl)
    exact hloop.bind fun groups s' hi _ hs' hgroups => hbody groups s' hi hs'.ready hgroups
  · have hloop : loop step [] s = .ok ([], s) := by
      have hskip := skipKeyword_of_not (eq_false_of_ne_true hword)
      change steps step (s.rest.length + 1) [] s = _
      simp only [steps, step, bind_apply, hskip]
      rfl
    unfold Yields
    rw [bind_apply, hloop]
    exact hbody [] s lo hs (List.forall_mem_nil _)

theorem yields_wholeProgram (hg : g.Places P) (hs : s.Ready P lo) :
    Yields P lo (wholeProgram g) s fun p _ => p.All (Range.Points P) := by
  refine (yields_program hg hs).bind fun p s₁ m₁ h₁ hs₁ hp => yields_nextIs_bind ?_
  split
  · exact .pure hs₁ hp
  · exact yields_failHere hs₁.ready _

end Parser

theorem Cursor.ofTokens_append_eof {words : List Token} (hkinds : ∀ t ∈ words, t.kind ≠ .eof)
    (stop : Range) :
    Cursor.ofTokens (words ++ [⟨.eof, "", stop⟩]) = ⟨words, stop, stop, 0, 0⟩ := by
  have hfind : (words ++ [(⟨.eof, "", stop⟩ : Token)]).find? (·.kind = .eof) =
      some ⟨.eof, "", stop⟩ := by
    rw [List.find?_append, List.find?_eq_none.2 fun t ht => by simpa using hkinds t ht]
    rfl
  have htake : (words ++ [(⟨.eof, "", stop⟩ : Token)]).takeWhile (·.kind ≠ .eof) = words := by
    rw [List.takeWhile_append_of_pos fun t ht => by simpa using hkinds t ht]
    simp
  unfold Cursor.ofTokens
  dsimp only
  rw [hfind, htake]

/-- All ranges of the program that is read from the tokens of a text point into it, and so does the
range of a fault. -/
theorem Program.points_ofTokens {P : Position → Prop} {words : List Token} {stop : Range}
    {lo : Position} (hkinds : ∀ t ∈ words, t.kind ≠ .eof) (horder : Token.InOrder P stop lo words) :
    match Program.ofTokens (words ++ [⟨.eof, "", stop⟩]) with
    | .ok p => p.All (Range.Points P)
    | .error e => e.range.Points P := by
  have hyields : Parser.Yields P lo (Parser.wholeProgram (Parser.grammar (words.length + 1)))
      ⟨words, stop, stop, 0, 0⟩ fun p _ => p.All (Range.Points P) :=
    Parser.yields_wholeProgram (Parser.places_grammar _) horder
  unfold Parser.Yields at hyields
  unfold Program.ofTokens
  simp only [Cursor.ofTokens_append_eof hkinds, bind, Except.bind]
  cases hrun : Parser.wholeProgram (Parser.grammar (words.length + 1))
      ⟨words, stop, stop, 0, 0⟩ with
  | error e =>
      rw [hrun] at hyields
      exact hyields
  | ok r =>
      rw [hrun] at hyields
      obtain ⟨hi, -, -, hall⟩ := hyields
      dsimp only
      split_ifs
      · exact hall.2.range
      · exact hall

end FieldML
