import FieldML.Proofs.Check.TypeExpr

/-!
# Patterns keep the state

Checking a pattern binds its names to types over variables that were handed out.
-/

namespace FieldML.Check

variable {o : CheckOptions} {s : CheckState} {bindings : PatternBindings} {t : Ty}

theorem known_literalType (n : TypeVar) (v : Literal) (range : Range) :
    (literalType v range).Known n := by
  cases v <;> exact .base _ range

theorem idles_bindName (ht : t.Known s.next) (hb : ∀ q ∈ bindings, q.2.Known s.next)
    (name : Ident) :
    Idles (bindName bindings name t) o s fun bs s' => ∀ q ∈ bs, q.2.Known s'.next := by
  unfold bindName
  split
  · exact idles_fail (by simp) _
  · refine .pure fun q hq => ?_
    rcases List.mem_append.1 hq with hq | hq
    · exact hb q hq
    · exact List.mem_singleton.1 hq ▸ ht

/-- A constructor makes a type over new variables. -/
theorem idles_instantiateConstructor (hs : s.variants.Wf) (ctor : Ident) :
    Idles (instantiateConstructor ctor) o s fun r s' =>
      r.1.Known s'.next ∧ ∀ t ∈ r.2, t.Known s'.next := by
  refine idles_get.bind fun a s₁ hidle ha => ?_
  obtain ⟨rfl, rfl⟩ := ha
  refine (idles_liftVariant (Q := fun c _ => s₁.variants.constructor? ctor.text = some c)
    fun c hc => ?_).bind fun c s₂ hidle₂ hc => ?_
  · unfold VariantEnv.lookupConstructor at hc
    split at hc
    · next hfind => exact Except.ok.inj hc ▸ hfind
    · simp at hc
  · refine (idles_mapM (P := fun t s' => t.Known s'.next)
      (fun t s s' ht hidle => ht.mono hidle.next) fun _ _ s₃ _ => idles_fresh ctor.range).bind
      fun types s₃ _ htypes => .pure ⟨.variant htypes.2 _ _, fun t ht => ?_⟩
    obtain ⟨u, hu, rfl⟩ := List.mem_map.1 ht
    obtain ⟨hsimple, hvars⟩ := hs.args ctor.text c hc u hu
    have hinst := hsimple.instantiateParams (V := (· < s₃.next)) (fun v hv => Or.inl (hvars v hv))
      htypes.1.symm fun u hu => ⟨(htypes.2 u hu).simple, (htypes.2 u hu).below⟩
    exact ⟨hinst.1, hinst.2⟩

mutual

theorem keeps_pattern {s : CheckState} {t : Ty} {bindings : PatternBindings} (hs : s.Wf)
    (ht : t.Known s.next) (hb : ∀ q ∈ bindings, q.2.Known s.next) (p : Pattern) :
    Keeps (pattern t bindings p) o s fun r s' => ∀ q ∈ r.2, q.2.Known s'.next := by
  match p with
  | .wildcard _ => exact .pure hs hb
  | .var name =>
      refine ((idles_bindName ht hb name).keeps hs).bind fun bs s₁ _ hs₁ hbs => ?_
      exact .pure hs₁ hbs
  | .literal v range =>
      refine (keeps_unify hs ht (known_literalType _ v range) range).bind fun _ s₁ hlead hs₁ _ => ?_
      exact .pure hs₁ fun q hq => (hb q hq).mono hlead.next
  | .tuple items range =>
      refine ((idles_mapM (P := fun t s' => t.Known s'.next)
        (fun t s s' ht hidle => ht.mono hidle.next) fun item _ _ _ => idles_fresh item.range).keeps
        hs).bind fun types s₁ hlead hs₁ htypes => ?_
      refine (keeps_unify hs₁ (ht.mono hlead.next) (.product htypes.2 range) range).bind
        fun _ s₂ hlead₂ hs₂ _ => ?_
      refine (keeps_patterns hs₂ (fun t ht => (htypes.2 t ht).mono hlead₂.next)
        (fun q hq => (hb q hq).mono (hlead.trans hlead₂).next) items).bind
        fun r s₃ _ hs₃ hr => .pure hs₃ hr
  | .nil range =>
      refine ((idles_fresh range).keeps hs).bind fun elem s₁ hlead hs₁ helem => ?_
      refine (keeps_unify hs₁ (ht.mono hlead.next) (helem.list range) range).bind
        fun _ s₂ hlead₂ hs₂ _ => .pure hs₂ fun q hq => (hb q hq).mono (hlead.trans hlead₂).next
  | .cons head tail range =>
      refine ((idles_fresh head.range).keeps hs).bind fun elem s₁ hlead hs₁ helem => ?_
      have hlist := helem.list range
      refine (keeps_unify hs₁ (ht.mono hlead.next) hlist range).bind fun _ s₂ hlead₂ hs₂ _ => ?_
      refine (keeps_pattern hs₂ (helem.mono hlead₂.next)
        (fun q hq => (hb q hq).mono (hlead.trans hlead₂).next) head).bind
        fun r s₃ hlead₃ hs₃ hr => ?_
      exact (keeps_pattern hs₃ (hlist.mono (hlead₂.trans hlead₃).next) hr tail).bind
        fun r s₄ _ hs₄ hr => .pure hs₄ hr
  | .construct ctor arg range =>
      rw [pattern]
      refine ((idles_instantiateConstructor hs.variants.toWf ctor).keeps hs).bind
        fun (variant, types) s₁ hlead hs₁ hctor => ?_
      obtain ⟨hvariant, htypes⟩ := hctor
      refine (keeps_unify hs₁ (ht.mono hlead.next) hvariant range).bind fun _ s₂ hlead₂ hs₂ _ => ?_
      have hb₂ : ∀ q ∈ bindings, q.2.Known s₂.next :=
        fun q hq => (hb q hq).mono (hlead.trans hlead₂).next
      have htypes₂ : ∀ t ∈ types, t.Known s₂.next := fun t ht => (htypes t ht).mono hlead₂.next
      have harity : ∀ given, Keeps (fail (.constructorArity ctor.text types.length given) range :
          Check (CorePattern × PatternBindings)) o s₂ fun r s' => ∀ q ∈ r.2, q.2.Known s'.next :=
        fun _ => (idles_fail (by simp) range).keeps hs₂
      match arg with
      | none =>
          dsimp only
          split
          · exact .pure hs₂ hb₂
          · exact harity _
      | some arg =>
          match types with
          | [] => exact harity _
          | [type] =>
              exact (keeps_pattern hs₂ (htypes₂ type List.mem_cons_self) hb₂ arg).bind
                fun r s₃ _ hs₃ hr => .pure hs₃ hr
          | type :: type' :: types =>
              match arg with
              | .wildcard _ => exact .pure hs₂ hb₂
              | .tuple items _ =>
                  dsimp only
                  split
                  · exact (keeps_patterns hs₂ htypes₂ hb₂ items).bind
                      fun r s₃ _ hs₃ hr => .pure hs₃ hr
                  · exact harity _
              | .var _ | .literal _ _ | .nil _ | .cons _ _ _ | .construct _ _ _ | .alias _ _ _ =>
                  exact harity _
  | .alias inner name _ =>
      refine (keeps_pattern hs ht hb inner).bind fun r s₁ hlead hs₁ hr => ?_
      refine ((idles_bindName (ht.mono hlead.next) hr name).keeps hs₁).bind
        fun bs s₂ _ hs₂ hbs => .pure hs₂ hbs

theorem keeps_patterns {s : CheckState} {ts : List Ty} {bindings : PatternBindings} (hs : s.Wf)
    (hts : ∀ t ∈ ts, t.Known s.next) (hb : ∀ q ∈ bindings, q.2.Known s.next)
    (ps : List Pattern) :
    Keeps (patterns ts bindings ps) o s fun r s' => ∀ q ∈ r.2, q.2.Known s'.next := by
  match ps with
  | [] => exact .pure hs hb
  | p :: ps =>
      match ts with
      | [] => exact .pure hs hb
      | t :: ts =>
          refine (keeps_pattern hs (hts t List.mem_cons_self) hb p).bind
            fun r s₁ hlead hs₁ hr => ?_
          exact (keeps_patterns hs₁
            (fun u hu => (hts u (List.mem_cons_of_mem _ hu)).mono hlead.next) hr ps).bind
            fun r s₂ _ hs₂ hr => .pure hs₂ hr

end

end FieldML.Check
