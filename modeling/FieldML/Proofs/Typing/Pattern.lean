import FieldML.Proofs.Typing.Constructor

/-!
# Types of patterns

A pattern is accepted against a type exactly where the typing rules allow it, and it binds names of
the types that the rules give them.
-/

namespace FieldML

open Check

variable {sig : VariantEnv} {V : TypeVar → Prop} {n m : TypeVar} {t variant : Ty}
  {types args : List Ty} {o : CheckOptions} {s s' s₁ : CheckState} {σ σ' : Instantiation}
  {τ : MonoTy} {τs : List MonoTy} {range : Range} {c : CtorType} {ctor : Ident}
  {before after : PatternBindings} {bs cs : List (String × MonoTy)}

theorem hasPatterns_wildcards {sig : Signature} (range : Range) (hlength : τs.length = n) :
    HasPatterns sig (List.replicate n (.wildcard range)) τs [] := by
  induction τs generalizing n with
  | nil =>
      obtain rfl : n = 0 := hlength.symm
      exact .nil
  | cons τ τs ih =>
      obtain rfl : n = τs.length + 1 := hlength.symm
      rw [List.replicate_succ]
      exact .cons (.wildcard range τ) (ih rfl)

theorem HasPatterns.eq_nil_of_wildcards {sig : Signature}
    (h : HasPatterns sig (List.replicate n (.wildcard range)) τs bs) : bs = [] := by
  induction n generalizing τs bs with
  | zero =>
      cases h
      rfl
  | succ n ih =>
      rw [List.replicate_succ] at h
      cases h with
      | cons hitem hitems =>
          cases hitem
          rw [ih hitems, List.append_nil]

theorem HasPatterns.length_eq {sig : Signature} {ps : List Pattern}
    (h : HasPatterns sig ps τs bs) : ps.length = τs.length := by
  induction ps generalizing τs bs with
  | nil =>
      cases h
      rfl
  | cons p ps ih =>
      cases h with
      | cons _ hitems => simp [ih hitems]

namespace Check

theorem mono_literalType (v : Literal) (range : Range) : (literalType v range).mono σ = v.type := by
  cases v <;> rfl

theorem live_literalType (v : Literal) (range : Range) : (literalType v range).Live V n := by
  cases v <;> exact .base _ range

/-- What the types of bound names mean. -/
abbrev monoBindings (σ : Instantiation) (bindings : PatternBindings) : List (String × MonoTy) :=
  bindings.map fun p => (p.1, p.2.mono σ)

theorem names_monoBindings (bindings : PatternBindings) :
    Fields.names (monoBindings σ bindings) = Fields.names bindings := Fields.names_map _ _

theorem monoBindings_append (before after : PatternBindings) :
    monoBindings σ (before ++ after) = monoBindings σ before ++ monoBindings σ after :=
  List.map_append

theorem monoBindings_eq (h : ∀ p ∈ before, p.2.Live V n) (hsame : ∀ v < n, σ' v = σ v) :
    monoBindings σ' before = monoBindings σ before :=
  List.map_congr_left fun p hp => by rw [(h p hp).mono_eq hsame]

/-- To some names others were added, none of which was there, and whose types have the property. -/
def Added (V : TypeVar → Prop) (s : CheckState) (before after : PatternBindings)
    (P : Instantiation → List (String × MonoTy) → Prop) : Prop :=
  ∃ new, after = before ++ new ∧ (∀ p ∈ new, p.2.Live V s.next) ∧
    ((Fields.names before).Nodup → (Fields.names after).Nodup) ∧
    ∀ σ, s.solver.subst.AgreesWith σ → P σ (monoBindings σ new)

namespace Added

variable {P P' : Instantiation → List (String × MonoTy) → Prop}

theorem nil (h : ∀ σ, s.solver.subst.AgreesWith σ → P σ []) : Added V s before before P :=
  ⟨[], (List.append_nil _).symm, by simp, id, h⟩

theorem live (h : Added V s before after P) (hbefore : ∀ p ∈ before, p.2.Live V s.next) :
    ∀ p ∈ after, p.2.Live V s.next := by
  obtain ⟨new, rfl, hlive, -, -⟩ := h
  exact fun p hp => (List.mem_append.1 hp).elim (hbefore p) (hlive p)

theorem imp (h : Added V s before after P)
    (himp : ∀ σ bs, s.solver.subst.AgreesWith σ → P σ bs → P' σ bs) :
    Added V s before after P' := by
  obtain ⟨new, heq, hlive, hnodup, hP⟩ := h
  exact ⟨new, heq, hlive, hnodup, fun σ hσ => himp σ _ hσ (hP σ hσ)⟩

theorem mono (h : Added V s before after P) (hgrows : s.Grows sig V s') :
    Added V s' before after P := by
  obtain ⟨new, heq, hlive, hnodup, hP⟩ := h
  exact ⟨new, heq, fun p hp => (hlive p hp).mono hgrows.next, hnodup,
    fun σ hσ => hP σ (hgrows.agreesWith hσ)⟩

theorem trans {mid : PatternBindings} (h : Added V s before mid P) (h' : Added V s mid after P') :
    Added V s before after fun σ bs => ∃ bs₁ bs₂, bs = bs₁ ++ bs₂ ∧ P σ bs₁ ∧ P' σ bs₂ := by
  obtain ⟨new, rfl, hlive, hnodup, hP⟩ := h
  obtain ⟨new', rfl, hlive', hnodup', hP'⟩ := h'
  refine ⟨new ++ new', List.append_assoc _ _ _, fun p hp => ?_, fun h => hnodup' (hnodup h),
    fun σ hσ => ⟨_, _, List.map_append, hP σ hσ, hP' σ hσ⟩⟩
  exact (List.mem_append.1 hp).elim (hlive p) (hlive' p)

end Added

theorem infers_bindName (hs : s.Live sig V) (ht : t.Live V s.next) (before : PatternBindings)
    (name : Ident) : Infers sig V (bindName before name t) o s fun after s' =>
      Added V s' before after fun σ bs => bs = [(name.text, t.mono σ)] := by
  unfold bindName
  split
  · exact .fail _ _
  · next hnone =>
      refine .pure hs ⟨[(name.text, t)], rfl, by simp [ht], fun hnodup => ?_, fun _ _ => rfl⟩
      rw [Fields.names, List.map_append, List.nodup_append]
      refine ⟨hnodup, by simp, fun x hx y hy => ?_⟩
      obtain rfl : y = name.text := by simpa using hy
      obtain ⟨p, hp, rfl⟩ := List.mem_map.1 hx
      rintro heq
      exact hnone (List.any_eq_true.2 ⟨p, hp, by simpa using heq⟩)

theorem achieves_bindName (hσ : s.solver.subst.AgreesWith σ) {name : Ident}
    (hname : name.text ∉ Fields.names before) :
    Achieves (bindName before name t) o s σ fun after _ σ' =>
      after = before ++ [(name.text, t)] ∧ σ' = σ := by
  unfold bindName
  rw [if_neg]
  · exact .pure hσ ⟨rfl, rfl⟩
  · intro hany
    obtain ⟨p, hp, heq⟩ := List.any_eq_true.1 hany
    exact hname (List.mem_map.2 ⟨p, hp, by simpa using heq⟩)

/-- Once the types of its arguments are those of the rules, a constructor pattern has its type if
its argument can be spread. -/
theorem Used.hasPattern (hused : Used sig V ctor variant types n c args)
    (heq : t.mono σ = variant.mono σ) {arg : Option Pattern} {items : List Pattern}
    (hspread : Pattern.spread? types.length arg = some items)
    (hitems : HasPatterns sig.signature items (Ty.monos σ types) bs) (range : Range) :
    HasPattern sig.signature (.construct ctor arg range) (t.mono σ) bs := by
  rw [heq, hused.variant_eq, Ty.mono_variant]
  rw [hused.means] at hitems
  exact .construct range hused.found (by simp [hused.params])
    (hused.length ▸ hspread) hitems

mutual

/-- Whatever a pattern is checked against, it has that type by the rules. -/
theorem infers_pattern {s : CheckState} {t : Ty} (hflat : sig.Flat) (hs : s.Live sig V)
    (ht : t.Live V s.next) (before : PatternBindings) (p : Pattern) :
    Infers sig V (pattern t before p) o s fun r s' =>
      Added V s' before r.2 fun σ bs => HasPattern sig.signature p (t.mono σ) bs := by
  match p with
  | .wildcard range => exact .pure hs (.nil fun σ _ => .wildcard range _)
  | .var name =>
      refine (infers_bindName hs ht before name).bind fun after s₁ h₁ hafter => ?_
      refine .pure h₁.live (hafter.imp fun σ bs _ hbs => ?_)
      exact hbs ▸ .var name _
  | .literal v range =>
      refine (infers_unify hs ht (live_literalType v range) range).bind fun _ s₁ h₁ heq => ?_
      refine .pure h₁.live (.nil fun σ hσ => ?_)
      rw [heq σ hσ, mono_literalType]
      exact .literal v range
  | .tuple items range =>
      refine (infers_freshes hs items Pattern.range).bind fun types s₁ h₁ ⟨hlength, htypes⟩ => ?_
      refine (infers_unify h₁.live (ht.mono h₁.next) (.product htypes range) range).bind
        fun _ s₂ h₂ heq => ?_
      refine (infers_patterns hflat h₂.live (fun u hu => (htypes u hu).mono h₂.next) before items
        hlength.symm).bind fun r s₃ h₃ hr => ?_
      refine .pure h₃.live (hr.imp fun σ bs hσ hbs => ?_)
      rw [heq σ (h₃.agreesWith hσ), Ty.mono_product]
      exact .tuple range hbs
  | .nil range =>
      refine (infers_fresh hs range).bind fun elem s₁ h₁ helem => ?_
      refine (infers_unify h₁.live (ht.mono h₁.next) (helem.list range) range).bind
        fun _ s₂ h₂ heq => .pure h₂.live (.nil fun σ hσ => ?_)
      rw [heq σ hσ, Ty.mono_list]
      exact .nil range _
  | .cons head tail range =>
      refine (infers_fresh hs head.range).bind fun elem s₁ h₁ helem => ?_
      refine (infers_unify h₁.live (ht.mono h₁.next) (helem.list range) range).bind
        fun _ s₂ h₂ heq => ?_
      refine (infers_pattern hflat h₂.live (helem.mono h₂.next) before head).bind
        fun r s₃ h₃ hr => ?_
      refine (infers_pattern hflat h₃.live ((helem.mono (h₂.next.trans h₃.next)).list range) r.2
        tail).bind fun r' s₄ h₄ hr' => ?_
      refine .pure h₄.live (((hr.mono h₄).trans hr').imp ?_)
      rintro σ _ hσ ⟨bs, cs, rfl, hbs, hcs⟩
      rw [heq σ (h₃.agreesWith (h₄.agreesWith hσ)), Ty.mono_list]
      exact .cons range hbs hcs
  | .construct ctor arg range =>
      rw [pattern]
      refine (infers_instantiateConstructor hs hflat ctor).bind
        fun (variant, types) s₁ h₁ ⟨c, args, hused⟩ => ?_
      refine (infers_unify h₁.live (ht.mono h₁.next) hused.variant_live range).bind
        fun _ s₂ h₂ heq => ?_
      have hlive : ∀ u ∈ types, u.Live V s₂.next := fun u hu => (hused.live u hu).mono h₂.next
      -- What is left is to spread the argument, and to check its parts.
      have hfinish : ∀ {s₃ after items}, s₂.Grows sig V s₃ →
          Pattern.spread? types.length arg = some items →
          (Added V s₃ before after fun σ bs =>
            HasPatterns sig.signature items (Ty.monos σ types) bs) →
          Added V s₃ before after fun σ bs =>
            HasPattern sig.signature (.construct ctor arg range) (t.mono σ) bs :=
        fun h₃ hspread hafter => hafter.imp fun σ bs hσ hbs =>
          hused.hasPattern (heq σ (h₃.agreesWith hσ)) hspread hbs range
      match arg, types with
      | none, [] =>
          exact .pure h₂.live (hfinish (.refl h₂.live) rfl (.nil fun _ _ => .nil))
      | none, _ :: _ => exact .fail _ _
      | some arg, [] => exact .fail _ _
      | some arg, [type] =>
          refine (infers_pattern hflat h₂.live (hlive type List.mem_cons_self) before arg).bind
            fun r s₃ h₃ hr => .pure h₃.live (hfinish h₃ rfl (hr.imp fun σ bs _ hbs => ?_))
          simpa using HasPatterns.cons hbs .nil
      | some (.wildcard range'), type :: type' :: types =>
          exact .pure h₂.live (hfinish (.refl h₂.live) rfl
            (.nil fun σ _ => hasPatterns_wildcards range' (by simp [Ty.monos])))
      | some (.tuple items range'), type :: type' :: types =>
          dsimp only
          split
          · next hlength =>
              refine (infers_patterns hflat h₂.live hlive before items hlength).bind
                fun r s₃ h₃ hr => .pure h₃.live (hfinish h₃ ?_ hr)
              simp only [List.length_cons] at hlength ⊢
              simp [Pattern.spread?, hlength]
          · exact .fail _ _
      | some (.var _), _ :: _ :: _ | some (.literal _ _), _ :: _ :: _
      | some (.nil _), _ :: _ :: _ | some (.cons _ _ _), _ :: _ :: _
      | some (.construct _ _ _), _ :: _ :: _ | some (.alias _ _ _), _ :: _ :: _ =>
          exact .fail _ _
  | .alias inner name range =>
      refine (infers_pattern hflat hs ht before inner).bind fun r s₁ h₁ hr => ?_
      refine (infers_bindName h₁.live (ht.mono h₁.next) r.2 name).bind fun after s₂ h₂ hafter => ?_
      refine .pure h₂.live (((hr.mono h₂).trans hafter).imp ?_)
      rintro σ _ hσ ⟨bs, _, rfl, hbs, rfl⟩
      exact .alias name range hbs

theorem infers_patterns {s : CheckState} {types : List Ty} (hflat : sig.Flat) (hs : s.Live sig V)
    (htypes : ∀ t ∈ types, t.Live V s.next) (before : PatternBindings) (ps : List Pattern)
    (hlength : ps.length = types.length) :
    Infers sig V (patterns types before ps) o s fun r s' =>
      Added V s' before r.2 fun σ bs => HasPatterns sig.signature ps (Ty.monos σ types) bs := by
  match ps, types with
  | [], [] => exact .pure hs (.nil fun _ _ => .nil)
  | p :: ps, t :: types =>
      obtain ⟨ht, htypes⟩ := List.forall_mem_cons.1 htypes
      refine (infers_pattern hflat hs ht before p).bind fun r s₁ h₁ hr => ?_
      refine (infers_patterns hflat h₁.live (fun u hu => (htypes u hu).mono h₁.next) r.2 ps
        (by simpa using hlength)).bind fun r' s₂ h₂ hr' => ?_
      refine .pure h₂.live (((hr.mono h₂).trans hr').imp ?_)
      rintro σ _ hσ ⟨bs, cs, rfl, hbs, hcs⟩
      exact .cons hbs hcs

end

theorem names_of_monoBindings (h : monoBindings σ' after = monoBindings σ before ++ bs) :
    Fields.names after = Fields.names before ++ Fields.names bs := by
  rw [← names_monoBindings (σ := σ') after, h, Fields.names, List.map_append]
  exact congrArg (· ++ _) (names_monoBindings before)

mutual

/-- A pattern that has a type by the rules is accepted against it. -/
theorem achieves_pattern {s : CheckState} {t : Ty} {before : PatternBindings} {σ : Instantiation}
    {τ : MonoTy} {bs : List (String × MonoTy)} (hflat : sig.Flat) (hs : s.Live sig V)
    (ht : t.Live V s.next) (hbefore : ∀ p ∈ before, p.2.Live V s.next)
    (hσ : s.solver.subst.AgreesWith σ) (hτ : t.mono σ = τ) (p : Pattern)
    (h : HasPattern sig.signature p τ bs)
    (hnodup : (Fields.names before ++ Fields.names bs).Nodup) :
    Achieves (pattern t before p) o s σ fun r _ σ' =>
      monoBindings σ' r.2 = monoBindings σ before ++ bs := by
  match p with
  | .wildcard range =>
      cases h
      exact .pure hσ (List.append_nil _).symm
  | .var name =>
      cases h
      refine (achieves_bindName hσ ?_).bind (infers_bindName hs ht before name)
        fun after s₁ σ₁ h₁ _ hσ₁ _ ⟨hafter, heq⟩ => .pure hσ₁ ?_
      · simpa using (List.nodup_middle.1 hnodup).notMem
      · simp [hafter, heq, hτ]
  | .literal v range =>
      cases h
      have hlit := live_literalType (V := V) (n := s.next) v range
      exact (achieves_unify hs ht hlit hσ (hτ.trans (mono_literalType v range).symm) range).bind
        (infers_unify hs ht hlit range) fun _ s₁ σ₁ h₁ _ hσ₁ _ heq =>
          .pure hσ₁ (by rw [heq, List.append_nil])
  | .tuple items range =>
      cases h with
      | @tuple _ τs _ _ hitems =>
          refine (achieves_freshes hs hσ Pattern.range hitems.length_eq.symm).bind
            (infers_freshes hs items Pattern.range)
            fun types s₁ σ₁ h₁ ⟨hlength, htypes⟩ hσ₁ hsame₁ hmonos => ?_
          have ht₁ := ht.mono h₁.next
          have hproduct := Ty.Live.product htypes range
          refine (achieves_unify h₁.live ht₁ hproduct hσ₁ ?_ range).bind
            (infers_unify h₁.live ht₁ hproduct range) fun _ s₂ σ₂ h₂ _ hσ₂ _ heq₂ => ?_
          · rw [ht.mono_eq hsame₁, hτ, Ty.mono_product, ← hmonos]
          subst heq₂
          have htypes₂ : ∀ u ∈ types, u.Live V s₂.next := fun u hu => (htypes u hu).mono h₂.next
          have hbefore₂ : ∀ p ∈ before, p.2.Live V s₂.next := fun p hp =>
            (hbefore p hp).mono (h₁.next.trans h₂.next)
          refine (achieves_patterns hflat h₂.live htypes₂ hbefore₂ hσ₂ hmonos items hitems
            hnodup).bind (infers_patterns hflat h₂.live htypes₂ before items hlength.symm)
            fun r s₃ σ₃ _ _ hσ₃ _ hr => .pure hσ₃ ?_
          rw [hr, monoBindings_eq hbefore hsame₁]
  | .nil range =>
      cases h with
      | nil _ τ =>
          refine (achieves_fresh hs hσ range τ).bind (infers_fresh hs range)
            fun elem s₁ σ₁ h₁ helem hσ₁ hsame₁ hmono => ?_
          have ht₁ := ht.mono h₁.next
          refine (achieves_unify h₁.live ht₁ (helem.list range) hσ₁ ?_ range).bind
            (infers_unify h₁.live ht₁ (helem.list range) range)
            fun _ s₂ σ₂ h₂ _ hσ₂ _ heq₂ => .pure hσ₂ ?_
          · rw [ht.mono_eq hsame₁, hτ, Ty.mono_list, hmono]
          rw [heq₂, monoBindings_eq hbefore hsame₁, List.append_nil]
  | .cons head tail range =>
      cases h with
      | @cons _ _ τ bs cs _ hhead htail =>
          refine (achieves_fresh hs hσ head.range τ).bind (infers_fresh hs head.range)
            fun elem s₁ σ₁ h₁ helem hσ₁ hsame₁ hmono => ?_
          have ht₁ := ht.mono h₁.next
          refine (achieves_unify h₁.live ht₁ (helem.list range) hσ₁ ?_ range).bind
            (infers_unify h₁.live ht₁ (helem.list range) range) fun _ s₂ σ₂ h₂ _ hσ₂ _ heq₂ => ?_
          · rw [ht.mono_eq hsame₁, hτ, Ty.mono_list, hmono]
          subst heq₂
          have hbefore₂ : ∀ p ∈ before, p.2.Live V s₂.next := fun p hp =>
            (hbefore p hp).mono (h₁.next.trans h₂.next)
          have hnames : (Fields.names before ++ (Fields.names bs ++ Fields.names cs)).Nodup := by
            simpa [Fields.names] using hnodup
          refine (achieves_pattern hflat h₂.live (helem.mono h₂.next) hbefore₂ hσ₂ hmono head hhead
            ?_).bind (infers_pattern hflat h₂.live (helem.mono h₂.next) before head)
            fun r s₃ σ₃ h₃ hadded hσ₃ hsame₃ hr => ?_
          · rw [← List.append_assoc] at hnames
            exact hnames.of_append_left
          have hlist := (helem.mono (h₂.next.trans h₃.next)).list range
          have hmono₃ : (Ty.list elem range).mono σ₃ = .list τ := by
            rw [Ty.mono_list, helem.mono_eq fun v hv => hsame₃ v (hv.trans_le h₂.next), hmono]
          refine (achieves_pattern hflat h₃.live hlist (hadded.live fun p hp =>
            (hbefore₂ p hp).mono h₃.next) hσ₃ hmono₃ tail htail ?_).bind
            (infers_pattern hflat h₃.live hlist r.2 tail)
            fun r' s₄ σ₄ _ _ hσ₄ _ hr' => .pure hσ₄ ?_
          · rw [names_of_monoBindings hr, List.append_assoc]
            exact hnames
          rw [hr', hr, monoBindings_eq hbefore hsame₁, List.append_assoc]
  | .construct ctor arg range =>
      cases h with
      | @construct _ c _ items τs _ _ hctor hparams harg hitems =>
          rw [pattern]
          refine (achieves_instantiateConstructor hs hflat hσ hctor hparams).bind
            (infers_instantiateConstructor hs hflat ctor)
            fun (variant, types) s₁ σ₁ h₁ ⟨c', args, hused⟩ hσ₁ hsame₁
              ⟨hvariant, htypes, hlength⟩ => ?_
          have ht₁ := ht.mono h₁.next
          refine (achieves_unify h₁.live ht₁ hused.variant_live hσ₁ ?_ range).bind
            (infers_unify h₁.live ht₁ hused.variant_live range)
            fun _ s₂ σ₂ h₂ _ hσ₂ _ heq₂ => ?_
          · rw [ht.mono_eq hsame₁, hτ, hvariant]
          subst heq₂
          have hlive : ∀ u ∈ types, u.Live V s₂.next := fun u hu => (hused.live u hu).mono h₂.next
          have hbefore₂ : ∀ p ∈ before, p.2.Live V s₂.next := fun p hp =>
            (hbefore p hp).mono (h₁.next.trans h₂.next)
          rw [← hlength] at harg
          rw [← htypes] at hitems
          rw [← monoBindings_eq hbefore hsame₁]
          match arg, types with
          | none, [] =>
              obtain rfl : [] = items := by simpa [Pattern.spread?] using harg
              cases hitems
              exact .pure hσ₂ (List.append_nil _).symm
          | none, _ :: _ => simp [Pattern.spread?] at harg
          | some arg, [] => simp [Pattern.spread?] at harg
          | some arg, [type] =>
              obtain rfl : [arg] = items := by simpa [Pattern.spread?] using harg
              cases hitems with
              | @cons _ _ _ _ bs cs hitem hrest =>
                  cases hrest
                  rw [List.append_nil] at hnodup ⊢
                  have htype := hlive type List.mem_cons_self
                  exact (achieves_pattern hflat h₂.live htype hbefore₂ hσ₂ rfl arg hitem
                    hnodup).bind (infers_pattern hflat h₂.live htype before arg)
                    fun r s₃ σ₃ _ _ hσ₃ _ hr => .pure hσ₃ hr
          | some (.wildcard range'), type :: type' :: types =>
              obtain rfl : List.replicate (types.length + 2) (.wildcard range') = items := by
                simpa [Pattern.spread?] using harg
              obtain rfl := hitems.eq_nil_of_wildcards
              exact .pure hσ₂ (List.append_nil _).symm
          | some (.tuple ps range'), type :: type' :: types =>
              obtain ⟨hps, rfl⟩ : ps.length = types.length + 2 ∧ ps = items := by
                simpa [Pattern.spread?] using harg
              have hps' : ps.length = (type :: type' :: types).length := by simpa using hps
              dsimp only
              rw [if_pos hps']
              exact (achieves_patterns hflat h₂.live hlive hbefore₂ hσ₂ rfl ps hitems hnodup).bind
                (infers_patterns hflat h₂.live hlive before ps hps')
                fun r s₃ σ₃ _ _ hσ₃ _ hr => .pure hσ₃ hr
          | some (.var _), _ :: _ :: _ | some (.literal _ _), _ :: _ :: _
          | some (.nil _), _ :: _ :: _ | some (.cons _ _ _), _ :: _ :: _
          | some (.construct _ _ _), _ :: _ :: _ | some (.alias _ _ _), _ :: _ :: _ =>
              simp [Pattern.spread?] at harg
  | .alias inner name range =>
      match h with
      | @HasPattern.alias _ _ _ bs _ _ hinner =>
          have hnames : (Fields.names before ++ (Fields.names bs ++ [name.text])).Nodup := by
            simpa [Fields.names] using hnodup
          rw [← List.append_assoc] at hnames
          refine (achieves_pattern hflat hs ht hbefore hσ hτ inner hinner
            hnames.of_append_left).bind (infers_pattern hflat hs ht before inner)
            fun r s₁ σ₁ h₁ hadded hσ₁ hsame₁ hr => ?_
          refine (achieves_bindName hσ₁ (t := t) ?_).bind
            (infers_bindName h₁.live (ht.mono h₁.next) r.2 name)
            fun after s₂ σ₂ _ _ hσ₂ _ ⟨hafter, heq₂⟩ => .pure hσ₂ ?_
          · rw [names_of_monoBindings hr]
            exact fun hmem => (List.nodup_append.1 hnames).2.2 _ hmem _ (by simp) rfl
          · subst heq₂
            rw [hafter, monoBindings_append, hr, List.append_assoc]
            simp [ht.mono_eq hsame₁, hτ]

theorem achieves_patterns {s : CheckState} {types : List Ty} {before : PatternBindings}
    {σ : Instantiation} {τs : List MonoTy} {bs : List (String × MonoTy)} (hflat : sig.Flat)
    (hs : s.Live sig V) (htypes : ∀ t ∈ types, t.Live V s.next)
    (hbefore : ∀ p ∈ before, p.2.Live V s.next) (hσ : s.solver.subst.AgreesWith σ)
    (hτs : Ty.monos σ types = τs) (ps : List Pattern) (h : HasPatterns sig.signature ps τs bs)
    (hnodup : (Fields.names before ++ Fields.names bs).Nodup) :
    Achieves (patterns types before ps) o s σ fun r _ σ' =>
      monoBindings σ' r.2 = monoBindings σ before ++ bs := by
  match ps, types with
  | [], _ =>
      cases h
      exact .pure hσ (List.append_nil _).symm
  | p :: ps, [] =>
      subst hτs
      cases h
  | p :: ps, t :: types =>
      subst hτs
      cases h with
      | @cons _ _ _ _ bs cs hitem hitems =>
          obtain ⟨ht, htypes⟩ := List.forall_mem_cons.1 htypes
          have hlength : ps.length = types.length := by simpa using hitems.length_eq
          have hnames : (Fields.names before ++ (Fields.names bs ++ Fields.names cs)).Nodup := by
            simpa [Fields.names] using hnodup
          refine (achieves_pattern hflat hs ht hbefore hσ rfl p hitem ?_).bind
            (infers_pattern hflat hs ht before p) fun r s₁ σ₁ h₁ hadded hσ₁ hsame₁ hr => ?_
          · rw [← List.append_assoc] at hnames
            exact hnames.of_append_left
          have htypes₁ : ∀ u ∈ types, u.Live V s₁.next := fun u hu => (htypes u hu).mono h₁.next
          refine (achieves_patterns hflat h₁.live htypes₁ (hadded.live fun p hp =>
            (hbefore p hp).mono h₁.next) hσ₁ (Ty.Live.monos_eq htypes hsame₁) ps hitems ?_).bind
            (infers_patterns hflat h₁.live htypes₁ r.2 ps hlength)
            fun r' s₂ σ₂ _ _ hσ₂ _ hr' => .pure hσ₂ ?_
          · rw [names_of_monoBindings hr, List.append_assoc]
            exact hnames
          rw [hr', hr, List.append_assoc]

end

end Check

end FieldML
