import FieldML.Proofs.Check.Infer
import FieldML.Proofs.Typing.Pattern

/-!
# Steps of inference

Applications, recursive groups and generalization find exactly what the typing rules ask for.
-/

namespace FieldML

open Check

section Syntax

mutual

/-- Whether the expression has no field access, no record update and no type annotation. -/
def Expr.isPlain : Expr → Bool
  | .literal _ _ | .var _ => true
  | .field _ _ _ | .update _ _ _ | .annot _ _ _ => false
  | .lambda _ body _ => body.isPlain
  | .apply func arg _ => func.isPlain && arg.isPlain
  | .letIn _ value body _ => value.isPlain && body.isPlain
  | .letRec bindings body _ => Expr.arePlainBindings bindings && body.isPlain
  | .ifElse cond yes no _ => cond.isPlain && yes.isPlain && no.isPlain
  | .list items _ | .tuple items _ => Expr.arePlain items
  | .record fields _ => Expr.arePlainFields fields
  | .construct _ none _ => true
  | .construct _ (some arg) _ => arg.isPlain
  | .caseOf scrutinee arms _ => scrutinee.isPlain && Expr.arePlainArms arms
  | .ref value _ => value.isPlain
  | .deref target _ => target.isPlain
  | .assign target value _ => target.isPlain && value.isPlain
  | .sequence first second _ => first.isPlain && second.isPlain

/-- Whether some expressions have none of these. -/
def Expr.arePlain : List Expr → Bool
  | [] => true
  | e :: es => e.isPlain && Expr.arePlain es

/-- Whether the values of some fields have none of these. -/
def Expr.arePlainFields : List (Ident × Expr) → Bool
  | [] => true
  | (_, e) :: fields => e.isPlain && Expr.arePlainFields fields

/-- Whether the values of a recursive group have none of these. -/
def Expr.arePlainBindings : List (RecBinding Expr) → Bool
  | [] => true
  | ⟨_, value, _⟩ :: bindings => value.isPlain && Expr.arePlainBindings bindings

/-- Whether the arms of a match have none of these. -/
def Expr.arePlainArms : List (MatchArm Expr) → Bool
  | [] => true
  | ⟨_, body, _⟩ :: arms => body.isPlain && Expr.arePlainArms arms

end

end Syntax

variable {syn : Prop} {sig : VariantEnv} {V W : TypeVar → Prop} {n : TypeVar} {t : Ty}
  {o : CheckOptions} {s s' : CheckState} {σ : Instantiation} {env : TypeEnv} {Γ : Context}
  {range : Range}

namespace Ty.Live

theorem expand (ht : t.Live V n) : t.expand.Live V n :=
  ⟨ht.simple.expand, fun v hv => ht.inside v (ht.simple.mem_freeVars_of_expand hv)⟩

theorem of_func {param result : Ty} {r : Range} (ht : (Ty.func param result r).Live V n) :
    param.Live V n ∧ result.Live V n := by
  have hinside := ht.inside
  cases ht.simple with
  | func _ hp hq =>
      exact ⟨⟨hp, fun v hv => hinside v (by simp [hv])⟩, ⟨hq, fun v hv => hinside v (by simp [hv])⟩⟩

end Ty.Live

namespace Fields

variable {α β : Type}

theorem map_insert (f : α → β) (x : String) (a : α) (fs : List (String × α)) :
    (insert x a fs).map (fun p => (p.1, f p.2)) =
      insert x (f a) (fs.map fun p => (p.1, f p.2)) := by
  induction fs with
  | nil => rfl
  | cons p fs ih =>
      obtain ⟨y, b⟩ := p
      simp only [insert, List.map_cons]
      split
      · rfl
      · split
        · rfl
        · simp [ih]

theorem map_ofList (f : α → β) (entries : List (String × α)) :
    (ofList entries).map (fun p => (p.1, f p.2)) =
      ofList (entries.map fun p => (p.1, f p.2)) := by
  unfold ofList
  suffices h : ∀ fs : List (String × α),
      (entries.foldl (fun fields entry => insert entry.1 entry.2 fields) fs).map
          (fun p => (p.1, f p.2)) =
        (entries.map fun p => (p.1, f p.2)).foldl
          (fun fields entry => insert entry.1 entry.2 fields) (fs.map fun p => (p.1, f p.2)) from
    h []
  induction entries with
  | nil => exact fun fs => rfl
  | cons e entries ih =>
      intro fs
      rw [List.foldl_cons, ih, map_insert]
      rfl

end Fields

namespace Check

variable {α : Type} {m : Check α} {Q Q' : α → CheckState → Prop}

theorem Idles.infers (hm : Idles m o s Q) (hs : s.Live sig V) :
    Infers sig V m o s fun a s' => Q a s' ∧ s.Idle s' := by
  intro a s' hrun
  unfold Idles at hm
  rw [hrun] at hm
  exact ⟨.of_idle hs hm.1, hm.2, hm.1⟩

theorem Infers.widen (hm : Infers sig W m o s Q) (hs : s.Live sig V) (hWV : ∀ v, W v → V v) :
    Infers sig V m o s Q := fun a s' hrun =>
  have ⟨hgrows, hq⟩ := hm a s' hrun
  ⟨hgrows.widen hs hWV, hq⟩

theorem infers_applyUnknown {func arg : Ty} (hs : s.Live sig V) (hf : func.Live V s.next)
    (ha : arg.Live V s.next) (funcRange range : Range) :
    Infers sig V (applyUnknown func arg funcRange range) o s fun t s' =>
      t.Live V s'.next ∧ ∀ σ, s'.solver.subst.AgreesWith σ →
        func.mono σ = .func (arg.mono σ) (t.mono σ) := by
  refine (infers_fresh hs range).bind fun result s₁ h₁ hresult => ?_
  refine (infers_unify h₁.live ((ha.mono h₁.next).func hresult funcRange) (hf.mono h₁.next)
    funcRange).bind fun _ s₂ h₂ heq => .pure h₂.live ⟨hresult.mono h₂.next, fun σ hσ => ?_⟩
  exact (heq σ hσ).symm

theorem infers_applyType {func arg : Ty} (hs : s.Live sig V) (hf : func.Live V s.next)
    (ha : arg.Live V s.next) (funcRange argRange range : Range) :
    Infers sig V (applyType func arg funcRange argRange range) o s fun t s' =>
      t.Live V s'.next ∧ ∀ σ, s'.solver.subst.AgreesWith σ →
        func.mono σ = .func (arg.mono σ) (t.mono σ) := by
  have hresolve : Infers sig V (resolve func) o s fun t s' =>
      t = s.solver.subst.apply func ∧ s' = s := .of_idle hs rfl (.refl s) ⟨rfl, rfl⟩
  refine hresolve.bind fun _ s₁ _ ⟨heq, hs₁⟩ => ?_
  subst heq hs₁
  have hf' := (hs.apply hf).expand
  split
  · next param result r heq =>
      rw [heq] at hf'
      obtain ⟨hp, hr⟩ := hf'.of_func
      refine (infers_unify hs hp ha argRange).bind fun _ s₂ h₂ hpa =>
        .pure h₂.live ⟨(hr.mono h₂.next).withRange range, fun σ hσ => ?_⟩
      have happly := (h₂.agreesWith hσ).mono_apply hs.triangular.simple hf.simple
      rw [← happly, ← Ty.mono_expand, heq, Ty.mono_func, hpa σ hσ, Ty.mono_withRange]
  · exact infers_applyUnknown hs hf ha funcRange range

section Placeholders

/-- One more name of a recursive group, whose value must be a function. -/
def placeholder (found : List (String × Ty)) (binding : RecBinding Expr) :
    Check (List (String × Ty)) := do
  if !isLambda binding.value then
    fail (.recNotFunction binding.name.text) binding.range
  else if found.any (·.1 = binding.name.text) then
    fail (.duplicateBinding binding.name.text) binding.name.range
  else
    return (binding.name.text, ← fresh binding.name.range) :: found

theorem placeholders_eq (bindings : List (RecBinding Expr)) :
    placeholders bindings = do return (← bindings.foldlM placeholder []).reverse := rfl

/-- The names of a recursive group. -/
abbrev groupNames (bindings : List (RecBinding Expr)) : List String := bindings.map (·.name.text)

/-- The names of a recursive group are different, and their values are functions. -/
structure IsGroup (bindings : List (RecBinding Expr)) : Prop where
  lambda : ∀ b ∈ bindings, isLambda b.value = true
  nodup : (groupNames bindings).Nodup

theorem foldlM_placeholder_apply {bindings : List (RecBinding Expr)} (hgroup : IsGroup bindings)
    (found : List (String × Ty)) (hapart : ∀ x ∈ groupNames bindings, x ∉ Fields.names found)
    (o : CheckOptions) (s : CheckState) :
    bindings.foldlM placeholder found o s =
      (.ok (((groupNames bindings).zip
        (newVars s.next (bindings.map (·.name.range)))).reverse ++ found),
        s.skip bindings.length) := by
  induction bindings generalizing found s with
  | nil => rfl
  | cons b bindings ih =>
      obtain ⟨hnot, hnodup⟩ := List.nodup_cons.1 hgroup.nodup
      have hany : ¬found.any (·.1 = b.name.text) = true := by
        rw [List.any_eq_true]
        rintro ⟨p, hp, heq⟩
        exact hapart b.name.text (by simp) (List.mem_map.2 ⟨p, hp, by simpa using heq⟩)
      have hstep : placeholder found b o s =
          (.ok ((b.name.text, .var s.next b.name.range) :: found), s.skip 1) := by
        simp only [placeholder, hgroup.lambda b List.mem_cons_self, Bool.not_true,
          Bool.false_eq_true, if_false, hany]
        rfl
      have hskip : (s.skip 1).skip bindings.length = s.skip (bindings.length + 1) := by
        simp [CheckState.skip, Nat.add_assoc, Nat.add_comm 1]
      rw [List.foldlM_cons, bind_apply, hstep]
      dsimp only
      rw [ih ⟨fun b hb => hgroup.lambda b (List.mem_cons_of_mem _ hb), hnodup⟩, hskip]
      · simp [newVars, CheckState.skip]
      · intro x hx hmem
        rcases List.mem_cons.1 hmem with rfl | hmem
        · exact hnot hx
        · exact hapart x (List.mem_cons_of_mem _ hx) hmem

theorem isGroup_of_foldlM {bindings : List (RecBinding Expr)} {found r : List (String × Ty)}
    (hrun : bindings.foldlM placeholder found o s = (.ok r, s')) :
    IsGroup bindings ∧ ∀ x ∈ groupNames bindings, x ∉ Fields.names found := by
  induction bindings generalizing found s with
  | nil => exact ⟨⟨by simp, by simp⟩, by simp⟩
  | cons b bindings ih =>
      rw [List.foldlM_cons, bind_apply] at hrun
      unfold placeholder at hrun
      by_cases hlambda : isLambda b.value = true
      · by_cases hany : found.any (·.1 = b.name.text) = true
        · simp only [hlambda, Bool.not_true, Bool.false_eq_true, if_false, hany, if_true] at hrun
          cases hrun
        · simp only [hlambda, Bool.not_true, Bool.false_eq_true, if_false, hany] at hrun
          obtain ⟨⟨hlambdas, hnodup⟩, hapart⟩ := ih hrun
          refine ⟨⟨?_, List.nodup_cons.2 ⟨fun hmem => ?_, hnodup⟩⟩, fun x hx hmem => ?_⟩
          · exact List.forall_mem_cons.2 ⟨hlambda, hlambdas⟩
          · exact hapart _ hmem (by simp)
          · rcases List.mem_cons.1 hx with rfl | hx
            · obtain ⟨p, hp, heq⟩ := List.mem_map.1 hmem
              exact hany (List.any_eq_true.2 ⟨p, hp, by simpa using heq⟩)
            · exact hapart x hx (by simp [hmem])
      · simp only [hlambda, Bool.not_false, if_true] at hrun
        cases hrun

/-- Names of a recursive group, each with a type of its own. -/
structure Group (V : TypeVar → Prop) (n : TypeVar) (bindings : List (RecBinding Expr))
    (names : List (String × Ty)) : Prop where
  group : IsGroup bindings
  names_eq : Fields.names names = groupNames bindings
  live : ∀ p ∈ names, p.2.Live V n

namespace Group

variable {bindings : List (RecBinding Expr)} {names : List (String × Ty)}

theorem types_live (h : Group V n bindings names) : ∀ t ∈ names.map (·.2), t.Live V n := by
  simpa using fun t x hp => h.live (x, t) hp

theorem length_types (h : Group V n bindings names) :
    (names.map (·.2)).length = bindings.length := by
  simpa [Fields.names] using congrArg List.length h.names_eq

end Group

theorem placeholders_apply {bindings : List (RecBinding Expr)} (hgroup : IsGroup bindings)
    (o : CheckOptions) (s : CheckState) :
    placeholders bindings o s =
      (.ok ((groupNames bindings).zip (newVars s.next (bindings.map (·.name.range)))),
        s.skip bindings.length) := by
  rw [placeholders_eq, bind_apply, foldlM_placeholder_apply hgroup [] (by simp [Fields.names])]
  simp

theorem infers_placeholders (hs : s.Live sig V) (bindings : List (RecBinding Expr)) :
    Infers sig V (placeholders bindings) o s fun names s' => Group V s'.next bindings names := by
  intro names s' hrun
  have hgroup : IsGroup bindings := by
    rw [placeholders_eq, bind_apply] at hrun
    rcases hfold : bindings.foldlM placeholder [] o s with ⟨e | r, s₁⟩
    · rw [hfold] at hrun
      cases hrun
    · exact (isGroup_of_foldlM hfold).1
  have hgiven : Group V (s.skip bindings.length).next bindings
      ((groupNames bindings).zip (newVars s.next (bindings.map (·.name.range)))) := by
    refine ⟨hgroup, ?_, fun p hp => ?_⟩
    · rw [Fields.names, List.map_fst_zip (by simp [length_newVars])]
    · simpa using live_newVars hs (List.of_mem_zip hp).2
  have hinfers : Infers sig V (placeholders bindings) o s fun names s' =>
      Group V s'.next bindings names :=
    .of_idle hs (placeholders_apply hgroup o s) (s.idle_skip _) hgiven
  exact hinfers names s' hrun

theorem achieves_placeholders (hs : s.Live sig V) (hσ : s.solver.subst.AgreesWith σ)
    {bindings : List (RecBinding Expr)} (hgroup : IsGroup bindings) {τs : List MonoTy}
    (hlength : τs.length = bindings.length) :
    Achieves (placeholders bindings) o s σ fun names _ σ' =>
      monoBindings σ' names = (groupNames bindings).zip τs := by
  obtain ⟨σ', hsame, hmonos⟩ := exists_monos_newVars σ s.next
    (bindings.map (·.name.range)) τs (by simpa using hlength)
  refine ⟨_, _, σ', placeholders_apply hgroup o s, hs.agreesWith_of_eq hσ hsame, hsame, ?_⟩
  rw [← hmonos, List.zip_map_right]
  rfl

end Placeholders

theorem achieves_applyType {func arg : Ty} {τ : MonoTy} (hs : s.Live sig V)
    (hf : func.Live V s.next) (ha : arg.Live V s.next) (hσ : s.solver.subst.AgreesWith σ)
    (heq : func.mono σ = .func (arg.mono σ) τ) (funcRange argRange range : Range) :
    Achieves (applyType func arg funcRange argRange range) o s σ fun t _ σ' => t.mono σ' = τ := by
  have hresolve : Infers sig V (resolve func) o s fun t s' =>
      t = s.solver.subst.apply func ∧ s' = s := .of_idle hs rfl (.refl s) ⟨rfl, rfl⟩
  have hresolved : Achieves (resolve func) o s σ fun _ _ σ' => σ' = σ := .of_idle hσ rfl (.refl s)
  refine hresolved.bind hresolve fun _ s₁ σ₁ _ ⟨ht, hs₁⟩ _ _ hσ₁ => ?_
  subst ht hs₁ hσ₁
  have happly := hσ.mono_apply hs.triangular.simple hf.simple
  have hf' := (hs.apply hf).expand
  split
  · next param result r hfunc =>
      rw [hfunc] at hf'
      obtain ⟨hp, hr⟩ := hf'.of_func
      rw [← happly, ← Ty.mono_expand, hfunc, Ty.mono_func, MonoTy.func.injEq] at heq
      refine (achieves_unify hs hp ha hσ heq.1 argRange).bind (infers_unify hs hp ha argRange)
        fun _ s₂ σ₂ _ _ hσ₂ _ hσ₂' => .pure hσ₂ ?_
      rw [Ty.mono_withRange, hσ₂', heq.2]
  · refine (achieves_fresh hs hσ range τ).bind (infers_fresh hs range)
      fun result s₂ σ₂ h₂ hresult hσ₂ hsame hmono => ?_
    have hfunc := (ha.mono h₂.next).func hresult funcRange
    refine (achieves_unify h₂.live hfunc (hf.mono h₂.next) hσ₂ ?_ funcRange).bind
      (infers_unify h₂.live hfunc (hf.mono h₂.next) funcRange)
      fun _ s₃ σ₃ _ _ hσ₃ _ hσ₃' => .pure hσ₃ ?_
    · rw [Ty.mono_func, hmono, ha.mono_eq hsame, hf.mono_eq hsame, heq]
    · rw [hσ₃', hmono]

/-- The types of several names are generalized one after the other. -/
abbrev generalizeAll (names : List (String × Ty)) (env : TypeEnv) : Check (List (String × Ty)) :=
  names.mapM fun (name, t) => return (name, ← generalize t env)

theorem idle_events (s : CheckState) (events : List Event) :
    s.Idle { s with events := events } := ⟨Nat.le_refl _, rfl, rfl, rfl, rfl⟩

theorem generalizeAll_apply (names : List (String × Ty)) (env : TypeEnv) (o : CheckOptions)
    (s : CheckState) :
    ∃ events, generalizeAll names env o s =
      (.ok (names.map fun p => (p.1, s.scheme env p.2)), { s with events := events }) := by
  induction names generalizing s with
  | nil => exact ⟨s.events, rfl⟩
  | cons p names ih =>
      obtain ⟨name, t⟩ := p
      obtain ⟨events, hgen⟩ := CheckState.generalize_apply t env o s
      obtain ⟨events', hrest⟩ := ih { s with events := events }
      refine ⟨events', ?_⟩
      simp only [generalizeAll] at hrest
      simp only [generalizeAll, List.mapM_cons, bind_apply, hgen, pure_apply, hrest]
      rfl

theorem infers_generalize (hs : s.Live sig V) (t : Ty) (env : TypeEnv) :
    Infers sig V (generalize t env) o s fun scheme s' =>
      scheme = s.scheme env t ∧ s.Idle s' := by
  obtain ⟨events, hrun⟩ := CheckState.generalize_apply t env o s
  exact .of_idle hs hrun (idle_events s events) ⟨rfl, idle_events s events⟩

theorem achieves_generalize (hσ : s.solver.subst.AgreesWith σ) (t : Ty) (env : TypeEnv) :
    Achieves (generalize t env) o s σ fun _ _ σ' => σ' = σ := by
  obtain ⟨events, hrun⟩ := CheckState.generalize_apply t env o s
  exact .of_idle hσ hrun (idle_events s events)

theorem infers_generalizeAll (hs : s.Live sig V) (names : List (String × Ty)) (env : TypeEnv) :
    Infers sig V (generalizeAll names env) o s fun schemes s' =>
      schemes = names.map (fun p => (p.1, s.scheme env p.2)) ∧ s.Idle s' := by
  obtain ⟨events, hrun⟩ := generalizeAll_apply names env o s
  exact .of_idle hs hrun (idle_events s events) ⟨rfl, idle_events s events⟩

theorem achieves_generalizeAll (hσ : s.solver.subst.AgreesWith σ) (names : List (String × Ty))
    (env : TypeEnv) : Achieves (generalizeAll names env) o s σ fun _ _ σ' => σ' = σ := by
  obtain ⟨events, hrun⟩ := generalizeAll_apply names env o s
  exact .of_idle hσ hrun (idle_events s events)

/-- With remarks only, a match is never refused. -/
theorem achieves_checkCoverage (hwarn : o.exhaustiveness = .warn)
    (hσ : s.solver.subst.AgreesWith σ) (arms : List (CoreArm Core)) (ranges : List Range)
    (range : Range) :
    Achieves (checkCoverage arms ranges range) o s σ fun _ _ σ' => σ' = σ := by
  have hidle := (idles_checkCoverage (o := o) (s := s) arms ranges range).1
  have hrun : ∃ s', checkCoverage arms ranges range o s = (.ok (), s') := by
    unfold checkCoverage
    simp only [bind_apply, get_apply, forM_warn]
    cases (Coverage.analyze s.variants (arms.map (·.pattern))).missing with
    | none => exact ⟨_, rfl⟩
    | some missing =>
        simp only [bind_apply, read_apply, hwarn]
        exact ⟨_, rfl⟩
  obtain ⟨s', hrun⟩ := hrun
  rw [hrun] at hidle
  exact .of_idle hσ hrun hidle

end Check

end FieldML
