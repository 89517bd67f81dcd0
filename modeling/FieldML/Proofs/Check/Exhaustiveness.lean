import FieldML.Proofs.Script.Program

/-!
# The two answers to a match that misses a case

Whether such a match is refused or remarked on is asked in one place only. Until the first match that
misses a case, the two checks of a program go through the same states; there the strict one stops
with the fault that the lenient one has as its first remark of this kind.
-/

namespace FieldML

/-- The remark is about a match that misses a case. -/
def Warning.isMissing (w : Warning) : Bool :=
  match w.cause with
  | .nonExhaustive _ => true
  | .unusedArm => false

/-- The fault is a match that misses a case. -/
def TypeError.isMissing (e : TypeError) : Bool :=
  match e.cause with
  | .nonExhaustive _ => true
  | _ => false

/-- The same options, where a match that misses a case is refused. -/
def CheckOptions.strict (o : CheckOptions) : CheckOptions := { o with exhaustiveness := .error }

/-- The same options, where a match that misses a case is remarked on. -/
def CheckOptions.lenient (o : CheckOptions) : CheckOptions := { o with exhaustiveness := .warn }

theorem CheckState.warnings_foldl_remark (ws : List Warning) (s : CheckState) :
    (ws.foldl CheckState.remark s).warnings = ws.reverse ++ s.warnings := by
  induction ws generalizing s with
  | nil => rfl
  | cons w ws ih =>
      rw [List.foldl_cons, ih, CheckState.remark, List.reverse_cons, List.append_assoc]
      rfl

namespace Check

variable {α β : Type} {p : Check α} {k : α → Check β} {o : CheckOptions} {s : CheckState}

/-- Both runs are the same, and neither refuses nor remarks on a match that misses a case. -/
def Agrees (p : Check α) (o : CheckOptions) (s : CheckState) : Prop :=
  p o.lenient s = p o.strict s ∧ (∀ e, (p o.strict s).1 = .error e → e.isMissing = false) ∧
    ∃ ws, (p o.strict s).2.warnings = ws ++ s.warnings ∧ ∀ w ∈ ws, w.isMissing = false

/-- The strict run is stopped by a match that misses a case, and the lenient run remarks on this one
before any other. -/
def Parts (p : Check α) (o : CheckOptions) (s : CheckState) : Prop :=
  ∃ missing range before after,
    (p o.strict s).1 = .error ⟨.nonExhaustive missing, range⟩ ∧
    (∀ e, (p o.lenient s).1 = .error e → e.isMissing = false) ∧
    (p o.lenient s).2.warnings = after ++ ⟨.nonExhaustive missing, range⟩ :: (before ++ s.warnings) ∧
    ∀ w ∈ before, w.isMissing = false

/-- The strict and the lenient run agree, or part at a match that misses a case. -/
def Parallel (p : Check α) : Prop := ∀ o s, Agrees p o s ∨ Parts p o s

/-- In both cases the lenient run only adds remarks, and does not refuse a match for a missing case. -/
theorem Parallel.lenient (hp : Parallel p) (o : CheckOptions) (s : CheckState) :
    (∀ e, (p o.lenient s).1 = .error e → e.isMissing = false) ∧
      ∃ ws, (p o.lenient s).2.warnings = ws ++ s.warnings := by
  rcases hp o s with ⟨hsame, hfault, ws, hws, -⟩ | ⟨missing, range, before, after, -, hfault, hws, -⟩
  · rw [hsame]
    exact ⟨hfault, ws, hws⟩
  · exact ⟨hfault, after ++ ⟨.nonExhaustive missing, range⟩ :: before, by simp [hws]⟩

theorem Parallel.bind (hp : Parallel p) (hk : ∀ a, Parallel (k a)) : Parallel (p >>= k) := by
  intro o s
  rcases hp o s with ⟨hsame, hfault, ws, hws, hquiet⟩ | hparts
  · -- Both runs reach the same state, from where the rest decides.
    unfold Agrees Parts
    simp only [bind_apply, hsame]
    rcases hrun : p o.strict s with ⟨e | a, s₁⟩
    · rw [hrun] at hws hfault
      exact .inl ⟨rfl, fun e' he => hfault e' (congrArg _ (Except.error.inj he)), ws, hws, hquiet⟩
    · rw [hrun] at hws
      rcases hk a o s₁ with ⟨hsame, hfault, ws', hws', hquiet'⟩ |
        ⟨missing, range, before, after, hstop, hfault, hws', hquiet'⟩
      · refine .inl ⟨hsame, hfault, ws' ++ ws, ?_, ?_⟩
        · rw [hws', hws, List.append_assoc]
        · exact fun w hw => (List.mem_append.1 hw).elim (hquiet' w) (hquiet w)
      · refine .inr ⟨missing, range, before ++ ws, after, hstop, hfault, ?_, ?_⟩
        · rw [hws', hws, List.append_assoc]
        · exact fun w hw => (List.mem_append.1 hw).elim (hquiet' w) (hquiet w)
  · -- The strict run has stopped, and the lenient one goes on.
    obtain ⟨missing, range, before, after, hstop, hfault, hws, hquiet⟩ := hparts
    refine .inr ?_
    unfold Parts
    simp only [bind_apply]
    rcases hstrict : p o.strict s with ⟨e | a, s₁⟩
    · rw [hstrict] at hstop
      rcases hlenient : p o.lenient s with ⟨e' | a, s₂⟩
      · rw [hlenient] at hws hfault
        exact ⟨missing, range, before, after, congrArg _ (Except.error.inj hstop),
          fun e he => hfault e (congrArg _ (Except.error.inj he)), hws, hquiet⟩
      · rw [hlenient] at hws
        obtain ⟨hfault', ws', hws'⟩ := (hk a).lenient o s₂
        refine ⟨missing, range, before, ws' ++ after, congrArg _ (Except.error.inj hstop), hfault',
          ?_, hquiet⟩
        rw [hws', hws, List.append_assoc]
    · rw [hstrict] at hstop
      cases hstop

/-- A step that does not ask how to answer, makes no remarks and does not fail for a missing case. -/
theorem parallel_of_silent (hsame : ∀ (o : CheckOptions) s, p o.lenient s = p o.strict s)
    (hfault : ∀ o s e, (p o s).1 = .error e → e.isMissing = false)
    (hws : ∀ o s, (p o s).2.warnings = s.warnings) : Parallel p :=
  fun o s => .inl ⟨hsame o s, hfault o.strict s, [], hws o.strict s, by simp⟩

theorem parallel_of_ok
    (h : ∀ s, ∃ a s', (∀ o, p o s = (.ok a, s')) ∧ s'.warnings = s.warnings) : Parallel p := by
  refine parallel_of_silent (fun o s => ?_) (fun o s e he => ?_) fun o s => ?_ <;>
    obtain ⟨a, s', hrun, hws⟩ := h s
  · rw [hrun, hrun]
  · rw [hrun] at he
    cases he
  · rw [hrun, hws]

theorem parallel_fail {cause : TypeError.Cause} (h : ∀ missing, cause ≠ .nonExhaustive missing)
    (range : Range) : Parallel (fail cause range : Check α) := by
  refine parallel_of_silent (fun _ _ => rfl) ?_ fun _ _ => rfl
  rintro o s _ ⟨⟩
  cases cause with
  | nonExhaustive missing => exact absurd rfl (h missing)
  | _ => rfl

theorem parallel_liftVariant (r : Except VariantError α) : Parallel (liftVariant r) := by
  cases r with
  | ok a => exact parallel_of_ok fun _ => ⟨_, _, fun _ => rfl, rfl⟩
  | error e => exact parallel_fail (by simp) e.range

theorem parallel_unify (expected found : Ty) (range : Range) :
    Parallel (unify expected found range) := by
  refine parallel_of_silent (fun o s => ?_) (fun o s e he => ?_) fun o s => ?_
  · rw [unify_apply, unify_apply]
    rfl
  · rw [unify_apply] at he
    rcases hresult : (s.solver.unify expected found).1 with c | ⟨⟩
    · rw [hresult] at he
      cases he
      rfl
    · rw [hresult] at he
      cases he
  · rw [unify_apply]
    rfl

/-- The only step that asks how to answer. -/
theorem parallel_checkCoverage (arms : List (CoreArm Core)) (armRanges : List Range)
    (range : Range) : Parallel (checkCoverage arms armRanges range) := by
  intro o s
  set found := Coverage.analyze s.variants (arms.map (·.pattern)) with hfound
  set unused : List Warning := found.unused.map fun i => ⟨.unusedArm, armRanges.getD i range⟩
    with hunused
  have hwarnings := CheckState.warnings_foldl_remark unused s
  have hquiet : ∀ w ∈ unused.reverse, w.isMissing = false := by
    intro w hw
    obtain ⟨i, -, rfl⟩ := List.mem_map.1 (List.mem_reverse.1 hw)
    rfl
  unfold Agrees Parts checkCoverage
  simp only [bind_apply, get_apply, ← hfound, forM_warn, ← hunused]
  cases found.missing with
  | none => exact .inl ⟨rfl, nofun, unused.reverse, hwarnings, hquiet⟩
  | some missing =>
      refine .inr ⟨missing, range, unused.reverse, [], rfl, nofun, ?_, hquiet⟩
      exact congrArg (⟨.nonExhaustive missing, range⟩ :: ·) hwarnings

/-- What is called goes in parallel. -/
theorem Call.parallel (c : Call α) : Parallel c.run := by
  cases c with
  | get => exact parallel_of_ok fun _ => ⟨_, _, fun _ => rfl, rfl⟩
  | fail cause range h => exact parallel_fail h range
  | freshId => exact parallel_of_ok fun _ => ⟨_, _, fun _ => rfl, rfl⟩
  | giveKind v kind kinds => exact parallel_of_ok fun _ => ⟨_, _, fun _ => rfl, rfl⟩
  | unify expected found range => exact parallel_unify expected found range
  | report e => exact parallel_of_ok fun _ => ⟨_, _, fun _ => rfl, rfl⟩
  | lookupConstructor variants ctor => exact parallel_liftVariant _
  | instantiateArgs c typeArgs range =>
      exact parallel_of_ok fun _ => ⟨_, _, fun _ => rfl, rfl⟩
  | resolve variants name args range => exact parallel_liftVariant _
  | setVariants variants =>
      exact (parallel_liftVariant variants).bind fun _ =>
        parallel_of_ok fun _ => ⟨_, _, fun _ => rfl, rfl⟩
  | checkCoverage arms armRanges range => exact parallel_checkCoverage arms armRanges range

/-- The check of a program goes in parallel. -/
theorem parallel_session (env : Environments) (p : Program) : Parallel (session env p) :=
  (Script.session env p).closed (fun _ => parallel_of_ok fun _ => ⟨_, _, fun _ => rfl, rfl⟩)
    Call.parallel Parallel.bind

/-- Refusing and remarking on matches that miss a case are two answers of one check. Where the strict
check succeeds, the lenient one makes no remark of this kind and has the same outcome, and conversely.
A strict check that fails for another reason fails in the same way when it is lenient. If it fails
because a match misses a case, then the lenient check either succeeds, and its first remark of this
kind is the one about that match, or fails for another reason. -/
theorem strict_and_lenient (env : Environments) (o : CheckOptions) (p : Program) :
    (∀ c, (program env o.strict p).1 = .ok c ↔
      (program env o.lenient p).1 = .ok c ∧ ∀ w ∈ c.warnings, w.isMissing = false) ∧
    (∀ e, (program env o.strict p).1 = .error e → e.isMissing = false →
      (program env o.lenient p).1 = .error e) ∧
    ∀ missing range, (program env o.strict p).1 = .error ⟨.nonExhaustive missing, range⟩ →
      (∃ c, (program env o.lenient p).1 = .ok c ∧
        c.warnings.find? Warning.isMissing = some ⟨.nonExhaustive missing, range⟩) ∨
      ∃ e, (program env o.lenient p).1 = .error e ∧ e.isMissing = false := by
  have hparallel := parallel_session env p o (start env.variants env.kinds env.types)
  unfold Agrees Parts at hparallel
  unfold program conclude
  simp only [outcome_eq_session]
  rcases hparallel with ⟨hsame, hfault, ws, hws, hquiet⟩ |
    ⟨missing, range, before, after, hstop, hfault, hws, hquiet⟩
  · -- The runs are the same, and without a remark on a missing case.
    rw [hsame]
    rcases hrun : session env p o.strict _ with ⟨e | ⟨core, t⟩, s⟩
    · rw [hrun] at hfault
      refine ⟨by simp, fun _ h _ => h, fun missing range h => ?_⟩
      obtain rfl : e = _ := Except.error.inj h
      exact absurd (hfault _ rfl) (by simp [TypeError.isMissing])
    · rw [hrun] at hws
      refine ⟨fun c => ⟨fun h => ⟨h, ?_⟩, And.left⟩, nofun, nofun⟩
      obtain rfl : finish s core t = c := Except.ok.inj h
      intro w hw
      have hmem : w ∈ ws ++ [] := hws ▸ List.mem_reverse.1 hw
      exact hquiet w (by simpa using hmem)
  · rcases hstrict : session env p o.strict _ with ⟨e | ⟨core, t⟩, s⟩
    · rw [hstrict] at hstop
      obtain rfl : e = _ := Except.error.inj hstop
      rcases hlenient : session env p o.lenient _ with ⟨e | ⟨core, t⟩, s'⟩
      · rw [hlenient] at hfault
        refine ⟨by simp, fun e' h hne => ?_, fun _ _ _ => .inr ⟨e, rfl, hfault e rfl⟩⟩
        obtain rfl : _ = e' := Except.error.inj h
        exact absurd hne (by simp [TypeError.isMissing])
      · rw [hlenient] at hws
        have hwarnings : (finish s' core t).warnings =
            before.reverse ++ ⟨.nonExhaustive missing, range⟩ :: after.reverse := by
          change s'.warnings.reverse = _
          rw [hws]
          simp [start]
        have hfirst : (finish s' core t).warnings.find? Warning.isMissing =
            some ⟨.nonExhaustive missing, range⟩ := by
          rw [hwarnings, List.find?_append, List.find?_eq_none.2 (by simpa using hquiet)]
          rfl
        refine ⟨fun c => ⟨fun h => (by cases h), ?_⟩, fun e' h hne => ?_, fun missing' range' h => ?_⟩
        · rintro ⟨h, hnone⟩
          obtain rfl : finish s' core t = c := Except.ok.inj h
          have hmem := List.mem_of_find?_eq_some hfirst
          exact absurd (hnone _ hmem) (by simp [Warning.isMissing])
        · obtain rfl : _ = e' := Except.error.inj h
          exact absurd hne (by simp [TypeError.isMissing])
        · obtain ⟨hcase, hrange⟩ := TypeError.mk.inj (Except.error.inj h)
          obtain rfl := TypeError.Cause.nonExhaustive.inj hcase
          subst hrange
          exact .inl ⟨_, rfl, hfirst⟩
    · rw [hstrict] at hstop
      cases hstop

end Check

end FieldML
