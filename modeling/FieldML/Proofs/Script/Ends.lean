import FieldML.Proofs.Check.Program
import FieldML.Proofs.Parser.Expr
import FieldML.Proofs.Script.FreshInfer
import FieldML.Proofs.Unify.Plain

/-!
# Checks end

Reading a program text always ends. Checking it ends unless types are compared while some record
kind leads back to its own variable: as long as this does not happen, what is known binds no variable
to itself, and every comparison is given the fuel that it needs. Two variables with kinds that lead
back can be compared forever.
-/

namespace FieldML

open Unify

/-- No kind leads back to its variable in any state in which types are compared on the way of making
the two types equal. -/
def Solver.ComparesAcyclic (s : Solver) (a b : Ty) : Prop :=
  ∀ r s', PassesAcyclic (s.fuel (a.size + b.size)) s.forget [(a, b)] r s'

namespace Check

variable {α : Type} {p : Check α} {o : CheckOptions} {s s' : CheckState} {ts : List Ty}
  {a b : Ty}

/-- If the call compares types, no kind leads back to its variable meanwhile. -/
def Call.ComparesAcyclic : ∀ {α : Type}, Call α → CheckState → List Ty → Prop
  | _, .unify expected found _, s, _ => s.solver.ComparesAcyclic expected found
  | _, _, _, _ => True

/-- What is known after the call. -/
def Call.solverAfter (s : CheckState) : {α : Type} → Call α → Solver
  | _, .unify expected found _ => (s.solver.unify expected found).2
  | _, .giveKind _ _ kinds => { s.solver with kinds := kinds }
  | _, _ => s.solver

theorem Call.solver_run (c : Call α) (o : CheckOptions) (s : CheckState) :
    (c.run o s).2.solver = c.solverAfter s := by
  cases c with
  | get | fail | freshId | giveKind | report | instantiateArgs => rfl
  | unify expected found range =>
      rw [Call.run, unify_apply]
      rfl
  | lookupConstructor variants ctor =>
      rw [Call.run]
      cases variants.lookupConstructor ctor.text ctor.range <;> rfl
  | resolve variants name args range =>
      rw [Call.run]
      cases variants.resolve name.text args range <;> rfl
  | setVariants variants => cases variants <;> rfl
  | checkCoverage arms armRanges range => exact (idles_checkCoverage arms armRanges range).1.solver

theorem kindOf_extend {env env' : KindEnv} {v : TypeVar} {k : Kind}
    (h : env.extend v k = .ok env') (w : TypeVar) :
    env.kindOf w = .universal ∨ env'.kindOf w = env.kindOf w := by
  unfold KindEnv.extend at h
  split at h
  · cases h
  · next hnone =>
      obtain rfl := Except.ok.inj h
      by_cases hvw : v = w
      · subst hvw
        rw [Bool.not_eq_true, ← Bool.not_eq_true, Std.TreeMap.contains_iff_mem] at hnone
        exact Or.inl (Std.TreeMap.getD_eq_fallback hnone)
      · exact Or.inr ((KindEnv.kindOf_refine env v w k).trans (if_neg hvw))

/-- Unless a kind leads back to its variable, no variable is bound to a type that it is part of. -/
def Founded (s : Solver) : Prop := s.Acyclic → s.subst.Triangular True

theorem Founded.congr {s s' : Solver} (h : Founded s) (hsubst : s'.subst = s.subst)
    (hkinds : ∀ v, s.kindOf v = .universal ∨ s'.kindOf v = s.kindOf v) : Founded s' := by
  intro hacyc
  have hstep : ∀ v w, s.LeadsTo v w → s'.LeadsTo v w := by
    rintro v w ⟨p, hp, hw⟩
    rcases hkinds v with huniversal | heq
    · rw [huniversal] at hp
      exact absurd hp List.not_mem_nil
    · exact ⟨p, heq ▸ hp, hsubst ▸ hw⟩
  rw [hsubst]
  exact h fun v hcycle => hacyc v (Relation.TransGen.mono hstep v v hcycle)

/-- A comparison starts in order. -/
theorem Founded.proper {s s' : Solver} {n : Nat} {r : Option Reason} (h : Founded s)
    (hs : s.Simple True) (hrun : Runs n s.forget [(a, b)] r s')
    (hacyc : PassesAcyclic n s.forget [(a, b)] r s') : s.forget.Proper True :=
  ⟨h (hrun.acyclic_start hacyc (List.cons_ne_nil _ _)), hs.kind⟩

/-- As long as no kind leads back to its variable while types are compared, every call keeps what is
known in order. -/
theorem Call.founded_run (c : Call α) (hc : c.Made s ts) (hacyc : c.ComparesAcyclic s ts)
    (hs : Founded s.solver) : Founded (c.run o s).2.solver := by
  rw [c.solver_run]
  cases c with
  | get | fail | freshId | report | lookupConstructor | instantiateArgs | resolve | setVariants
  | checkCoverage => exact hs
  | giveKind v kind kinds => exact hs.congr rfl (kindOf_extend hc.sound)
  | unify expected found range =>
      obtain ⟨he, hf⟩ := hc.proper
      obtain ⟨r, solver, hrun, hunify⟩ := Solver.unify_runs hc.wf.simple he.simple hf.simple
      rw [Call.solverAfter, hunify]
      cases r with
      | none =>
          intro hend
          have hproper := hs.proper hc.wf.simple hrun (hacyc none solver)
          have hpair := (allInParts_single expected found).simple he.simple hf.simple
          exact (hrun.concludes_of_acyclic hproper hpair (hacyc none solver) hend
            rfl).proper.triangular
      | some e => exact hs.congr rfl fun _ => Or.inr rfl

/-- As long as no kind leads back to its variable while types are compared, no call gives up. -/
theorem Call.not_outOfFuel (c : Call α) (hc : c.Made s ts) (hacyc : c.ComparesAcyclic s ts)
    (hs : Founded s.solver) {e : TypeError} (hrun : c.run o s = (.error e, s')) :
    ¬e.OutOfFuel := by
  have hidle : ∀ {β : Type} {m : Check β} {s s'} {e : TypeError}, Idles m o s (fun _ _ => True) →
      m o s = (.error e, s') → ¬e.OutOfFuel := by
    intro β m s s' e hm hrun
    unfold Idles at hm
    rw [hrun] at hm
    exact hm.2
  cases c with
  | get | freshId | giveKind | report | instantiateArgs => cases hrun
  | fail cause range h => exact hidle (idles_fail hc.proper range) hrun
  | lookupConstructor | resolve => exact hidle (idles_liftVariant fun _ _ => trivial) hrun
  | setVariants variants =>
      cases variants with
      | error f =>
          exact hidle (m := (liftVariant (.error f) : Check Unit))
            (idles_liftVariant fun _ _ => trivial) hrun
      | ok env => cases hrun
  | checkCoverage arms armRanges range => exact hidle (idles_checkCoverage _ _ _) hrun
  | unify expected found range =>
      obtain ⟨he, hf⟩ := hc.proper
      obtain ⟨r, solver, hruns, hunify⟩ := Solver.unify_runs hc.wf.simple he.simple hf.simple
      rw [Call.run, unify_apply, hunify] at hrun
      cases r with
      | none => cases hrun
      | some reason =>
          obtain rfl := Except.error.inj (Prod.mk.inj hrun).1
          rintro ⟨c, hcause, hreason⟩
          obtain rfl : s.solver.contradiction reason expected found = c := by simpa using hcause
          obtain rfl : reason = .outOfFuel := hreason
          have hproper := hs.proper hc.wf.simple hruns (hacyc _ solver)
          exact hruns.ne_outOfFuel_of_acyclic (s := s.solver.forget) hproper he.simple hf.simple
            (hacyc _ solver) rfl

/-- A check in which no kind leads back to its variable while types are compared does not give up. -/
theorem not_outOfFuel_of_comparesAcyclic {x : Script p}
    (hmade : x.Follows Call.Made o (fun _ _ _ => True) s ts)
    (hacyc : x.Follows Call.ComparesAcyclic o (fun _ _ _ => True) s ts) (hs : Founded s.solver)
    {e : TypeError} (hrun : p o s = (.error e, s')) : ¬e.OutOfFuel := by
  have hcarry := (hmade.and hacyc).carry (I := fun s => Founded s.solver) hs
    fun c s ts hc hs => c.founded_run hc.1 hc.2 hs
  exact hcarry.error (P := fun e => ¬e.OutOfFuel)
    (fun c s ts e s' hc hrun => c.not_outOfFuel hc.1.1 hc.1.2 hc.2 hrun) hrun

/-! ### Checks without record kinds -/

theorem Call.comparesAcyclic_of_plain (c : Call α) (hc : c.Made s ts) (hplain : s.solver.Plain)
    (hs : Founded s.solver) : c.ComparesAcyclic s ts := by
  cases c with
  | unify expected found range =>
      obtain ⟨he, hf⟩ := hc.proper
      have hpair := (allInParts_single expected found).simple he.simple hf.simple
      have hproper : s.solver.forget.Proper True := ⟨hs hplain.acyclic, hc.wf.simple.kind⟩
      exact fun _ _ => passesAcyclic_of_plain hproper hpair hplain
  | get | fail | freshId | giveKind | report | lookupConstructor | instantiateArgs | resolve
  | setVariants | checkCoverage => trivial

theorem Call.plain_of_run (c : Call α) (hc : c.Made s ts) (hplain : (c.run o s).2.solver.Plain) :
    s.solver.Plain := by
  rw [c.solver_run] at hplain
  cases c with
  | get | fail | freshId | report | lookupConstructor | instantiateArgs | resolve | setVariants
  | checkCoverage => exact hplain
  | giveKind v kind kinds =>
      exact fun w => (kindOf_extend hc.sound w).elim id fun heq => heq.symm.trans (hplain w)
  | unify expected found range =>
      exact plain_of_unify hc.wf.simple hc.proper.1.simple hc.proper.2.simple hplain

/-- If no variable has a record kind in the end, no kind led back to its variable on the way. -/
theorem comparesAcyclic_of_plain {x : Script p}
    (hmade : x.Follows Call.Made o (fun _ _ _ => True) s ts) (hs : Founded s.solver)
    (hend : (p o s).2.solver.Plain) :
    x.Follows Call.ComparesAcyclic o (fun _ _ _ => True) s ts := by
  have hplain := (hmade.of_end (I := fun s => s.solver.Plain)
    (fun c s ts hc hplain => c.plain_of_run hc hplain) hend).1
  have hcarry := (hmade.and hplain).carry (I := fun s => Founded s.solver) hs fun c s ts hc hs =>
    c.founded_run hc.1 (c.comparesAcyclic_of_plain hc.1 hc.2 hs) hs
  exact (hcarry.mono fun c s ts hc => c.comparesAcyclic_of_plain hc.1.1 hc.1.2 hc.2).of_run
    fun _ _ _ _ _ => trivial

end Check

/-! ### Whole texts -/

namespace CheckState

variable {s : CheckState} {h : TypeVar → Nat} {t : Ty} {v : TypeVar}

/-- Where ranks are possible, applying the substitution follows every variable to its end. -/
theorem Wf.find?_of_mem_apply (hs : s.Wf) (hlevel : s.Levelled h) (ht : t.Known s.next)
    (hv : v ∈ (s.solver.subst.apply t).freeVars) : s.solver.subst.find? v = none :=
  (hs.steady h hlevel).1.find?_of_mem_freeVars_apply ht.simple hv

end CheckState

/-- Reading a text never gives up for want of fuel. Checking the program that it is does not give up
either if no record kind leads back to its variable in any state in which types are compared on the
way; this is so if no variable has a record kind in the end. A check that gives up leaves a record of
comparisons and kinds that allows no ranks; where it allows some, what is known can be applied to
every type. The same holds of a single comparison in every state that a check can be in. -/
theorem checkSource_ends (source : String) (settings : Settings) :
    (∀ e, (checkSource source settings).1 = .error (.parse e) → e.cause ≠ .outOfFuel) ∧
    (∀ tokens p result s, Token.lex source = .ok tokens → Program.ofTokens tokens = .ok p →
      Check.outcome initialEnvironments settings.checkOptions p = (result, s) →
      s.Wf ∧ (∀ e, result = .error e → e.OutOfFuel → ∀ h, ¬s.Levelled h) ∧
      ((Check.Script.session initialEnvironments p).Follows Check.Call.ComparesAcyclic
          settings.checkOptions (fun _ _ _ => True)
          (Check.start initialEnvironments.variants initialEnvironments.kinds
            initialEnvironments.types) (initialEnvironments.types.map (·.2)) →
        ∀ e, result = .error e → ¬e.OutOfFuel) ∧
      (s.solver.Plain → ∀ e, result = .error e → ¬e.OutOfFuel)) ∧
    ∀ s : CheckState, s.Wf → ∀ t u, t.Known s.next → u.Known s.next →
      (∀ range o e s', Check.unify t u range o s = (.error e, s') → e.OutOfFuel →
        ∀ h, ¬s'.Levelled h) ∧
      ∀ h, s.Levelled h → ∀ v ∈ (s.solver.subst.apply t).freeVars,
        s.solver.subst.find? v = none := by
  refine ⟨fun e he => ?_, fun tokens p result s _ _ hrun => ?_, fun s hs t u ht hu => ⟨?_, ?_⟩⟩
  · unfold checkSource at he
    split at he
    · simp at he
    · next tokens htokens =>
        dsimp only at he
        split at he
        · next fault hfault =>
            obtain rfl : fault = e := by simpa using he
            exact Program.ofTokens_error_ne_outOfFuel hfault
        · split at he <;> simp at he
  · have hwf := Check.wf_outcome (o := settings.checkOptions) (p := p) wf_initialEnvironments
    have hmade := (Check.tracks_session (o := settings.checkOptions) .start
      wf_initialEnvironments.types p).made
    have hstart : Check.Founded (Check.start initialEnvironments.variants initialEnvironments.kinds
        initialEnvironments.types).solver := fun _ => .empty
    have hends : (Check.Script.session initialEnvironments p).Follows Check.Call.ComparesAcyclic
        settings.checkOptions (fun _ _ _ => True) (Check.start initialEnvironments.variants
          initialEnvironments.kinds initialEnvironments.types) (initialEnvironments.types.map (·.2)) →
        ∀ e, result = .error e → ¬e.OutOfFuel := by
      rintro hacyc e rfl
      rw [Check.outcome_eq_session] at hrun
      exact Check.not_outOfFuel_of_comparesAcyclic hmade hacyc hstart hrun
    rw [hrun] at hwf
    refine ⟨hwf.1, ?_, hends, fun hplain => hends ?_⟩
    · rintro e rfl
      exact hwf.2
    · rw [Check.outcome_eq_session] at hrun
      exact Check.comparesAcyclic_of_plain hmade hstart (by rwa [hrun])
  · intro range o e s' hrun
    have hkeeps := Check.keeps_unify (o := o) hs ht hu range
    unfold Check.Keeps at hkeeps
    rw [hrun] at hkeeps
    exact hkeeps.2.2
  · intro h hlevel v hv
    exact hs.find?_of_mem_apply hlevel ht hv

/-- A function that is applied to itself is refused, but not for want of fuel. -/
theorem checkSource_ends_selfApplication :
    ∃ tokens p e s, Token.lex "fun x -> x x" = .ok tokens ∧ Program.ofTokens tokens = .ok p ∧
      Check.outcome initialEnvironments ({} : Settings).checkOptions p = (.error e, s) ∧
      s.solver.Plain ∧ ¬e.OutOfFuel := by
  have hread : ((Token.lex "fun x -> x x").toOption.bind fun tokens =>
      (Program.ofTokens tokens).toOption.map fun p =>
        let run := Check.outcome initialEnvironments ({} : Settings).checkOptions p
        (run.1.isOk, run.2.solver.kinds.kinds.isEmpty)) = some (false, true) := by
    decide +kernel
  cases hlex : Token.lex "fun x -> x x" with
  | error e =>
      rw [hlex] at hread
      cases hread
  | ok tokens =>
      rw [hlex, Except.toOption, Option.bind_some] at hread
      cases hparse : Program.ofTokens tokens with
      | error e =>
          rw [hparse] at hread
          cases hread
      | ok p =>
          rw [hparse, Except.toOption, Option.map_some, Option.some.injEq, Prod.mk.injEq] at hread
          rcases hrun : Check.outcome initialEnvironments ({} : Settings).checkOptions p with
            ⟨e | r, s⟩
          · rw [hrun] at hread
            have hplain : s.solver.Plain := fun v =>
              Std.TreeMap.getD_of_isEmpty hread.2
            have hends := (checkSource_ends "fun x -> x x" {}).2.1 tokens p _ s hlex hparse hrun
            exact ⟨tokens, p, e, s, rfl, hparse, hrun, hplain, hends.2.2.2 hplain e rfl⟩
          · rw [hrun] at hread
            cases hread.1

/-- Two variables, each with a kind that has a field of an unknown type. -/
def twoRecords : Solver :=
  let here := Range.label "here"
  let kinds := KindEnv.empty.refine 0 (.record [("f", .var 1 here)])
  { kinds := kinds.refine 2 (.record [("f", .var 3 here)]) }

/-- The types of the two fields are lists of their own records. -/
def endless : Solver :=
  let here := Range.label "here"
  let s := (twoRecords.unify (.var 1 here) (.list (.var 0 here) here)).2
  (s.unify (.var 3 here) (.list (.var 2 here) here)).2

theorem run_bind_of_error {α β : Type} {m : Unify α} {k : α → Unify β} {s s' : Solver} {e : Reason}
    (h : m.run s = (.error e, s')) : (m >>= k).run s = (.error e, s') := by
  rw [run_bind, h]

/-- Comparing the two variables compares the types of the fields, which compares the two variables
again. -/
theorem equate_rounds (n : Nat) (r r' : Range) (s : Solver) (hsubst : s.subst = endless.subst)
    (hkinds : s.kinds = endless.kinds) :
    (∃ s', (equate n (.var 0 r) (.var 2 r')).run s = (.error .outOfFuel, s')) ∧
      ∃ s', (equate n (.var 1 r) (.var 3 r')).run s = (.error .outOfFuel, s') := by
  let here := Range.label "here"
  induction n generalizing r r' s with
  | zero => exact ⟨⟨s, rfl⟩, ⟨s, rfl⟩⟩
  | succ n ih =>
      obtain ⟨subst, kinds, compared⟩ := s
      obtain rfl : subst = endless.subst := hsubst
      obtain rfl : kinds = endless.kinds := hkinds
      constructor
      · let logged := Solver.log ⟨endless.subst, endless.kinds, compared⟩ (.var 0 r) (.var 2 r')
        obtain ⟨s', hs'⟩ := (ih here here logged rfl rfl).2
        have hshared : (equatePairs (equate n) [(.var 1 here, .var 3 here)] none).run logged =
            (.error .outOfFuel, s') := run_bind_of_error (run_bind_of_error hs')
        refine ⟨s', ?_⟩
        change (joinVars (equate n) 0 2 r').run logged = _
        rw [joinVars_run]
        exact run_bind_of_error hshared
      · obtain ⟨s', hs'⟩ := (ih here here
          (Solver.log ⟨endless.subst, endless.kinds, compared⟩ (.list (.var 0 here) here)
            (.list (.var 2 here) here)) rfl rfl).1
        exact ⟨s', hs'⟩

/-- Two comparisons that succeed make records that the third one compares forever. -/
theorem equate_endless :
    (∃ s, twoRecords.unify (.var 1 (.label "here")) (.list (.var 0 (.label "here")) (.label "here")) =
        (.ok (), s) ∧
      s.unify (.var 3 (.label "here")) (.list (.var 2 (.label "here")) (.label "here")) =
        (.ok (), endless)) ∧
    ∀ n, ∃ s, (equate n (.var 0 (.label "here")) (.var 2 (.label "here"))).run endless =
      (.error .outOfFuel, s) := by
  refine ⟨⟨_, rfl, rfl⟩, fun n => ?_⟩
  exact (equate_rounds n _ _ endless rfl rfl).1

end FieldML
