import FieldML.Proofs.Script.Program
import FieldML.Run

/-!
# The counter of the type variables

A check counts its type variables without a bound, though their counter has 32 bits. Here the script
of a check is run with a generator of that kind: whenever a variable is asked for, the generator
answers, and the run comes to nothing if it cannot. Since the numbers only grow, such a run has the
same outcome as the check, unless the check ends with a number that the counter cannot hold.
-/

namespace FieldML

namespace Check

variable {α β : Type} {p : Check α} {o : CheckOptions} {s : CheckState}

/-- How many variables the call takes from the generator. -/
def Call.taken : {α : Type} → Call α → Nat
  | _, .freshId => 1
  | _, _ => 0

/-- The call with the generator of the state. Nothing comes of it if the counter overflows. -/
def Call.run32 (o : CheckOptions) (s : CheckState) :
    {α : Type} → Call α → Option (Except TypeError α × CheckState)
  | _, .freshId => do
      let (v, gen) ← (← s.gen?).fresh?
      return (.ok v, { s with next := gen.next.toNat })
  | _, c => some (c.run o s)

/-- The run of the check with a generator whose counter has 32 bits. -/
def Script.run32 (o : CheckOptions) : {α : Type} → {p : Check α} → Script p → CheckState →
    Option (Except TypeError α × CheckState)
  | _, _, .pure a, s => some (.ok a, s)
  | _, _, .call c, s => c.run32 o s
  | _, _, .bind x f, s =>
      match run32 o x s with
      | none => none
      | some (.error e, s') => some (.error e, s')
      | some (.ok a, s') => run32 o (f a) s'
  | _, _, .holding _ _ x, s => run32 o x s
  | _, _, .ofEq _ x, s => run32 o x s

/-- The outcome of a run, unless it ends with a number that the counter cannot hold. -/
def within32 (run : Except TypeError α × CheckState) : Option (Except TypeError α × CheckState) :=
  if run.2.next < UInt32.size then some run else none

theorem next_foldl_remark (ws : List Warning) (s : CheckState) :
    (ws.foldl CheckState.remark s).next = s.next := by
  induction ws generalizing s with
  | nil => rfl
  | cons w ws ih => exact ih (s.remark w)

theorem next_checkCoverage (arms : List (CoreArm Core)) (armRanges : List Range) (range : Range)
    (o : CheckOptions) (s : CheckState) :
    (checkCoverage arms armRanges range o s).2.next = s.next := by
  simp only [checkCoverage, bind_apply, get_apply, forM_warn]
  cases (Coverage.analyze s.variants (arms.map (·.pattern))).missing with
  | none => exact next_foldl_remark _ s
  | some missing =>
      simp only [bind_apply, read_apply]
      cases o.exhaustiveness with
      | error => exact next_foldl_remark _ s
      | warn => exact next_foldl_remark _ s

theorem Call.next_run (c : Call α) (o : CheckOptions) (s : CheckState) :
    (c.run o s).2.next = s.next + c.taken := by
  cases c with
  | get | fail | freshId | giveKind | report | instantiateArgs => rfl
  | unify expected found range =>
      rw [Call.run, unify_apply]
      rfl
  | lookupConstructor variants ctor =>
      rw [Call.run]
      cases variants.lookupConstructor ctor.text ctor.range <;> rfl
  | resolve variants name args range =>
      rw [Call.run]
      cases variants.resolve name.text args range <;> rfl
  | setVariants variants => cases variants <;> rfl
  | checkCoverage arms armRanges range => exact next_checkCoverage arms armRanges range o s

/-- The numbers only grow, also in a check that fails. -/
theorem Script.next_le (x : Script p) (o : CheckOptions) (s : CheckState) :
    s.next ≤ (p o s).2.next := by
  induction x generalizing s with
  | pure a => exact le_rfl
  | call c =>
      rw [c.next_run]
      exact Nat.le_add_right _ _
  | @bind _ _ p k x f ihx ihf =>
      have hfirst := ihx s
      rw [bind_apply]
      rcases hrun : p o s with ⟨e | a, s₁⟩
      · rw [hrun] at hfirst
        exact hfirst
      · rw [hrun] at hfirst
        exact hfirst.trans (ihf a s₁)
  | holding _ _ _ ih => exact ih s
  | ofEq h _ ih => exact h ▸ ih s

theorem run32_freshId (hs : s.next < UInt32.size) :
    Call.freshId.run32 o s = within32 (Call.freshId.run o s) := by
  have hgen : (UInt32.ofNat s.next).toNat = s.next := by simpa using Nat.mod_eq_of_lt hs
  simp only [Call.run32, CheckState.gen?, hs, if_true, TypeVarGen.fresh?, hgen, within32,
    Call.next_run, Call.taken, Option.bind_eq_bind, Option.bind_some]
  split
  · next hlt =>
      have hnext : (UInt32.ofNat s.next + 1).toNat = s.next + 1 := by
        rw [UInt32.toNat_add, hgen]
        exact Nat.mod_eq_of_lt hlt
      simp only [Option.bind_some, hnext]
      rfl
  · rfl

theorem Call.run32_eq (c : Call α) (hs : s.next < UInt32.size) :
    c.run32 o s = within32 (c.run o s) := by
  cases c with
  | freshId => exact run32_freshId hs
  | get | fail | giveKind | report | instantiateArgs | unify | lookupConstructor | resolve
  | setVariants | checkCoverage =>
      unfold within32
      rw [Call.next_run]
      exact (if_pos hs).symm

/-- With a counter of 32 bits, the run has the same outcome, or the counter overflows. -/
theorem Script.run32_eq (x : Script p) (hs : s.next < UInt32.size) :
    x.run32 o s = within32 (p o s) := by
  induction x generalizing s with
  | pure a => exact (if_pos hs).symm
  | call c => exact c.run32_eq hs
  | @bind _ _ p k x f ihx ihf =>
      rw [Script.run32, ihx hs, bind_apply]
      rcases hrun : p o s with ⟨e | a, s₁⟩
      · by_cases hlt : s₁.next < UInt32.size <;> simp only [within32, hlt, if_true, if_false]
      · by_cases hlt : s₁.next < UInt32.size
        · simp only [within32, hlt, if_true]
          exact ihf a hlt
        · -- The counter overflows in the first part, and the second cannot bring it back.
          have hover : ¬ (k a o s₁).2.next < UInt32.size := fun h =>
            hlt (((f a).next_le o s₁).trans_lt h)
          simp only [within32, hlt, hover, if_false]
  | holding _ _ _ ih => exact ih hs
  | ofEq h _ ih => exact h ▸ ih hs

/-- Along the run with a counter of 32 bits, from a state and with some types at hand, `J` holds of
every call that is made, and `Q` of the outcome if there is one. -/
def Script.Follows32 (J : ∀ {α : Type}, Call α → CheckState → List Ty → Prop) (o : CheckOptions) :
    ∀ {α : Type} {p : Check α}, Script p → (α → CheckState → List Ty → Prop) → CheckState →
      List Ty → Prop
  | _, _, .pure a, Q, s, ts => Q a s ts
  | _, _, .call c, Q, s, ts => J c s ts ∧ ∀ a s', c.run32 o s = some (.ok a, s') → Q a s' ts
  | _, _, .bind x f, Q, s, ts => Follows32 J o x (fun a => Follows32 J o (f a) Q) s ts
  | _, _, .holding before after x, Q, s, ts =>
      Follows32 J o x (fun a s' ts' => Q a s' (after a ++ ts')) s (before ++ ts)
  | _, _, .ofEq _ x, Q, s, ts => Follows32 J o x Q s ts

/-- The run with a counter of 32 bits makes the calls of the other run, as far as it gets. -/
theorem Script.Follows.counted {J J' : ∀ {α : Type}, Call α → CheckState → List Ty → Prop}
    (hJ : ∀ {α : Type} (c : Call α) s ts, s.next < UInt32.size → J c s ts → J' c s ts)
    {Q R : α → CheckState → List Ty → Prop} {x : Script p} {ts : List Ty}
    (h : x.Follows J o Q s ts) (hs : s.next < UInt32.size)
    (hQ : ∀ a s' ts', s'.next < UInt32.size → Q a s' ts' → R a s' ts') :
    x.Follows32 J' o R s ts := by
  induction x generalizing s ts with
  | pure a => exact hQ a s ts hs h
  | call c =>
      refine ⟨hJ c s ts hs h.1, fun a s' hrun => ?_⟩
      rw [c.run32_eq hs] at hrun
      obtain ⟨hlt, hrun⟩ := Option.ite_none_right_eq_some.1 hrun
      obtain hrun := Option.some.inj hrun
      rw [hrun] at hlt
      exact hQ a s' ts hlt (h.2 a s' hrun)
  | bind x f ihx ihf =>
      exact ihx h hs fun a s₁ ts₁ hs₁ hf => ihf a hf hs₁ hQ
  | holding before after x ih => exact ih h hs fun a s' ts' hs' hq => hQ a s' _ hs' hq
  | ofEq _ _ ih => exact ih h hs hQ

theorem next_start_lt : (start initialEnvironments.variants initialEnvironments.kinds
    initialEnvironments.types).next < UInt32.size := by decide +kernel

/-- The check of a program in the initial environments, with a generator whose counter has 32 bits. -/
theorem run32_session (o : CheckOptions) (p : Program) :
    (Script.session initialEnvironments p).run32 o
        (start initialEnvironments.variants initialEnvironments.kinds initialEnvironments.types) =
      within32 (outcome initialEnvironments o p) :=
  (Script.session initialEnvironments p).run32_eq next_start_lt

end Check

/-- The check of a text that can be read has an outcome if and only if the counter of 32 bits does not
overflow, and then it is that of the run with this counter. -/
theorem completed?_checkSource {source : String} {tokens : List Token} {p : Program}
    (hlex : Token.lex source = .ok tokens) (hparse : Program.ofTokens tokens = .ok p)
    (settings : Settings) :
    (checkSource source settings).completed?.map (·.1) =
      ((Check.Script.session initialEnvironments p).run32 settings.checkOptions
        (Check.start initialEnvironments.variants initialEnvironments.kinds
          initialEnvironments.types)).map fun run =>
        (Check.conclude run).1.mapError RunError.type := by
  rw [Check.run32_session]
  unfold checkSource
  simp only [hlex, hparse]
  rcases Check.outcome initialEnvironments settings.checkOptions p with ⟨e | ⟨core, t⟩, s⟩
  · by_cases hlt : s.next < UInt32.size <;>
      simp [Outcome.completed?, Check.within32, Check.conclude, hlt, Except.mapError]
  · by_cases hlt : s.next < UInt32.size <;>
      simp [Outcome.completed?, Check.within32, Check.conclude, hlt, Except.mapError]

end FieldML
