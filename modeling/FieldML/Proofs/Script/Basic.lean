import FieldML.Check.Program
import FieldML.Proofs.Check.Change

/-!
# Checks as scripts of calls

A check is made of calls, one after the other, where what is called may depend on the answers so far.
A script of a check says which calls these are: its type names the check, so that a script cannot
tell another story than the check itself. What holds of all calls, and passes from the parts of a
sequence to the whole, holds of every check that has a script; and a script can be followed along a
run of its check, from call to call.
-/

namespace FieldML.Check

/-- What a check asks for, with the type of the answer. -/
inductive Call : Type → Type 1
  | get : Call CheckState
  /-- Refuses the program, but not for a match that misses a case, which `checkCoverage` does. -/
  | fail {α : Type} (cause : TypeError.Cause) (range : Range)
      (h : ∀ missing, cause ≠ .nonExhaustive missing) : Call α
  | freshId : Call TypeVar
  /-- Records the kind of a new variable; `kinds` are the kinds with it. -/
  | giveKind (v : TypeVar) (kind : Kind) (kinds : KindEnv) : Call Unit
  | unify (expected found : Ty) (range : Range) : Call Unit
  | report (e : Event) : Call Unit
  | lookupConstructor (variants : VariantEnv) (ctor : Ident) : Call Constructor
  | instantiateArgs (c : Constructor) (typeArgs : List Ty) (range : Range) : Call (Ty × List Ty)
  | resolve (variants : VariantEnv) (name : Ident) (args : List Ty) (range : Range) : Call Ty
  | setVariants (variants : Except VariantError VariantEnv) : Call Unit
  | checkCoverage (arms : List (CoreArm Core)) (armRanges : List Range) (range : Range) : Call Unit

/-- The part of a check that consists of one call. -/
def Call.run : {α : Type} → Call α → Check α
  | _, .get => MonadState.get
  | _, .fail cause range _ => Check.fail cause range
  | _, .freshId => Check.freshId
  | _, .giveKind v kind kinds => modify fun s =>
      { s with
        solver := { s.solver with kinds := kinds }
        kinded := (v, kind) :: s.kinded }
  | _, .unify expected found range => Check.unify expected found range
  | _, .report e => Check.report e
  | _, .lookupConstructor variants ctor =>
      liftVariant (variants.lookupConstructor ctor.text ctor.range)
  | _, .instantiateArgs c typeArgs range =>
      return (.variant c.variant typeArgs range, c.instantiateArgs typeArgs)
  | _, .resolve variants name args range => liftVariant (variants.resolve name.text args range)
  | _, .setVariants variants => Check.setVariants variants
  | _, .checkCoverage arms armRanges range => Check.checkCoverage arms armRanges range

/-- The calls of a check. -/
inductive Script : {α : Type} → Check α → Type 1
  | pure {α : Type} (a : α) : Script (Pure.pure a : Check α)
  | call {α : Type} (c : Call α) : Script c.run
  | bind {α β : Type} {p : Check α} {k : α → Check β} (x : Script p) (f : ∀ a, Script (k a)) :
      Script (p >>= k)
  /-- The check has some types at hand before, and some more, which are those of its outcome, after
  the script. -/
  | holding {α : Type} {p : Check α} (before : List Ty) (after : α → List Ty) (x : Script p) :
      Script p
  | ofEq {α : Type} {p q : Check α} (h : q = p) (x : Script p) : Script q

namespace Script

variable {α β : Type}

/-- What holds of every call and of what gives an answer without one, and passes from the parts of a
sequence to the whole, holds of every check with a script. -/
theorem closed {P : ∀ {α : Type}, Check α → Prop}
    (hpure : ∀ {α : Type} (a : α), P (Pure.pure a : Check α))
    (hcall : ∀ {α : Type} (c : Call α), P c.run)
    (hbind : ∀ {α β : Type} {p : Check α} {k : α → Check β}, P p → (∀ a, P (k a)) → P (p >>= k))
    {p : Check α} (x : Script p) : P p := by
  induction x with
  | pure a => exact hpure a
  | call c => exact hcall c
  | bind _ _ hp hk => exact hbind hp hk
  | holding _ _ _ hp => exact hp
  | ofEq h _ hp => exact h ▸ hp

/-! ### Scripts of steps -/

def ite {c : Prop} [inst : Decidable c] {p q : Check α} (x : Script p) (y : Script q) :
    Script (if c then p else q) :=
  match inst with
  | .isTrue _ => x
  | .isFalse _ => y

def fail (cause : TypeError.Cause) (range : Range)
    (h : ∀ missing, cause ≠ .nonExhaustive missing := by simp) :
    Script (Check.fail cause range : Check α) :=
  call (.fail cause range h)

def report (e : Event) : Script (Check.report e) := call (.report e)

def setVariants (variants : Except VariantError VariantEnv) :
    Script (Check.setVariants variants) :=
  call (.setVariants variants)

def fresh (range : Range) : Script (Check.fresh range) :=
  holding [] (fun t => [t]) <| (call .freshId).bind fun _ => pure _

def freshKinded (kind : Kind) (range : Range) : Script (Check.freshKinded kind range) :=
  holding (kind.fields.map (·.2)) (fun t => [t]) <| (call .freshId).bind fun v =>
    match kind with
    | .universal => pure _
    | .record fs => (call .get).bind fun s =>
        match s.solver.kinds.extend v (.record fs) with
        | .ok kinds => (call (.giveKind v (.record fs) kinds)).bind fun _ => pure _
        | .error cause =>
            (fail (.alreadyKinded cause) (.label "kind environment")).bind fun _ => pure _

def unify (expected found : Ty) (range : Range) : Script (Check.unify expected found range) :=
  holding [expected, found] (fun _ => []) (call (.unify expected found range))

def resolve (t : Ty) : Script (Check.resolve t) :=
  holding [t] (fun u => [u]) <| (call .get).bind fun _ => pure _

def openQuantifiers (range : Range) : (n : Nat) → (t : Ty) →
    Script (Check.openQuantifiers range n t)
  | 0, t => pure t
  | n + 1, t =>
      holding [t] (fun _ => []) <|
        match t with
        | .all _ kind _ _ => (freshKinded kind range).bind fun _ => openQuantifiers range n _
        | .base _ _ | .var _ _ | .func _ _ _ | .list _ _ | .ref _ _ | .product _ _ | .variant _ _ _
        | .synonym _ _ _ _ | .record _ _ => pure _

def instantiate (t : Ty) (range : Range) : Script (Check.instantiate t range) :=
  holding [t] (fun u => [u]) <| (openQuantifiers range _ t).bind fun _ => pure _

def mapMLoop {f : α → Check β} (x : ∀ a, Script (f a)) : (l : List α) → (done : List β) →
    Script (List.mapM.loop f l done)
  | [], _ => pure _
  | a :: l, _ => (x a).bind fun _ => mapMLoop x l _

def mapM {f : α → Check β} (x : ∀ a, Script (f a)) (l : List α) : Script (l.mapM f) :=
  mapMLoop x l []

def forM {f : α → Check PUnit} (x : ∀ a, Script (f a)) : (l : List α) → Script (l.forM f)
  | [] => pure _
  | a :: l => (x a).bind fun _ => forM x l

def foldlM {f : β → α → Check β} (x : ∀ b a, Script (f b a)) : (l : List α) → (b : β) →
    Script (l.foldlM f b)
  | [], _ => pure _
  | a :: l, b => (x b a).bind fun _ => foldlM x l _

end Script

end FieldML.Check

/-! ### Following a script

A script is followed along the run of its check from a state, with the types that the check has at
hand so far. What is demanded of a call may depend on the state in which it is made and on these types.
 -/

namespace FieldML.Check.Script

variable {α β : Type} {p : Check α} {o : CheckOptions} {s : CheckState} {ts : List Ty}

/-- Along the run of the check from a state, with some types at hand, `J` holds of every call, and `Q`
of the outcome if there is one. -/
def Follows (J : ∀ {α : Type}, Call α → CheckState → List Ty → Prop) (o : CheckOptions) :
    ∀ {α : Type} {p : Check α}, Script p → (α → CheckState → List Ty → Prop) → CheckState →
      List Ty → Prop
  | _, _, .pure a, Q, s, ts => Q a s ts
  | _, _, .call c, Q, s, ts => J c s ts ∧ ∀ a s', c.run o s = (.ok a, s') → Q a s' ts
  | _, _, .bind x f, Q, s, ts => Follows J o x (fun a => Follows J o (f a) Q) s ts
  | _, _, .holding before after x, Q, s, ts =>
      Follows J o x (fun a s' ts' => Q a s' (after a ++ ts')) s (before ++ ts)
  | _, _, .ofEq _ x, Q, s, ts => Follows J o x Q s ts

variable {J K : ∀ {α : Type}, Call α → CheckState → List Ty → Prop}
  {Q R : α → CheckState → List Ty → Prop} {I : CheckState → Prop}

/-- What is known of the outcome of the run may be added to what holds of it. -/
theorem Follows.of_run {x : Script p} (h : x.Follows J o Q s ts)
    (hQ : ∀ a s' ts', p o s = (.ok a, s') → Q a s' ts' → R a s' ts') : x.Follows J o R s ts := by
  induction x generalizing s ts with
  | pure a => exact hQ a s ts rfl h
  | call c => exact ⟨h.1, fun a s' hrun => hQ a s' ts hrun (h.2 a s' hrun)⟩
  | bind x f ihx ihf =>
      refine ihx h fun a s₁ ts₁ hrun hf => ihf a hf fun b s₂ ts₂ hrun₂ hq => hQ b s₂ ts₂ ?_ hq
      rw [bind_apply, hrun]
      exact hrun₂
  | holding before after x ih =>
      exact ih h fun a s' ts' hrun hq => hQ a s' _ hrun hq
  | ofEq heq x ih => exact ih h fun a s' ts' hrun hq => hQ a s' ts' (heq ▸ hrun) hq

theorem Follows.mono {x : Script p} (h : x.Follows J o Q s ts)
    (hJ : ∀ {α : Type} (c : Call α) s ts, J c s ts → K c s ts) : x.Follows K o Q s ts := by
  induction x generalizing s ts with
  | pure a => exact h
  | call c => exact ⟨hJ c s ts h.1, h.2⟩
  | bind x f ihx ihf =>
      exact (ihx h).of_run fun a s₁ ts₁ _ hf => ihf a hf
  | holding before after x ih => exact ih h
  | ofEq heq x ih => exact ih h

theorem Follows.and {x : Script p} (h : x.Follows J o Q s ts) (h' : x.Follows K o R s ts) :
    x.Follows (fun c s ts => J c s ts ∧ K c s ts) o (fun a s ts => Q a s ts ∧ R a s ts) s ts := by
  induction x generalizing s ts with
  | pure a => exact ⟨h, h'⟩
  | call c => exact ⟨⟨h.1, h'.1⟩, fun a s' hrun => ⟨h.2 a s' hrun, h'.2 a s' hrun⟩⟩
  | bind x f ihx ihf =>
      exact (ihx h h').of_run fun a s₁ ts₁ _ hf => ihf a hf.1 hf.2
  | holding before after x ih => exact ih h h'
  | ofEq heq x ih => exact ih h h'

/-- What every call keeps holds wherever a call is made, and in the end. -/
theorem Follows.carry {x : Script p} (h : x.Follows J o Q s ts) (hs : I s)
    (hstep : ∀ {α : Type} (c : Call α) s ts, J c s ts → I s → I (c.run o s).2) :
    x.Follows (fun c s ts => J c s ts ∧ I s) o (fun a s ts => Q a s ts ∧ I s) s ts := by
  induction x generalizing s ts with
  | pure a => exact ⟨h, hs⟩
  | call c =>
      refine ⟨⟨h.1, hs⟩, fun a s' hrun => ⟨h.2 a s' hrun, ?_⟩⟩
      have hnext := hstep c s ts h.1 hs
      rwa [hrun] at hnext
  | bind x f ihx ihf =>
      exact (ihx h hs).of_run fun a s₁ ts₁ _ hf => ihf a hf.1 hf.2
  | holding before after x ih => exact ih h hs
  | ofEq heq x ih => exact ih h hs

theorem Follows.outcome {x : Script p} (h : x.Follows J o Q s ts) {a : α} {s' : CheckState}
    (hrun : p o s = (.ok a, s')) : ∃ ts', Q a s' ts' := by
  induction x generalizing s ts s' with
  | pure a =>
      obtain ⟨⟨rfl⟩, rfl⟩ := Prod.mk.inj hrun
      exact ⟨ts, h⟩
  | call c => exact ⟨ts, h.2 a s' hrun⟩
  | @bind _ _ p k x f ihx ihf =>
      rw [bind_apply] at hrun
      rcases hfirst : p o s with ⟨e | b, s₁⟩
      · rw [hfirst] at hrun
        cases hrun
      · rw [hfirst] at hrun
        obtain ⟨ts₁, hf⟩ := ihx h hfirst
        exact ihf b hf hrun
  | holding before after x ih =>
      obtain ⟨ts', hq⟩ := ih h hrun
      exact ⟨_, hq⟩
  | ofEq heq x ih => exact ih h (heq ▸ hrun)

/-- What holds in the end and cannot have come about in a call holds wherever a call is made. -/
theorem Follows.of_end {x : Script p} (h : x.Follows J o Q s ts)
    (hback : ∀ {α : Type} (c : Call α) s ts, J c s ts → I (c.run o s).2 → I s)
    (hend : I (p o s).2) : x.Follows (fun _ s _ => I s) o (fun _ s _ => I s) s ts ∧ I s := by
  induction x generalizing s ts with
  | pure a => exact ⟨hend, hend⟩
  | call c =>
      have hs := hback c s ts h.1 hend
      refine ⟨⟨hs, fun a s' hrun => ?_⟩, hs⟩
      rw [hrun] at hend
      exact hend
  | @bind _ _ p k x f ihx ihf =>
      have hx : x.Follows J o (fun a => (f a).Follows J o Q) s ts := h
      rw [bind_apply] at hend
      rcases hfirst : p o s with ⟨e | a, s₁⟩
      · rw [hfirst] at hend
        obtain ⟨hpre, hs⟩ := ihx hx (by rwa [hfirst])
        refine ⟨hpre.of_run fun a s₁ ts₁ hrun _ => ?_, hs⟩
        cases hfirst.symm.trans hrun
      · rw [hfirst] at hend
        obtain ⟨ts₁, hf⟩ := hx.outcome hfirst
        obtain ⟨hpre, hs⟩ := ihx hx (by rw [hfirst]; exact (ihf a hf hend).2)
        refine ⟨((hx.and hpre).mono fun _ _ _ hc => hc.2).of_run fun b s₂ ts₂ hrun hf => ?_, hs⟩
        obtain ⟨⟨rfl⟩, rfl⟩ := Prod.mk.inj (hfirst.symm.trans hrun)
        exact (ihf a hf.1 hend).1
  | holding before after x ih => exact ih h hend
  | ofEq heq x ih =>
      subst heq
      exact ih h hend

/-- A fault comes from a call. -/
theorem Follows.error {x : Script p} (h : x.Follows J o Q s ts) {P : TypeError → Prop}
    (hcall : ∀ {α : Type} (c : Call α) s ts e s', J c s ts → c.run o s = (.error e, s') → P e)
    {e : TypeError} {s' : CheckState} (hrun : p o s = (.error e, s')) : P e := by
  induction x generalizing s ts s' with
  | pure a => cases hrun
  | call c => exact hcall c s ts e s' h.1 hrun
  | @bind _ _ p k x f ihx ihf =>
      rw [bind_apply] at hrun
      rcases hfirst : p o s with ⟨e₁ | a, s₁⟩
      · rw [hfirst] at hrun
        obtain ⟨⟨rfl⟩, rfl⟩ := Prod.mk.inj hrun
        exact ihx h hfirst
      · rw [hfirst] at hrun
        have hx : x.Follows J o (fun a => (f a).Follows J o Q) s ts := h
        obtain ⟨ts₁, hf⟩ := hx.outcome hfirst
        exact ihf a hf hrun
  | holding before after x ih => exact ih h hrun
  | ofEq heq x ih => exact ih h (heq ▸ hrun)

end FieldML.Check.Script
