import FieldML.Proofs.Binders
import FieldML.Proofs.Unify.Solution

/-!
# Sessions

Types and kinds are unified one after the other, and any call may fail. From kinds that do not lead
back to their variables, no call ever leads one back and no constraint is ever lost as long as no
variable is made equal to a type with a variable that leads to it. This is so whenever all that was
granted has a finite solution. Other calls are granted all the same where a kind leads back to its
variable through a binding or through the kind of another variable.
-/

namespace FieldML

namespace KindEnv

/-- The environment was built by giving simple kinds to variables that had none. -/
inductive Extended (syn : Prop) : KindEnv → Prop
  | empty : Extended syn .empty
  | extend {env env' : KindEnv} {v : TypeVar} {k : Kind} (henv : Extended syn env)
      (hk : k.Simple syn) (heq : env.extend v k = .ok env') : Extended syn env'

theorem kindOf_empty (v : TypeVar) : empty.kindOf v = .universal := by
  simp [kindOf, empty]

theorem Extended.simple {syn : Prop} {env : KindEnv} (h : env.Extended syn) (w : TypeVar) :
    (env.kindOf w).Simple syn := by
  induction h with
  | empty =>
      rw [kindOf_empty]
      exact Kind.simple_universal
  | @extend env env' v k _ hk heq ih =>
      unfold KindEnv.extend at heq
      split at heq
      · simp at heq
      · obtain rfl : env.refine v k = env' := Except.ok.inj heq
        rw [kindOf_refine]
        split
        · exact hk
        · exact ih

end KindEnv

namespace Solver

open Unify

variable {syn : Prop} {θ : Assignment} {s s' s₁ : Solver} {a b : Ty} {k l : Kind} {v w : TypeVar}
  {ps : List (Ty × Ty)} {n : Nat}

/-- Unifying two simple kinds follows the rules, and a failure changes nothing but the record of
comparisons. -/
theorem unifyKinds_runs (hs : s.Simple syn) (hk : k.Simple syn) (hl : l.Simple syn) :
    ∃ r s₁, Runs (s.fuel (k.size + l.size)) s.forget (sharedPairs k l) r s₁ ∧
      s.unifyKinds k l = match r with
        | none => (.ok (s₁.subst.applyKind (mergedKind k l)), s₁)
        | some e => (.error (s.contradiction e (.record k.fields .erased)
            (.record l.fields .erased)), { s with compared := s₁.compared }) := by
  have hs₀ : s.forget.Simple syn := hs.forget
  have hmerge : (mergeKinds (equate (s.fuel (k.size + l.size))) k l).run { s with compared := [] } =
      ((equatePairs (equate (s.fuel (k.size + l.size))) (sharedPairs k l) none >>= fun _ =>
        pure (mergedKind k l)) : Unify Kind).run s.forget := by
    rw [mergeKinds_eq]
    rfl
  rw [run_bind] at hmerge
  rcases hout : (equatePairs (equate (s.fuel (k.size + l.size))) (sharedPairs k l) none).run
    s.forget with ⟨e | ⟨⟩, s₁⟩
  · have hyields : Yields (equatePairs (equate (s.fuel (k.size + l.size))) (sharedPairs k l) none)
        s.forget (some e) s₁ := by
      simp only [Yields, hout, Unify.failure, and_self]
    obtain ⟨r, hr, hrun⟩ := equatePairs_runs (equate_runs _) hs₀ (sharedPairs_simple hk hl) hyields
    obtain rfl : some e = r := by simpa using hr
    rw [hout] at hmerge
    exact ⟨some e, s₁, hrun, by simp only [unifyKinds, hmerge]⟩
  · have hyields : Yields (equatePairs (equate (s.fuel (k.size + l.size))) (sharedPairs k l) none)
        s.forget none s₁ := by
      simp only [Yields, hout, Unify.failure, and_self]
    obtain ⟨r, hr, hrun⟩ := equatePairs_runs (equate_runs _) hs₀ (sharedPairs_simple hk hl) hyields
    obtain rfl : none = r := by simpa using hr
    rw [hout] at hmerge
    exact ⟨none, s₁, hrun, by simp only [unifyKinds, hmerge]; rfl⟩

/-- One call on a solver. -/
inductive Request where
  | types (expected found : Ty)
  | kinds (left right : Kind)

namespace Request

/-- What the call does, and whether it is granted. -/
def run (s : Solver) : Request → Bool × Solver
  | types a b => ((s.unify a b).1.isOk, (s.unify a b).2)
  | kinds k l => ((s.unifyKinds k l).1.isOk, (s.unifyKinds k l).2)

/-- How deep the call may compare. -/
def depth (s : Solver) : Request → Nat
  | types a b => s.fuel (a.size + b.size)
  | kinds k l => s.fuel (k.size + l.size)

/-- The types that the call makes equal. -/
def pairs : Request → List (Ty × Ty)
  | types a b => [(a, b)]
  | kinds k l => sharedPairs k l

def Simple (syn : Prop) : Request → Prop
  | types a b => a.Simple syn ∧ b.Simple syn
  | kinds k l => k.Simple syn ∧ l.Simple syn

theorem Simple.pairs {q : Request} (hq : q.Simple syn) : AllSimple syn q.pairs := by
  cases q with
  | types a b =>
      intro p hp
      obtain rfl := List.mem_singleton.1 hp
      exact hq
  | kinds k l => exact sharedPairs_simple hq.1 hq.2

/-- A call that is granted follows the rules, and any other one changes nothing but the record of
comparisons. -/
theorem run_cases {q : Request} (hs : s.Simple syn) (hq : q.Simple syn) :
    ((q.run s).1 = true ∧ Runs (q.depth s) s.forget q.pairs none (q.run s).2) ∨
      (q.run s).1 = false ∧ (q.run s).2.subst = s.subst ∧ (q.run s).2.kinds = s.kinds := by
  cases q with
  | types a b =>
      obtain ⟨r, s₁, hrun, hunify⟩ := unify_runs hs hq.1 hq.2
      rw [run, hunify]
      cases r with
      | none => exact Or.inl ⟨rfl, hrun⟩
      | some e => exact Or.inr ⟨rfl, rfl, rfl⟩
  | kinds k l =>
      obtain ⟨r, s₁, hrun, hunify⟩ := unifyKinds_runs hs hq.1 hq.2
      rw [run, hunify]
      cases r with
      | none => exact Or.inl ⟨rfl, hrun⟩
      | some e => exact Or.inr ⟨rfl, rfl, rfl⟩

/-- If it is granted, the call never makes a variable equal to a type with a variable that leads to
it. -/
def Clear (s : Solver) (q : Request) : Prop :=
  (q.run s).1 = true → ∀ s', Unify.Clear (q.depth s) s.forget q.pairs none s'

end Request

/-- The state after some calls. -/
def answer (s : Solver) (qs : List Request) : Solver := qs.foldl (fun s q => (q.run s).2) s

/-- Those of the calls that are granted. -/
def granted (s : Solver) : List Request → List Request
  | [] => []
  | q :: qs => if (q.run s).1 then q :: granted (q.run s).2 qs else granted (q.run s).2 qs

/-- None of the calls leads a kind back to its variable. -/
def Clears : Solver → List Request → Prop
  | _, [] => True
  | s, q :: qs => q.Clear s ∧ Clears (q.run s).2 qs

/-- The state is in order, no kind leads back to its variable, and every field that a kind ever asked
for is known of its variable. -/
structure Steady (syn : Prop) (s : Solver) : Prop where
  proper : s.Proper syn
  acyclic : s.Acyclic
  known : ∀ v, ∀ p ∈ (s.kindOf v).fields, s.Has (.var v .erased) p.1 p.2

namespace Steady

theorem congr (h : s.Steady syn) (hsubst : s'.subst = s.subst) (hkinds : s'.kinds = s.kinds) :
    s'.Steady syn := by
  obtain ⟨_, _, _⟩ := s'
  obtain rfl : _ = s.subst := hsubst
  obtain rfl : _ = s.kinds := hkinds
  exact ⟨⟨h.proper.triangular, h.proper.kind⟩, h.acyclic, h.known⟩

/-- A run that closes no cycle keeps the state steady, and loses nothing. -/
theorem runs (h : s.Steady syn) (hrun : Runs n s.forget ps none s₁) (hps : AllSimple syn ps)
    (hclear : Unify.Clear n s.forget ps none s₁) : s₁.Steady syn ∧ Concludes syn s s₁ ps := by
  have hset := hrun.concludes h.proper.forget hps h.acyclic hclear rfl
  have hkeeps : Keeps syn s s₁ := ⟨hset.keeps.field, hset.keeps.kind⟩
  refine ⟨⟨hset.proper, hset.acyclic, fun v p hp => ?_⟩, hset.proper, hset.extended, hset.acyclic,
    hset.alike, hkeeps, hset.apart, hset.unchanged⟩
  rcases hkeeps.kind v p hp with hold | hnew
  · exact hkeeps.field _ _ _ (.var v _) ((h.proper.kind v).2 p hold) (h.known v p hold)
  · exact hnew

theorem request (h : s.Steady syn) {q : Request} (hq : q.Simple syn) (hclear : q.Clear s) :
    (q.run s).2.Steady syn := by
  rcases Request.run_cases h.proper.simple hq with ⟨hok, hrun⟩ | ⟨-, hsubst, hkinds⟩
  · exact (h.runs hrun hq.pairs (hclear hok _)).1
  · exact h.congr hsubst hkinds

/-- Calls that lead no kind back keep the state steady. -/
theorem answer (h : s.Steady syn) {qs : List Request} (hqs : ∀ q ∈ qs, q.Simple syn)
    (hclear : s.Clears qs) : (s.answer qs).Steady syn := by
  induction qs generalizing s with
  | nil => exact h
  | cons q qs ih =>
      obtain ⟨hq, hclear⟩ := hclear
      exact ih (h.request (hqs q List.mem_cons_self) hq)
        (fun q' hq' => hqs q' (List.mem_cons_of_mem _ hq')) hclear

theorem start {env : KindEnv} (henv : env.Extended syn) (hacyc : Acyclic { kinds := env }) :
    Steady syn { kinds := env } := by
  have hproper : Proper syn { kinds := env } := ⟨.empty, henv.simple⟩
  exact ⟨hproper, hacyc, fun v p hp => has_of_kind hproper Substitution.find?_empty hp⟩

end Steady

/-- What a solution makes equal leads no kind back. -/
theorem SolvedBy.clear (hθ : s.SolvedBy θ) (hs : s.Proper syn) {q : Request} (hq : q.Simple syn)
    (heq : (q.run s).1 = true → AllEqual θ q.pairs) : q.Clear s := by
  intro hok s' x a b hpass
  have hθ₀ : s.forget.SolvedBy θ := ⟨hθ.binding, hθ.kind⟩
  obtain ⟨-, hlog⟩ :=
    hpass.runs.keeps_solution hs.forget.simple hq.pairs hθ₀ (heq hok) rfl
  -- Everything that was compared is equal under the solution, so the heights under it are ranks.
  have heven : AllEven (rankOf θ) s'.compared := by
    intro p hp
    rcases hlog p hp with hp | hp
    · exact absurd hp List.not_mem_nil
    · exact even_of_ground_eq hp
  exact (hpass.ranked hs.forget hq.pairs hθ₀.ranked heven).2 rfl

/-- A common solution of all that is granted solves the state afterwards, and none of the calls leads
a kind back to its variable. -/
theorem Steady.solved (h : s.Steady syn) (hθ : s.SolvedBy θ) {qs : List Request}
    (hqs : ∀ q ∈ qs, q.Simple syn) (heq : ∀ q ∈ s.granted qs, AllEqual θ q.pairs) :
    s.Clears qs ∧ (s.answer qs).SolvedBy θ := by
  induction qs generalizing s with
  | nil => exact ⟨trivial, hθ⟩
  | cons q qs ih =>
      have hq := hqs q List.mem_cons_self
      rw [granted] at heq
      have hgranted : (q.run s).1 = true → AllEqual θ q.pairs := fun hok =>
        heq q (by rw [if_pos hok]; exact List.mem_cons_self)
      have hrest : ∀ q' ∈ (q.run s).2.granted qs, AllEqual θ q'.pairs := fun q' hq' => by
        apply heq
        split
        · exact List.mem_cons_of_mem _ hq'
        · exact hq'
      have hclear := hθ.clear h.proper hq hgranted
      have hθ' : (q.run s).2.SolvedBy θ := by
        rcases Request.run_cases h.proper.simple hq with ⟨hok, hrun⟩ | ⟨-, hsubst, hkinds⟩
        · have hθ₀ : s.forget.SolvedBy θ := ⟨hθ.binding, hθ.kind⟩
          exact (hrun.keeps_solution h.proper.forget.simple hq.pairs hθ₀ (hgranted hok) rfl).1
        · exact ⟨by rw [hsubst]; exact hθ.binding,
            fun v => by rw [kindOf, hkinds]; exact hθ.kind v⟩
      obtain ⟨hclears, hsolved⟩ := ih (h.request hq hclear) hθ'
        (fun q' hq' => hqs q' (List.mem_cons_of_mem _ hq')) hrest
      exact ⟨⟨hclear, hclears⟩, hsolved⟩

/-- Kinds that a solution meets do not lead back. -/
theorem SolvedBy.acyclic (hθ : s.SolvedBy θ) (hs : s.Proper syn) : s.Acyclic :=
  (hθ.ranked.graded hs).acyclic hs

theorem solvedBy_of_admits {env : KindEnv} (hθ : ∀ v, (env.kindOf v).Admits θ (θ v)) :
    SolvedBy θ { kinds := env } :=
  ⟨fun _ _ hv => absurd (hv.symm.trans Substitution.find?_empty) (Option.some_ne_none _), hθ⟩

theorem leadsTo_refine {env : KindEnv} {u : TypeVar}
    (h : LeadsTo { kinds := env.refine u k } v w) :
    (v = u ∧ ∃ p ∈ k.fields, w ∈ (Substitution.empty.bare p.2).freeVars) ∨
      LeadsTo { kinds := env } v w := by
  obtain ⟨p, hp, hw⟩ := h
  simp only [kindOf, KindEnv.kindOf_refine] at hp
  split at hp
  · next hu => exact Or.inl ⟨hu.symm, p, hp, hw⟩
  · exact Or.inr ⟨p, hp, hw⟩

theorem not_leadsTo_empty : ¬LeadsTo { kinds := .empty } v w := by
  rintro ⟨p, hp, -⟩
  rw [kindOf, KindEnv.kindOf_empty] at hp
  exact absurd hp List.not_mem_nil

/-- From kinds that do not lead back to their variables none ever does, whichever calls were made, as
long as no variable was made equal to a type with a variable that led to it; and this is so if
everything that was granted has a common finite solution. -/
theorem not_leadsTo_self {env : KindEnv} {qs : List Request} (henv : env.Extended True)
    (hqs : ∀ q ∈ qs, q.Simple True) :
    ((∀ v, ¬Relation.TransGen (LeadsTo { kinds := env }) v v) → Clears { kinds := env } qs →
      ∀ v, ¬Relation.TransGen (answer { kinds := env } qs).LeadsTo v v) ∧
    ∀ θ, (∀ v, (env.kindOf v).Admits θ (θ v)) →
      (∀ q ∈ granted { kinds := env } qs, AllEqual θ q.pairs) →
      ∀ v, ¬Relation.TransGen (answer { kinds := env } qs).LeadsTo v v := by
  have hclear : Acyclic { kinds := env } → Clears { kinds := env } qs →
      (answer { kinds := env } qs).Acyclic :=
    fun hacyc hclears => ((Steady.start henv hacyc).answer hqs hclears).acyclic
  refine ⟨hclear, fun θ hkinds heq => ?_⟩
  have hθ := solvedBy_of_admits hkinds
  have hacyc : Acyclic { kinds := env } := hθ.acyclic ⟨.empty, henv.simple⟩
  exact hclear hacyc ((Steady.start henv hacyc).solved hθ hqs heq).1

/-- Two variables with record kinds, the second of which asks for more. -/
def twoFields : KindEnv :=
  (KindEnv.empty.refine 0 (.record [("f", .var 1 .erased)])).refine 2
    (.record [("f", .list (.var 3 .erased) .erased), ("g", .var 3 .erased)])

theorem kindOf_twoFields (v : TypeVar) :
    twoFields.kindOf v =
      if v = 0 then .record [("f", .var 1 .erased)]
      else if v = 2 then .record [("f", .list (.var 3 .erased) .erased), ("g", .var 3 .erased)]
      else .universal := by
  simp only [twoFields, KindEnv.kindOf_refine, KindEnv.kindOf_empty, eq_comm (b := v)]
  by_cases h : v = 0
  · simp [h]
  · simp [h]

theorem extended_twoFields : twoFields.Extended syn :=
  .extend (v := 2) (.extend (v := 0) .empty ⟨by decide, by simp [Kind.fields, Ty.Simple.var]⟩ rfl)
    ⟨by decide, by simp [Kind.fields, Ty.Simple.var, Ty.Simple.list]⟩ rfl

/-- The variables are joined; then a kind is merged that fixes the field of both; then a variable
would have to contain itself. -/
def twoFieldsRequests : List Request :=
  [.types (.var 0 .erased) (.var 2 .erased),
    .kinds (.record [("f", .var 1 .erased)])
      (.record [("f", .list (.base .int .erased) .erased), ("h", .base .bool .erased)]),
    .types (.var 4 .erased) (.ref (.var 4 .erased) .erased)]

theorem simple_twoFieldsRequests : ∀ q ∈ twoFieldsRequests, q.Simple syn := by
  intro q hq
  simp only [twoFieldsRequests, List.mem_cons, List.not_mem_nil, or_false] at hq
  rcases hq with rfl | rfl | rfl
  · exact ⟨.var _ _, .var _ _⟩
  · exact ⟨⟨by decide, by simp [Kind.fields, Ty.Simple.var]⟩,
      ⟨by decide, by simp [Kind.fields, Ty.Simple.base, Ty.Simple.list]⟩⟩
  · exact ⟨.var _ _, .ref _ (.var _ _)⟩

theorem granted_twoFields :
    granted { kinds := twoFields } twoFieldsRequests = twoFieldsRequests.take 2 := by
  rfl

/-- Both variables mean a record of a list of integers and an integer. -/
def twoFieldsSolution : Assignment
  | 0 | 2 => .record [("f", .list (.base .int)), ("g", .base .int)]
  | 1 => .list (.base .int)
  | 5 => .list (.record [("f", .list (.base .int)), ("g", .base .int)])
  | _ => .base .int

theorem admits_twoFields (v : TypeVar) :
    (twoFields.kindOf v).Admits twoFieldsSolution (twoFieldsSolution v) := by
  rw [kindOf_twoFields]
  split
  · next h =>
      subst h
      exact ⟨_, rfl, by simp [Ty.groundFields, Ty.ground, Fields.get?, twoFieldsSolution]⟩
  · split
    · next h =>
        subst h
        exact ⟨_, rfl, by simp [Ty.groundFields, Ty.ground, Fields.get?, twoFieldsSolution]⟩
    · trivial

theorem allEqual_twoFields :
    ∀ q ∈ granted { kinds := twoFields } twoFieldsRequests, AllEqual twoFieldsSolution q.pairs := by
  rw [granted_twoFields]
  intro q hq
  simp only [twoFieldsRequests, List.take, List.mem_cons, List.not_mem_nil, or_false] at hq
  rcases hq with rfl | rfl
  · simp [Request.pairs, AllEqual, Ty.ground, twoFieldsSolution]
  · simp [Request.pairs, AllEqual, sharedPairs, Kind.fields, Fields.get?, Ty.ground,
      twoFieldsSolution]

theorem acyclic_twoFields : Acyclic { kinds := twoFields } := by
  have hextended : twoFields.Extended True := extended_twoFields
  exact (solvedBy_of_admits admits_twoFields).acyclic ⟨.empty, hextended.simple⟩

theorem steady_twoFields : Steady True { kinds := twoFields } :=
  .start extended_twoFields acyclic_twoFields

theorem clears_twoFields : Clears { kinds := twoFields } twoFieldsRequests :=
  (steady_twoFields.solved (solvedBy_of_admits admits_twoFields) simple_twoFieldsRequests
    allEqual_twoFields).1

theorem not_leadsTo_self_twoFields :
    twoFields.Extended True ∧
      granted { kinds := twoFields } twoFieldsRequests = twoFieldsRequests.take 2 ∧
      Clears { kinds := twoFields } twoFieldsRequests ∧
      ∀ v, ¬Relation.TransGen (answer { kinds := twoFields } twoFieldsRequests).LeadsTo v v :=
  ⟨extended_twoFields, granted_twoFields, clears_twoFields,
    (not_leadsTo_self extended_twoFields simple_twoFieldsRequests).1 acyclic_twoFields
      clears_twoFields⟩

/-- A variable whose kind asks for a field of another variable. -/
def oneField : KindEnv := KindEnv.empty.refine 0 (.record [("f", .var 1 .erased)])

/-- Binding a variable to a list of a variable whose kind mentions it is granted, although it asks
for an infinite record. -/
theorem leadsTo_self_oneField :
    oneField.Extended True ∧
      (∀ v, ¬Relation.TransGen (LeadsTo { kinds := oneField }) v v) ∧
      ∃ s, ({ kinds := oneField } : Solver).unify (.var 1 .erased)
          (.list (.var 0 .erased) .erased) = (.ok (), s) ∧
        Relation.TransGen s.LeadsTo 0 0 := by
  refine ⟨.extend (v := 0) .empty ⟨by decide, by simp [Kind.fields, Ty.Simple.var]⟩ rfl, ?_,
    _, rfl, .single ⟨("f", .var 1 .erased), ?_, ?_⟩⟩
  · refine acyclic_of_lt (f := fun v => 1 - v) fun v w hstep => ?_
    rcases leadsTo_refine hstep with ⟨rfl, p, hp, hw⟩ | hstep
    · obtain rfl := List.mem_singleton.1 hp
      obtain rfl := List.mem_singleton.1 hw
      decide
    · exact absurd hstep not_leadsTo_empty
  · exact List.mem_singleton.2 rfl
  · decide

theorem expand_eq_self {t : Ty} (ht : t.Simple False) : t.expand = t := by
  cases ht with
  | synonym _ _ hsyn => exact hsyn.elim
  | _ => rfl

/-- The variable stands for a record type that has the field, or for a variable whose kind asks for
it, at a type that is equal to `T` once everything that is known is applied. -/
def Shows (s : Solver) (v : TypeVar) (l : String) (T : Ty) : Prop :=
  (∃ fs r u, s.subst.apply (.var v .erased) = .record fs r ∧ Fields.get? fs l = some u ∧
    u.Alike (s.subst.apply T)) ∨
  ∃ w r u, s.subst.apply (.var v .erased) = .var w r ∧
    Fields.get? (s.subst.applyKind (s.kindOf w)).fields l = some u ∧ u.Alike (s.subst.apply T)

theorem Proper.shows_of_has (hs : s.Proper False) {l : String} {T : Ty}
    (h : s.Has (.var v .erased) l T) : s.Shows v l T := by
  have hhead : s.head (.var v .erased) = s.subst.apply (.var v .erased) :=
    expand_eq_self (hs.triangular.simple.apply (.var v _))
  rcases h.cases with ⟨fs, r, hrecord⟩ | ⟨w, r, hvar⟩
  · obtain ⟨u, hu, heq⟩ := h
    rw [fieldsOf_of_record hrecord] at hu
    rw [hhead] at hrecord
    have hidem := hs.triangular.apply_apply hs.triangular (.refl _) (t := .var v .erased) (.var v _)
    rw [hrecord, Substitution.apply_record, Ty.record.injEq] at hidem
    have hfixed := Fields.get?_map s.subst.apply fs l
    rw [hidem.1, hu, Option.map_some, Option.some.injEq] at hfixed
    refine Or.inl ⟨fs, r, u, hrecord, hu, ?_⟩
    rw [Substitution.bare, ← hfixed] at heq
    exact heq
  · obtain ⟨u, hu, heq⟩ := h
    rw [fieldsOf_of_var hvar] at hu
    refine Or.inr ⟨w, r, s.subst.apply u, hhead ▸ hvar, ?_, heq⟩
    rw [Substitution.applyKind, Kind.fields_mapVars, Fields.get?_map, hu]
    rfl

/-- From one state to the other no constraint is lost: what was bound is still bound to the same, and
each field that the kind of a variable asked for is a field of its record type or of the kind of the
variable that it stands for. -/
structure Preserves (s s' : Solver) : Prop where
  equation : ∀ t, s'.subst.apply (s.subst.apply t) = s'.subst.apply t
  field : ∀ v l T, Fields.get? (s.kindOf v).fields l = some T → s'.Shows v l T

theorem Steady.preserves (h : s.Steady False) (hset : Concludes False s s' ps) :
    s.Preserves s' where
  equation := h.proper.triangular.apply_apply_all hset.proper.triangular hset.extended
  field v l T hT := by
    have hmem := Fields.mem_of_get? hT
    apply hset.proper.shows_of_has
    exact hset.keeps.field _ l T (.var v _) ((h.proper.kind v).2 _ hmem) (h.known v _ hmem)

/-- From kinds that do not lead back to their variables, a further call that is granted loses no
constraint as long as no variable was made equal to a type with a variable that led to it. If
everything that was granted has a common finite solution that makes two more types equal, unifying
them succeeds and loses no constraint. -/
theorem unify_keeps_constraints {env : KindEnv} {qs : List Request} (henv : env.Extended False)
    (hqs : ∀ q ∈ qs, q.Simple False) (ha : a.Simple False) (hb : b.Simple False) :
    ((∀ v, ¬Relation.TransGen (LeadsTo { kinds := env }) v v) → Clears { kinds := env } qs →
      Request.Clear (answer { kinds := env } qs) (.types a b) →
      ∀ s', (answer { kinds := env } qs).unify a b = (.ok (), s') →
        (answer { kinds := env } qs).Preserves s') ∧
    ∀ θ, (∀ v, (env.kindOf v).Admits θ (θ v)) →
      (∀ q ∈ granted { kinds := env } qs, AllEqual θ q.pairs) → a.ground θ = b.ground θ →
      ∃ s', (answer { kinds := env } qs).unify a b = (.ok (), s') ∧
        (answer { kinds := env } qs).Preserves s' := by
  have hpreserves : Acyclic { kinds := env } → Clears { kinds := env } qs →
      Request.Clear (answer { kinds := env } qs) (.types a b) →
      ∀ s', (answer { kinds := env } qs).unify a b = (.ok (), s') →
        (answer { kinds := env } qs).Preserves s' := by
    intro hacyc hclears hclear s' hunify
    have hsteady := (Steady.start henv hacyc).answer hqs hclears
    have hsimple : (Request.types a b).Simple False := ⟨ha, hb⟩
    rcases Request.run_cases hsteady.proper.simple hsimple with ⟨hok, hrun⟩ | ⟨hno, -⟩
    · have hset := (hsteady.runs hrun hsimple.pairs (hclear hok _)).2
      simp only [Request.run, hunify] at hset
      exact hsteady.preserves hset
    · simp [Request.run, hunify, Except.isOk, Except.toBool] at hno
  refine ⟨hpreserves, fun θ hkinds hgranted heq => ?_⟩
  have hθ := solvedBy_of_admits hkinds
  have hacyc : Acyclic { kinds := env } := hθ.acyclic ⟨.empty, henv.simple⟩
  obtain ⟨hclears, hsolved⟩ := (Steady.start henv hacyc).solved hθ hqs hgranted
  have hproper := ((Steady.start henv hacyc).answer hqs hclears).proper
  obtain ⟨s', hunify, -⟩ := unify_of_ground_eq hproper ha hb hsolved heq
  have hclear : Request.Clear (answer { kinds := env } qs) (.types a b) :=
    hsolved.clear hproper ⟨ha, hb⟩ fun _ => by simp [Request.pairs, AllEqual, heq]
  exact ⟨s', hunify, hpreserves hacyc hclears hclear s' hunify⟩

theorem clear_twoFields : Request.Clear (answer { kinds := twoFields } twoFieldsRequests)
    (.types (.var 5 .erased) (.list (.var 2 .erased) .erased)) := by
  obtain ⟨hclears, hsolved⟩ := steady_twoFields.solved (solvedBy_of_admits admits_twoFields)
    simple_twoFieldsRequests allEqual_twoFields
  exact hsolved.clear (steady_twoFields.answer simple_twoFieldsRequests hclears).proper
    ⟨.var _ _, .list _ (.var _ _)⟩
    fun _ => by simp [Request.pairs, AllEqual, Ty.ground, twoFieldsSolution]

theorem unify_keeps_constraints_twoFields :
    twoFields.Extended False ∧
      granted { kinds := twoFields } twoFieldsRequests = twoFieldsRequests.take 2 ∧
      ∃ s', (answer { kinds := twoFields } twoFieldsRequests).unify (.var 5 .erased)
          (.list (.var 2 .erased) .erased) = (.ok (), s') ∧
        (answer { kinds := twoFields } twoFieldsRequests).Preserves s' :=
  ⟨extended_twoFields, granted_twoFields, _, rfl,
    (unify_keeps_constraints (a := .var 5 .erased) (b := .list (.var 2 .erased) .erased)
      extended_twoFields simple_twoFieldsRequests (.var _ _) (.list _ (.var _ _))).1
      acyclic_twoFields clears_twoFields clear_twoFields _ rfl⟩

/-- Two variables with a field each, whose types are variables with a field each. -/
def nestedFields : KindEnv :=
  (((KindEnv.empty.refine 0 (.record [("f", .var 2 .erased)])).refine 2
    (.record [("g", .var 5 .erased)])).refine 1 (.record [("f", .var 3 .erased)])).refine 3
    (.record [("g", .list (.var 4 .erased) .erased)])

theorem extended_nestedFields : nestedFields.Extended False :=
  .extend (v := 3) (.extend (v := 1) (.extend (v := 2) (.extend (v := 0) .empty
    ⟨by decide, by simp [Kind.fields, Ty.Simple.var]⟩ rfl)
    ⟨by decide, by simp [Kind.fields, Ty.Simple.var]⟩ rfl)
    ⟨by decide, by simp [Kind.fields, Ty.Simple.var]⟩ rfl)
    ⟨by decide, by simp [Kind.fields, Ty.Simple.var, Ty.Simple.list]⟩ rfl

/-- While the fields of the two outer variables are compared, the first one is bound, and the join
then overwrites that binding: a field that was asked for is not there any more. -/
theorem unify_loses_field_nestedFields :
    nestedFields.Extended False ∧
      (∀ v, ¬Relation.TransGen (LeadsTo { kinds := nestedFields }) v v) ∧
      ∃ s s', ({ kinds := nestedFields } : Solver).unify (.var 5 .erased)
          (.list (.var 0 .erased) .erased) = (.ok (), s) ∧
        s.unify (.var 0 .erased) (.var 1 .erased) = (.ok (), s') ∧
        Fields.get? (s.kindOf 3).fields "g" = some (.list (.var 4 .erased) .erased) ∧
        ¬s'.Shows 3 "g" (.list (.var 4 .erased) .erased) := by
  refine ⟨extended_nestedFields, ?_, _, _, rfl, rfl, rfl, ?_⟩
  · refine acyclic_of_lt (f := fun v => 6 - v) fun v w hstep => ?_
    have hcases : v = 3 ∧ w = 4 ∨ v = 1 ∧ w = 3 ∨ v = 2 ∧ w = 5 ∨ v = 0 ∧ w = 2 := by
      rcases leadsTo_refine hstep with ⟨hv, p, hp, hw⟩ | hstep
      · obtain rfl := List.mem_singleton.1 hp
        exact Or.inl ⟨hv, List.mem_singleton.1 hw⟩
      rcases leadsTo_refine hstep with ⟨hv, p, hp, hw⟩ | hstep
      · obtain rfl := List.mem_singleton.1 hp
        exact Or.inr (Or.inl ⟨hv, List.mem_singleton.1 hw⟩)
      rcases leadsTo_refine hstep with ⟨hv, p, hp, hw⟩ | hstep
      · obtain rfl := List.mem_singleton.1 hp
        exact Or.inr (Or.inr (Or.inl ⟨hv, List.mem_singleton.1 hw⟩))
      rcases leadsTo_refine hstep with ⟨hv, p, hp, hw⟩ | hstep
      · obtain rfl := List.mem_singleton.1 hp
        exact Or.inr (Or.inr (Or.inr ⟨hv, List.mem_singleton.1 hw⟩))
      · exact absurd hstep not_leadsTo_empty
    rcases hcases with ⟨rfl, rfl⟩ | ⟨rfl, rfl⟩ | ⟨rfl, rfl⟩ | ⟨rfl, rfl⟩ <;> decide
  · rintro (⟨fs, r, u, hrecord, -⟩ | ⟨w, r, u, hvar, hget, halike⟩)
    · exact Ty.noConfusion hrecord
    · obtain rfl : 3 = w := (Ty.var.inj hvar).1
      obtain rfl := Option.some.inj hget
      have hlist : (1 : TypeVar) = 4 := (Ty.var.inj (Ty.list.inj halike).1).1
      exact absurd hlist (by decide)

end Solver

end FieldML
