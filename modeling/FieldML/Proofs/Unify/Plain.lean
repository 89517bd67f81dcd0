import FieldML.Proofs.Binders
import FieldML.Proofs.Unify.Fuel

/-!
# Unification without record kinds

While no variable has a record kind, a comparison of a variable with another type ends on the spot:
the variable is bound, or the comparison fails. So the state stays in order whichever calls succeed,
and what was unified stays equal.
-/

namespace FieldML

namespace Solver

variable {syn : Prop} {s s' s₁ : Solver} {t u : Ty} {v : TypeVar}

/-- No variable has a record kind. -/
def Plain (s : Solver) : Prop := ∀ v, s.kindOf v = .universal

theorem Plain.proper (hplain : s.Plain) (hs : s.subst.Triangular syn) : s.Proper syn :=
  ⟨hs, fun v => hplain v ▸ Kind.simple_universal⟩

/-- From one state to a later one without record kinds, variables were only bound. -/
structure Binds (syn : Prop) (s s' : Solver) : Prop where
  proper : s'.Proper syn
  plain : s'.Plain
  extended : s.subst.ExtendedBy s'.subst

namespace Binds

theorem refl (hs : s.Proper syn) (hplain : s.Plain) : Binds syn s s := ⟨hs, hplain, .refl _⟩

theorem log (hs : s.Proper syn) (hplain : s.Plain) : Binds syn s (s.log t u) :=
  ⟨hs.log, hplain, .refl _⟩

theorem trans (h₁ : Binds syn s s₁) (h₂ : Binds syn s₁ s') : Binds syn s s' :=
  ⟨h₂.proper, h₂.plain, h₁.extended.trans h₂.extended⟩

theorem of_forget (h : Binds syn s.forget s') : Binds syn s s' := ⟨h.proper, h.plain, h.extended⟩

theorem assign (hs : s.Proper syn) (hplain : s.Plain) (ht : t.Simple syn)
    (hfree : ∀ w ∈ t.freeVars, s.subst.find? w = none) (hvt : v ∉ t.freeVars)
    (hv : s.subst.find? v = none) : Binds syn s (s.assign v t) :=
  ⟨hs.assign ht hfree hvt, hplain, Substitution.extendedBy_bind hv⟩

end Binds

theorem Plain.of_strengthen {k : Kind} (hplain : (s.strengthen v k).Plain) : s.Plain := by
  cases k with
  | universal => exact hplain
  | record fs =>
      have hv := hplain v
      rw [strengthen, kindOf_refine, if_pos rfl] at hv
      cases hv

theorem Plain.not_leadsTo (hplain : s.Plain) (v w : TypeVar) : ¬s.LeadsTo v w := by
  rintro ⟨p, hp, -⟩
  rw [hplain v] at hp
  exact absurd hp List.not_mem_nil

theorem Plain.acyclic (hplain : s.Plain) : s.Acyclic :=
  acyclic_of_lt (f := fun _ => 0) fun v w hvw => absurd hvw (hplain.not_leadsTo v w)

end Solver

namespace Unify

open Solver

variable {syn : Prop} {s s' s₁ : Solver} {a b t u : Ty} {v w : TypeVar} {n : Nat}
  {ps : List (Ty × Ty)} {r : Option Reason} {k l : Kind}

theorem Runs.of_nil (hrun : Runs n s [] r s') : r = none ∧ s' = s := by
  cases hrun
  exact ⟨rfl, rfl⟩

/-- Without record kinds nothing is compared after a variable was bound. -/
theorem Runs.of_kindPairs_plain (hplain : s.Plain)
    (hrun : Runs n s₁ (kindPairs (s.kindOf v) t).1 r s') :
    r.or (kindPairs (s.kindOf v) t).2 = none ∧ s' = s₁ := by
  rw [hplain v] at hrun ⊢
  obtain ⟨rfl, rfl⟩ := hrun.of_nil
  exact ⟨rfl, rfl⟩

theorem Runs.of_sharedPairs_plain (hplain : s.Plain)
    (hrun : Runs n s₁ (sharedPairs (s.kindOf v) (s.kindOf w)) r s') : r = none ∧ s' = s₁ := by
  rw [hplain v, hplain w] at hrun
  exact hrun.of_nil

theorem strengthen_plain (hplain : s.Plain) :
    s₁.strengthen w (mergedKind (s.kindOf v) (s.kindOf w)) = s₁ := by
  rw [hplain v, hplain w]
  rfl

theorem Meet.binds (hm : Meet s a b v t) (hvt : v ∉ t.freeVars) (hs : s.Proper syn)
    (hplain : s.Plain) (ha : a.Simple syn) (hb : b.Simple syn) :
    Binds syn s ((s.log (s.head a) (s.head b)).assign v t) := by
  obtain ⟨hv, hfree⟩ := hm.free hs ha hb
  have hlog : Binds syn s (s.log (s.head a) (s.head b)) := .log hs hplain
  exact hlog.trans (.assign hlog.proper hlog.plain (hm.simple hs.simple ha hb) hfree hvt hv)

theorem binds_join {rv rw' : Range} (hs : s.Proper syn) (hplain : s.Plain) (ha : a.Simple syn)
    (hb : b.Simple syn) (hv : s.head a = .var v rv) (hw : s.head b = .var w rw') (hvw : v ≠ w) :
    Binds syn s ((s.log (s.head a) (s.head b)).assign v (.var w rw')) := by
  rw [← hw]
  refine Meet.binds ⟨rv, Or.inl ⟨hv, rfl⟩⟩ ?_ hs hplain ha hb
  rw [hw]
  exact fun hmem => hvw (Ty.mem_freeVars_var.1 hmem)

/-- Without record kinds, comparing types only binds variables. -/
theorem Runs.binds (hrun : Runs n s ps r s') (hs : s.Proper syn) (hps : AllSimple syn ps)
    (hplain : s.Plain) : Binds syn s s' := by
  induction hrun with
  | nil | tooDeep => exact .refl hs hplain
  | same => exact .log hs hplain
  | occurs => exact .log hs hplain
  | cons _ _ ih₁ ih₂ =>
      have h₁ := ih₁ hs hps.head hplain
      exact h₁.trans (ih₂ h₁.proper hps.tail h₁.plain)
  | stop _ ih => exact ih hs hps.head hplain
  | @rigid n s a b r s₁ _ _ _ ih =>
      obtain ⟨hsa, hsb⟩ := hps.pair
      have hlog : Binds syn s (s.log (s.head a) (s.head b)) := .log hs hplain
      exact hlog.trans (ih hlog.proper (parts_simple (hs.simple.head hsa) (hs.simple.head hsb))
        hlog.plain)
  | @bind n s a b v t r s₁ hm _ hvt hrun _ =>
      obtain ⟨hsa, hsb⟩ := hps.pair
      obtain ⟨-, rfl⟩ := hrun.of_kindPairs_plain hplain
      exact hm.binds hvt hs hplain hsa hsb
  | @join n s a b v w r r' s₁ ha hb hvw hrun _ _ =>
      obtain ⟨hsa, hsb⟩ := hps.pair
      obtain ⟨-, rfl⟩ := hrun.of_sharedPairs_plain hplain
      rw [strengthen_plain hplain]
      exact binds_join hs hplain hsa hsb ha hb hvw
  | @joinOccurs n s a b v w r r' s₁ _ ha hb hvw hrun _ _ =>
      obtain ⟨hsa, hsb⟩ := hps.pair
      obtain ⟨-, rfl⟩ := hrun.of_sharedPairs_plain hplain
      exact binds_join hs hplain hsa hsb ha hb hvw
  | joinStop _ _ _ hrun _ =>
      obtain ⟨hnone, -⟩ := hrun.of_sharedPairs_plain hplain
      simp at hnone

theorem Passes.plain {m : Solver} {c d : Ty} (hpass : Passes m c d n s ps r s') (hs : s.Proper syn)
    (hps : AllSimple syn ps) (hplain : s.Plain) : m.Plain := by
  induction hpass with
  | here => exact hplain
  | first _ _ ih => exact ih hs hps.head hplain
  | rest hrun₁ _ ih =>
      have h₁ := hrun₁.binds hs hps.head hplain
      exact ih h₁.proper hps.tail h₁.plain
  | stop _ ih => exact ih hs hps.head hplain
  | rigid _ _ _ ih =>
      obtain ⟨hsa, hsb⟩ := hps.pair
      exact ih hs.log (parts_simple (hs.simple.head hsa) (hs.simple.head hsb)) hplain
  | @bind n s a b v t r s₁ hm _ hvt _ ih =>
      obtain ⟨hsa, hsb⟩ := hps.pair
      have hbinds := hm.binds hvt hs hplain hsa hsb
      exact ih hbinds.proper (kindPairs_simple (hs.kind v)
        (hbinds.proper.triangular.simple.apply (hm.simple hs.simple hsa hsb))) hplain
  | joined _ _ _ hrun _ =>
      exact (hrun.binds hs.log (sharedPairs_simple (hs.kind _) (hs.kind _)) hplain).plain
  | join _ _ _ _ _ ih | joinOccurs _ _ _ _ _ ih =>
      exact ih hs.log (sharedPairs_simple (hs.kind _) (hs.kind _)) hplain
  | joinStop _ _ _ _ ih => exact ih hs.log (sharedPairs_simple (hs.kind _) (hs.kind _)) hplain

/-- Kinds are never taken away again. -/
theorem Runs.plain_of_plain (hrun : Runs n s ps r s') (hplain : s'.Plain) : s.Plain := by
  induction hrun with
  | nil | tooDeep | same | occurs => exact hplain
  | cons _ _ ih₁ ih₂ => exact ih₁ (ih₂ hplain)
  | stop _ ih | rigid _ _ _ ih | bind _ _ _ _ ih | joinStop _ _ _ _ ih => exact ih hplain
  | join _ _ _ _ _ ih => exact ih hplain.of_strengthen
  | joinOccurs _ _ _ _ _ ih => exact ih hplain

theorem plain_of_unify (hs : s.Simple syn) (ha : a.Simple syn) (hb : b.Simple syn)
    (hplain : (s.unify a b).2.Plain) : s.Plain := by
  obtain ⟨r, s', hrun, hunify⟩ := unify_runs hs ha hb
  rw [hunify] at hplain
  cases r with
  | none => exact hrun.plain_of_plain hplain
  | some e => exact hplain

theorem passesAcyclic_of_plain (hs : s.Proper syn) (hps : AllSimple syn ps) (hplain : s.Plain) :
    PassesAcyclic n s ps r s' :=
  fun _ _ _ hpass => (hpass.plain hs hps hplain).acyclic

/-- Without record kinds, all pairs of a run that does not fail are alike afterwards. -/
theorem Runs.alike_of_plain (hrun : Runs n s ps r s') (hs : s.Proper syn)
    (hps : AllSimple syn ps) (hplain : s.Plain) (hr : r = none) : AllAlike s'.subst ps :=
  (hrun.concludes_of_acyclic hs hps (passesAcyclic_of_plain hs hps hplain)
    (hrun.binds hs hps hplain).plain.acyclic hr).alike

/-- Without record kinds, comparing parts of two types ends by itself. -/
theorem Runs.ne_outOfFuel_of_plain_inParts (hrun : Runs (s.fuel (a.size + b.size)) s ps r s')
    (hparts : AllInParts a b ps) (hs : s.Proper syn) (ha : a.Simple syn) (hb : b.Simple syn)
    (hplain : s.Plain) : r ≠ some .outOfFuel :=
  hrun.ne_outOfFuel_inParts hparts hs ha hb
    (passesAcyclic_of_plain hs (hparts.simple ha hb) hplain)

/-- Without record kinds, every comparison ends by itself. -/
theorem Runs.ne_outOfFuel_of_plain (hrun : Runs (s.fuel (a.size + b.size)) s [(a, b)] r s')
    (hs : s.Proper syn) (ha : a.Simple syn) (hb : b.Simple syn) (hplain : s.Plain) :
    r ≠ some .outOfFuel :=
  hrun.ne_outOfFuel_of_plain_inParts (allInParts_single a b) hs ha hb hplain

section Fieldwise

variable {fs gs : List (String × Ty)}

theorem fieldPairs_cons_of_notMem {n : String} {u : Ty} (hn : n ∉ Fields.names fs) :
    fieldPairs fs ((n, u) :: gs) = fieldPairs fs gs := by
  induction fs with
  | nil => rfl
  | cons f fs ih =>
      obtain ⟨m, t⟩ := f
      simp only [Fields.names_cons, List.mem_cons, not_or] at hn
      simp [fieldPairs, Fields.get?, hn.1, ih hn.2]

/-- Fields of the same names are compared in their order. -/
theorem fieldPairs_of_names_eq (hgs : Fields.Sorted gs) (h : Fields.names fs = Fields.names gs) :
    fieldPairs fs gs = ((fs.map Prod.snd).zip (gs.map Prod.snd), none) := by
  induction gs generalizing fs with
  | nil =>
      obtain rfl := List.map_eq_nil_iff.1 h
      rfl
  | cons g gs ih =>
      obtain ⟨n, u⟩ := g
      obtain ⟨f, fs, rfl, rfl, hrest⟩ := List.map_eq_cons_iff.1 h
      obtain ⟨hlt, hgs⟩ := Fields.sorted_cons.1 hgs
      have hrest : Fields.names fs = Fields.names gs := hrest
      have hn : f.1 ∉ Fields.names fs := fun hmem =>
        String.lt_irrefl f.1 (hlt f.1 (hrest ▸ hmem))
      simp only [fieldPairs, Fields.get?, if_true, fieldPairs_cons_of_notMem hn, ih hgs hrest,
        List.map_cons, List.zip_cons_cons]

theorem recordPairs_of_names_eq (h : Fields.names fs = Fields.names gs) :
    recordPairs fs gs = ((fieldPairs fs gs).1, (fieldPairs fs gs).2.map .missingField) := by
  have hmissing : (Fields.names fs).find? (fun n => (Fields.get? gs n).isNone) = none := by
    simp only [List.find?_eq_none, Option.isNone_iff_eq_none, Fields.get?_eq_none, ← h]
    exact fun n hn hnot => hnot hn
  have hextra : (Fields.names gs).find? (fun n => (Fields.get? fs n).isNone) = none := by
    simp only [List.find?_eq_none, Option.isNone_iff_eq_none, Fields.get?_eq_none, h]
    exact fun n hn hnot => hnot hn
  unfold recordPairs
  simp only [hmissing, hextra]

theorem names_eq_of_find?_eq_none (hfs : Fields.Sorted fs) (hgs : Fields.Sorted gs)
    (hmissing : (Fields.names fs).find? (fun n => (Fields.get? gs n).isNone) = none)
    (hextra : (Fields.names gs).find? (fun n => (Fields.get? fs n).isNone) = none) :
    Fields.names fs = Fields.names gs := by
  simp only [List.find?_eq_none, Option.isNone_iff_eq_none, Fields.get?_eq_none, not_not]
    at hmissing hextra
  exact List.Perm.eq_of_pairwise (fun _ _ _ _ h h' => absurd h' (String.lt_asymm h)) hfs hgs
    ((List.perm_ext_iff_of_nodup (hfs.imp fun h => String.ne_of_lt h)
      (hgs.imp fun h => String.ne_of_lt h)).2 fun n => ⟨hmissing n, hextra n⟩)

/-- Where the names differ, nothing is compared. -/
theorem recordPairs_of_names_ne (hfs : Fields.Sorted fs) (hgs : Fields.Sorted gs)
    (h : Fields.names fs ≠ Fields.names gs) :
    (recordPairs fs gs).1 = [] ∧ (recordPairs fs gs).2 ≠ none := by
  unfold recordPairs
  split
  · simp
  · simp
  · next hmissing hextra => exact absurd (names_eq_of_find?_eq_none hfs hgs hmissing hextra) h

theorem recordPairs_eq_zip (hgs : Fields.Sorted gs) (h : Fields.names fs = Fields.names gs) :
    recordPairs fs gs = ((fs.map Prod.snd).zip (gs.map Prod.snd), none) := by
  rw [recordPairs_of_names_eq h, fieldPairs_of_names_eq hgs h, Option.map_none]

end Fieldwise

section Diagonal

/-- Both types of every pair are the same. -/
def AllSame (ps : List (Ty × Ty)) : Prop := ∀ p ∈ ps, p.1 = p.2

theorem allSame_zip_self (ts : List Ty) : AllSame (ts.zip ts) := by
  intro p hp
  rw [List.zip_eq_zipWith, List.zipWith_self] at hp
  obtain ⟨t, -, rfl⟩ := List.mem_map.1 hp
  rfl

theorem componentPairs_self (ts : List Ty) :
    AllSame (componentPairs ts ts).1 ∧ (componentPairs ts ts).2 = none := by
  rw [componentPairs, if_pos rfl]
  exact ⟨allSame_zip_self ts, rfl⟩

theorem parts_self (ht : t.Simple syn) (hrt : IsRigid t) :
    AllSame (parts t t).1 ∧ (parts t t).2 = none := by
  cases ht with
  | var | synonym => exact hrt.elim
  | base | func | list | ref => simp [parts, AllSame]
  | product => exact componentPairs_self _
  | variant =>
      rw [parts, if_pos rfl]
      exact componentPairs_self _
  | record r hfs _ =>
      rw [parts, recordPairs_eq_zip hfs rfl]
      exact ⟨allSame_zip_self _, rfl⟩

theorem Meet.ne (hm : Meet s a b v t) (ht : IsRigid t) : s.head a ≠ s.head b := by
  rintro heq
  obtain ⟨r, ⟨hv, rfl⟩ | ⟨hv, rfl⟩⟩ := hm
  · rw [← heq, hv] at ht
    exact ht
  · rw [heq, hv] at ht
    exact ht

theorem Runs.of_allSame (hrun : Runs n s ps r s') (hs : s.Simple syn) (hps : AllSimple syn ps)
    (hsame : AllSame ps) : (r = none ∨ r = some .outOfFuel) ∧ s'.subst = s.subst := by
  induction hrun with
  | nil => exact ⟨Or.inl rfl, rfl⟩
  | tooDeep => exact ⟨Or.inr rfl, rfl⟩
  | cons hrun₁ _ ih₁ ih₂ =>
      obtain ⟨-, hsubst₁⟩ := ih₁ hs hps.head fun p hp => hsame p (by simp_all)
      obtain ⟨hr, hsubst₂⟩ := ih₂ (hrun₁.simple hs hps.head) hps.tail
        fun p hp => hsame p (List.mem_cons_of_mem _ hp)
      exact ⟨hr, hsubst₂.trans hsubst₁⟩
  | stop _ ih => exact ih hs hps.head fun p hp => hsame p (by simp_all)
  | same => exact ⟨Or.inl rfl, rfl⟩
  | @rigid n s a b r s₁ hra _ _ ih =>
      obtain ⟨hsa, -⟩ := hps.pair
      obtain rfl : a = b := hsame _ List.mem_cons_self
      obtain ⟨hparts, hnone⟩ := parts_self (hs.head hsa) hra
      rw [hnone, Option.or_none]
      exact ih hs.log (parts_simple (hs.head hsa) (hs.head hsa)) hparts
  -- The heads are the same, so a variable never meets anything but itself.
  | @occurs n s a b v t hm ht _ =>
      obtain rfl : a = b := hsame _ List.mem_cons_self
      exact absurd rfl (hm.ne ht)
  | @bind n s a b v t r s₁ hm ht _ _ _ =>
      obtain rfl : a = b := hsame _ List.mem_cons_self
      exact absurd rfl (hm.ne ht)
  | @join n s a b v w r r' s₁ ha hb hvw _ _ _ =>
      obtain rfl : a = b := hsame _ List.mem_cons_self
      exact absurd (Ty.var.inj (ha.symm.trans hb)).1 hvw
  | @joinOccurs n s a b v w r r' s₁ _ ha hb hvw _ _ _ =>
      obtain rfl : a = b := hsame _ List.mem_cons_self
      exact absurd (Ty.var.inj (ha.symm.trans hb)).1 hvw
  | @joinStop n s a b v w r r' e s₁ ha hb hvw _ _ =>
      obtain rfl : a = b := hsame _ List.mem_cons_self
      exact absurd (Ty.var.inj (ha.symm.trans hb)).1 hvw

end Diagonal

end Unify

namespace Solver

open Unify

variable {syn : Prop} {s : Solver} {a b t : Ty}

/-- One call, from a state without record kinds: whatever comes of it, variables were only bound; it
ends by itself; and if it succeeds, its types are alike from then on. -/
theorem Plain.unify (hplain : s.Plain) (hs : s.Proper syn) (ha : a.Simple syn) (hb : b.Simple syn) :
    Binds syn s (s.unify a b).2 ∧
      (∀ e, (s.unify a b).1 = .error e → e.reason ≠ .outOfFuel) ∧
      ((s.unify a b).1 = .ok () → (s.unify a b).2.subst.bare a = (s.unify a b).2.subst.bare b) := by
  have hs₀ : s.forget.Proper syn := hs.forget
  have hps : AllSimple syn [(a, b)] := by simp [AllSimple, ha, hb]
  obtain ⟨r, s₁, hrun, hunify⟩ := unify_runs hs.simple ha hb
  have hfuel := hrun.ne_outOfFuel_of_plain hs₀ ha hb hplain
  rw [hunify]
  cases r with
  | none =>
      have hbinds := hrun.binds hs₀ hps hplain
      refine ⟨hbinds.of_forget, by simp, fun _ => ?_⟩
      exact (hrun.alike_of_plain hs₀ hps hplain rfl).head
  | some e =>
      refine ⟨⟨⟨hs.triangular, hs.kind⟩, hplain, .refl _⟩, ?_, by simp⟩
      rintro _ ⟨⟩ rfl
      exact hfuel rfl

/-- The state after some calls, of which any may fail. -/
def unifyAll (s : Solver) (calls : List (Ty × Ty)) : Solver :=
  calls.foldl (fun s call => (s.unify call.1 call.2).2) s

theorem unifyAll_append (s : Solver) (calls later : List (Ty × Ty)) :
    s.unifyAll (calls ++ later) = (s.unifyAll calls).unifyAll later := List.foldl_append

theorem Plain.unifyAll (hplain : s.Plain) (hs : s.Proper syn) {calls : List (Ty × Ty)}
    (hcalls : AllSimple syn calls) : Binds syn s (s.unifyAll calls) := by
  induction calls generalizing s with
  | nil => exact .refl hs hplain
  | cons call calls ih =>
      obtain ⟨ha, hb⟩ := hcalls _ List.mem_cons_self
      obtain ⟨hbinds, -⟩ := hplain.unify hs ha hb
      exact hbinds.trans (ih hbinds.plain hbinds.proper hcalls.tail)

theorem Plain.unify_self (hplain : s.Plain) (hs : s.Proper syn) (ht : t.Simple syn) :
    (s.unify t t).1 = .ok () ∧ (s.unify t t).2.subst = s.subst := by
  have hs₀ : s.forget.Proper syn := hs.forget
  obtain ⟨r, s₁, hrun, hunify⟩ := unify_runs hs.simple ht ht
  obtain ⟨hr, hsubst⟩ := hrun.of_allSame hs₀.simple (by simp [AllSimple, ht]) (by simp [AllSame])
  rw [hunify]
  rcases hr with rfl | rfl
  · exact ⟨rfl, hsubst⟩
  · exact absurd rfl (hrun.ne_outOfFuel_of_plain hs₀ ht ht hplain)

theorem plain_empty : ({} : Solver).Plain := fun v => by
  simp [kindOf, KindEnv.kindOf]

theorem proper_empty : ({} : Solver).Proper syn := plain_empty.proper .empty

/-- What is true once some calls were made from nothing known. -/
structure Settled (calls : List (Ty × Ty)) (s : Solver) : Prop where
  /-- No variable leads back to itself. -/
  triangular : s.subst.Triangular True
  /-- Following variables comes to an end. -/
  ended : ∀ t n, s.subst.size ≤ n → t.mapVars (s.subst.follow n) [] = s.subst.apply t
  idempotent : ∀ t, s.subst.apply (s.subst.apply t) = s.subst.apply t
  unbound : ∀ t, ∀ v ∈ (s.subst.apply t).freeVars, s.subst.find? v = none
  /-- What any of the calls unified is still equal, up to synonyms and ranges. -/
  unified : ∀ before a b after, calls = before ++ (a, b) :: after →
    ((({} : Solver).unifyAll before).unify a b).1 = .ok () →
    (s.subst.apply a).Alike (s.subst.apply b)
  /-- A further call ends by itself. -/
  ends : ∀ a b e, a.Simple True → b.Simple True → (s.unify a b).1 = .error e →
    e.reason ≠ .outOfFuel
  reflexive : ∀ t, t.Simple True → (s.unify t t).1 = .ok () ∧ (s.unify t t).2.subst = s.subst

/-- Plain unification is correct over whole runs, whichever calls were made and whichever of them
succeeded. -/
theorem settled_unifyAll {calls : List (Ty × Ty)} (hcalls : AllSimple True calls) :
    Settled calls (({} : Solver).unifyAll calls) := by
  have hs : Binds True {} (({} : Solver).unifyAll calls) := plain_empty.unifyAll proper_empty hcalls
  have htri := hs.proper.triangular
  refine ⟨htri, fun t n hn => ?_, htri.apply_apply_all htri (.refl _),
    fun t v => htri.find?_of_mem_freeVars_apply_all t, ?_,
    fun a b e ha hb => (hs.plain.unify hs.proper ha hb).2.1 e,
    fun t ht => hs.plain.unify_self hs.proper ht⟩
  · rw [htri.follow_of_size_le hn]
    rfl
  · rintro before a b after rfl hok
    have hbefore : Binds True {} (({} : Solver).unifyAll before) :=
      plain_empty.unifyAll proper_empty fun p hp => hcalls p (List.mem_append_left _ hp)
    obtain ⟨ha, hb⟩ : a.Simple True ∧ b.Simple True :=
      hcalls (a, b) (List.mem_append_right _ List.mem_cons_self)
    obtain ⟨hcall, -, halike⟩ := hbefore.plain.unify hbefore.proper ha hb
    have hsimple : AllSimple True after := fun p hp =>
      hcalls p (List.mem_append_right _ (List.mem_cons_of_mem _ hp))
    have hafter := hcall.plain.unifyAll hcall.proper hsimple
    have hstate : ({} : Solver).unifyAll (before ++ (a, b) :: after) =
        ((({} : Solver).unifyAll before).unify a b).2.unifyAll after :=
      unifyAll_append _ before ((a, b) :: after)
    rw [hstate]
    exact hcall.proper.triangular.bare_extend hafter.proper.triangular hafter.extended ha hb
      (halike hok)

/-- A synonym for pairs of one type is unified with a pair of variables; then a variable would have
to contain itself; then a variable of the pair is bound. -/
def synonymCalls : List (Ty × Ty) :=
  let pair := Ty.synonym "twice" [.var 0 .erased]
    (.product [.var 0 .erased, .var 0 .erased] .erased) .erased
  [(.list pair .erased, .list (.product [.var 1 .erased, .var 2 .erased] .erased) .erased),
    (.var 1 .erased, .list (.var 2 .erased) .erased),
    (.func (.var 2 .erased) pair .erased, .func (.base .int .erased) (.var 3 .erased) .erased)]

theorem simple_synonymCalls : AllSimple True synonymCalls := by
  have hpair : (Ty.synonym "twice" [.var 0 .erased]
      (.product [.var 0 .erased, .var 0 .erased] .erased) .erased).Simple True :=
    .synonym _ _ trivial (by simp [Ty.Simple.var]) (.product _ (by simp [Ty.Simple.var]))
      (by simp [Ty.freeVars, Ty.freeVarsUnder, Ty.freeVarsOfList])
  intro p hp
  simp only [synonymCalls, List.mem_cons, List.not_mem_nil, or_false] at hp
  rcases hp with rfl | rfl | rfl
  · exact ⟨.list _ hpair, .list _ (.product _ (by simp [Ty.Simple.var]))⟩
  · exact ⟨.var _ _, .list _ (.var _ _)⟩
  · exact ⟨.func _ (.var _ _) hpair, .func _ (.base _ _) (.var _ _)⟩

theorem settled_unifyAll_synonymCalls :
    AllSimple True synonymCalls ∧
      (({} : Solver).unify synonymCalls[0].1 synonymCalls[0].2).1.isOk = true ∧
      ((({} : Solver).unifyAll (synonymCalls.take 1)).unify synonymCalls[1].1
        synonymCalls[1].2).1.isOk = false ∧
      Settled synonymCalls (({} : Solver).unifyAll synonymCalls) :=
  ⟨simple_synonymCalls, by rfl, by rfl, settled_unifyAll simple_synonymCalls⟩

end Solver

end FieldML
