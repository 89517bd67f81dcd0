import FieldML.Proofs.Quantifier.Formed
import FieldML.Proofs.Quantifier.Rules

/-!
# Parts of quantified types

Two types agree up to the names of bound variables exactly if the pairs agree that a comparison makes
of them. Below two quantifiers this asks that renaming the variable of the second one captures
nothing.
-/

namespace FieldML

namespace Unify

variable {α : Type} {F : Ty → α} {ts us : List Ty} {fs gs : List (String × Ty)}

theorem map_eq_map_iff :
    ts.map F = us.map F ↔
      (componentPairs ts us).2 = none ∧ ∀ p ∈ (componentPairs ts us).1, F p.1 = F p.2 := by
  unfold componentPairs
  split
  · next hlength =>
      simp only [true_and]
      induction ts generalizing us with
      | nil =>
          obtain rfl := List.length_eq_zero_iff.1 hlength.symm
          simp
      | cons t ts ih =>
          cases us with
          | nil => simp at hlength
          | cons u us =>
              have htail := ih (Nat.succ.inj hlength)
              simp [htail]
  · next hlength =>
      simp only [reduceCtorEq, false_and, iff_false]
      exact fun heq => hlength (by simpa using congrArg List.length heq)

theorem fields_eq_iff (hfs : Fields.Sorted fs) :
    (fs.map fun p => (p.1, F p.2)) = (gs.map fun p => (p.1, F p.2)) ↔
      Fields.names fs = Fields.names gs ∧ (fieldPairs fs gs).2 = none ∧
        ∀ p ∈ (fieldPairs fs gs).1, F p.1 = F p.2 := by
  induction fs generalizing gs with
  | nil =>
      cases gs with
      | nil => simp [fieldPairs]
      | cons g gs => simp [Fields.names]
  | cons f fs ih =>
      obtain ⟨n, t⟩ := f
      cases gs with
      | nil => simp [Fields.names]
      | cons g gs =>
          obtain ⟨m, u⟩ := g
          obtain ⟨hlt, hfs⟩ := Fields.sorted_cons.1 hfs
          have hn : n ∉ Fields.names fs := fun hmem => String.lt_irrefl n (hlt n hmem)
          have htail : _ = gs.map _ ↔ _ := ih hfs
          by_cases hmn : n = m
          · subst hmn
            simp only [List.map_cons, List.cons.injEq, Prod.mk.injEq, true_and, htail,
              Fields.names_cons, fieldPairs, Fields.get?, if_true, fieldPairs_cons_of_notMem hn,
              List.forall_mem_cons]
            tauto
          · simp [hmn, Fields.names_cons]

theorem record_eq_iff (hfs : Fields.Sorted fs) (hgs : Fields.Sorted gs) :
    (fs.map fun p => (p.1, F p.2)) = (gs.map fun p => (p.1, F p.2)) ↔
      (recordPairs fs gs).2 = none ∧ ∀ p ∈ (recordPairs fs gs).1, F p.1 = F p.2 := by
  by_cases hnames : Fields.names fs = Fields.names gs
  · rw [fields_eq_iff hfs, recordPairs_of_names_eq hnames]
    simp [hnames]
  · rw [fields_eq_iff hfs]
    simp only [hnames, false_and, false_iff, not_and]
    exact fun hnone => absurd hnone (recordPairs_of_names_ne hfs hgs hnames).2

end Unify

namespace Unify

open Solver

variable {F G : Ty → NamelessTy} {k l : Kind}

/-- The nameless kind whose fields have these nameless types. -/
def kindForm (F : Ty → NamelessTy) : Kind → NamelessKind
  | .universal => .universal
  | .record fs => .record (fs.map fun p => (p.1, F p.2))

theorem kindForm_eq_iff (hk : Fields.Sorted k.fields) :
    kindForm F k = kindForm F l ↔
      (equalKindPairs k l).2 = none ∧ ∀ p ∈ (equalKindPairs k l).1, F p.1 = F p.2 := by
  cases k with
  | universal => cases l <;> simp [kindForm, equalKindPairs]
  | record fs =>
      cases l with
      | universal => simp [kindForm, equalKindPairs]
      | record gs =>
          have hfs : Fields.Sorted fs := hk
          rw [kindForm, kindForm, NamelessKind.record.injEq, fields_eq_iff hfs, equalKindPairs]
          split
          · next hnames => simp [hnames]
          · next hnames => simp [hnames]

theorem kindForm_mapVars {f : Replacement} (h : ∀ p ∈ k.fields, F (p.2.mapVars f []) = G p.2) :
    kindForm F (k.mapVars f []) = kindForm G k := by
  cases k with
  | universal => rfl
  | record fs =>
      rw [Kind.mapVars_record]
      simp only [kindForm, List.map_map, NamelessKind.record.injEq]
      exact List.map_congr_left fun p hp => Prod.ext rfl (h p hp)

end Unify

namespace Unify

variable {B : TypeVar → Prop} {s : Substitution} {t u : Ty}

/-- Two types that are no variables and not quantified agree exactly if their parts do. -/
theorem alpha_iff_parts (hrt : IsRigid t) (hru : IsRigid u) (ht : t.Formed B) (hu : u.Formed B) :
    (s.apply t).Alpha (s.apply u) ↔
      (parts t u).2 = none ∧ ∀ p ∈ (parts t u).1, (s.apply p.1).Alpha (s.apply p.2) := by
  cases t <;> first | exact hrt.elim | skip
  all_goals cases u <;> first | exact hru.elim | skip
  case base.base => simp [parts, Ty.Alpha]
  case func.func => simp [parts, Ty.Alpha]
  case list.list => simp [parts, Ty.Alpha]
  case ref.ref => simp [parts, Ty.Alpha]
  case product.product ts r us r' =>
    have h : ts.map (fun t => (s.apply t).nameless []) = us.map _ ↔ _ := map_eq_map_iff
    simpa [Ty.Alpha, parts, Function.comp_def] using h
  case variant.variant n ts r m us r' =>
    have h : ts.map (fun t => (s.apply t).nameless []) = us.map _ ↔ _ := map_eq_map_iff
    by_cases hnm : n = m
    · simpa [Ty.Alpha, parts, hnm, Function.comp_def] using h
    · simp [Ty.Alpha, parts, hnm]
  case record.record fs r gs r' =>
    cases ht with
    | record r hfs _ =>
    cases hu with
    | record r' hgs _ =>
    have h := record_eq_iff (F := fun t => (s.apply t).nameless []) hfs hgs
    simpa [Ty.Alpha, parts, Function.comp_def] using h
  all_goals simp [parts, Ty.Alpha]

end Unify

namespace Substitution.Avoids

open Unify

variable {B : TypeVar → Prop} {s : Substitution} {t u : Ty} {v w : TypeVar} {k l : Kind}
  {r r' : Range}

theorem nameless_apply_all (h : s.Avoids B) (hs : s.Acyclic B) (ht : (Ty.all v k t r).Formed B) :
    (s.apply (.all v k t r)).nameless [] =
      .all (kindForm (fun t => (s.apply t).nameless [v]) k) ((s.apply t).nameless [v]) := by
  cases ht with
  | all r hv hsorted hk ht =>
      have hbound : ∀ x ∈ [v], B x := List.forall_mem_singleton.2 hv
      change NamelessTy.all ((k.mapVars (s.follow s.size) [v]).nameless [v])
        ((t.mapVars (s.follow s.size) [v]).nameless [v]) = _
      rw [h.mapVars_eq hs ht hbound]
      refine congrArg (NamelessTy.all · _) ?_
      cases k with
      | universal => rfl
      | record fs =>
          rw [Kind.mapVars_record, Ty.nameless_kindRecord, List.map_map]
          refine congrArg NamelessKind.record (List.map_congr_left fun p hp => Prod.ext rfl ?_)
          exact congrArg (Ty.nameless [v]) (h.mapVars_eq hs (hk p hp) hbound)

/-- Under its binder a type keeps its nameless form when the binder is renamed. -/
theorem nameless_apply_substitute (h : s.Avoids B) (hs : s.Acyclic B) (hu : u.Formed B)
    (hv : B v) (hw : B w) (hcapture : ¬Captures v w (u.occurrences []))
    (hfree : v ∉ u.freeVarsUnder [w]) :
    (s.apply (u.substitute w (.var v .erased))).nameless [v] = (s.apply u).nameless [w] := by
  rw [h.nameless_apply hs hu.substitute (List.forall_mem_singleton.2 hv),
    h.nameless_apply hs hu (List.forall_mem_singleton.2 hw),
    hu.nameless_substitute_under hcapture hfree]

/-- Two quantified types agree exactly if the pairs below the quantifiers do, unless renaming the
variable of the second one captures it. -/
theorem alpha_all_iff (h : s.Avoids B) (hs : s.Acyclic B) (ht : (Ty.all v k t r).Formed B)
    (hu : (Ty.all w l u r').Formed B)
    (hcapture : ¬Captures v w (l.occurrences [] ++ u.occurrences []))
    (hfree : v ∉ (Ty.all w l u r').freeVars) :
    (s.apply (.all v k t r)).Alpha (s.apply (.all w l u r')) ↔
      (bodyPairs v k t w l u).2 = none ∧
        ∀ p ∈ (bodyPairs v k t w l u).1, (s.apply p.1).Alpha (s.apply p.2) := by
  rw [Ty.Alpha, h.nameless_apply_all hs ht, h.nameless_apply_all hs hu, NamelessTy.all.injEq]
  have hpairs := bodyPairs_formed ht hu
  cases ht with
  | all r hv hsorted hk ht =>
  cases hu with
  | all r' hw hsorted' hl hu =>
  have hrename : ∀ q : Ty, q.Formed B → (∀ p ∈ q.occurrences [],
      p ∈ l.occurrences [] ++ u.occurrences []) → v ∉ q.freeVarsUnder [w] →
      (s.apply (q.substitute w (.var v .erased))).nameless [v] = (s.apply q).nameless [w] :=
    fun q hq hsub hqv => h.nameless_apply_substitute hs hq hv hw
      (fun hcatch => hcapture (hcatch.imp fun p => And.imp_left (hsub p))) hqv
  have hbody : (s.apply (u.substitute w (.var v .erased))).nameless [v] = (s.apply u).nameless [w] :=
    hrename u hu (fun p hp => List.mem_append_right _ hp)
      fun hmem => hfree (Ty.mem_freeVars_all.2 (Or.inr hmem))
  have hkind : kindForm (fun t => (s.apply t).nameless [v]) (l.substitute w (.var v .erased)) =
      kindForm (fun t => (s.apply t).nameless [w]) l := by
    refine kindForm_mapVars fun p hp => ?_
    exact hrename p.2 (hl p hp)
      (fun q hq => List.mem_append_left _ (Ty.mem_occurrences_kind.2 ⟨p, hp, hq⟩))
      fun hmem => hfree (Ty.mem_freeVars_all.2 (Or.inl ⟨p, hp, hmem⟩))
  have halpha : (∀ p ∈ (bodyPairs v k t w l u).1, (s.apply p.1).Alpha (s.apply p.2)) ↔
      ∀ p ∈ (bodyPairs v k t w l u).1, (s.apply p.1).nameless [v] = (s.apply p.2).nameless [v] :=
    forall₂_congr fun p hp => (hs.apply (hpairs p hp).1).alpha_iff (hs.apply (hpairs p hp).2) v
  rw [← hkind, ← hbody, kindForm_eq_iff hsorted, halpha, bodyPairs]
  cases (equalKindPairs k (l.substitute w (.var v .erased))).2 with
  | none => simp [or_imp, forall_and]
  | some e => simp

end Substitution.Avoids

end FieldML
