import FieldML.Proofs.Simple
import FieldML.Proofs.Substitution
import FieldML.Unify

/-!
# The rules of unification

Every comparison makes some pairs of types equal, one after the other, and may then still fail or
change what is known about one variable. The relation `Runs` says all that can happen while some
pairs are compared.
-/

namespace FieldML

namespace Solver

/-- What a type is at its head, as far as is known. -/
def head (s : Solver) (t : Ty) : Ty := (s.subst.apply t).expand

/-- The state after two types were compared at their heads. -/
def log (s : Solver) (t u : Ty) : Solver := { s with compared := (t, u) :: s.compared }

/-- The state in which a variable stands for a type. -/
def assign (s : Solver) (v : TypeVar) (t : Ty) : Solver := { s with subst := s.subst.bind v t }

/-- The state in which a variable has another kind. -/
def refine (s : Solver) (v : TypeVar) (k : Kind) : Solver := { s with kinds := s.kinds.refine v k }

/-- The kind of a variable. -/
def kindOf (s : Solver) (v : TypeVar) : Kind := s.kinds.kindOf v

/-- All types that the state holds are simple. -/
structure Simple (syn : Prop) (s : Solver) : Prop where
  subst : s.subst.Simple syn
  kind : ∀ v, (s.kindOf v).Simple syn

variable (s : Solver) (t u : Ty) (v w : TypeVar) (k : Kind)

@[simp] theorem subst_log : (s.log t u).subst = s.subst := rfl
@[simp] theorem kindOf_log : (s.log t u).kindOf = s.kindOf := rfl
@[simp] theorem compared_log : (s.log t u).compared = (t, u) :: s.compared := rfl
@[simp] theorem subst_assign : (s.assign v t).subst = s.subst.bind v t := rfl
@[simp] theorem kindOf_assign : (s.assign v t).kindOf = s.kindOf := rfl
@[simp] theorem compared_assign : (s.assign v t).compared = s.compared := rfl
/-- The state in which a variable has a kind, which is not recorded if it allows every type. -/
def strengthen (s : Solver) (v : TypeVar) : Kind → Solver
  | .universal => s
  | .record fs => s.refine v (.record fs)

@[simp] theorem subst_refine : (s.refine v k).subst = s.subst := rfl
@[simp] theorem compared_refine : (s.refine v k).compared = s.compared := rfl

@[simp] theorem subst_strengthen : (s.strengthen v k).subst = s.subst := by cases k <;> rfl

@[simp] theorem compared_strengthen : (s.strengthen v k).compared = s.compared := by
  cases k <;> rfl

theorem kindOf_refine : (s.refine v k).kindOf w = if v = w then k else s.kindOf w :=
  KindEnv.kindOf_refine s.kinds v w k

end Solver

namespace Unify

/-- The pairs that are made equal when every field of the first list must be in the second, and
the first field that is not. -/
def fieldPairs : List (String × Ty) → List (String × Ty) → List (Ty × Ty) × Option String
  | [], _ => ([], none)
  | (n, t) :: fs, gs =>
      match Fields.get? gs n with
      | some u => ((t, u) :: (fieldPairs fs gs).1, (fieldPairs fs gs).2)
      | none => ([], some n)

/-- The pairs that are made equal when two record types are, or why they cannot be. -/
def recordPairs (fs gs : List (String × Ty)) : List (Ty × Ty) × Option Reason :=
  match (Fields.names fs).find? (fun n => (Fields.get? gs n).isNone),
    (Fields.names gs).find? (fun n => (Fields.get? fs n).isNone) with
  | some missing, _ => ([], some (.missingField missing))
  | none, some extra => ([], some (.missingField extra))
  | none, none => ((fieldPairs fs gs).1, (fieldPairs fs gs).2.map .missingField)

/-- The pairs that are made equal when two types with components are. -/
def componentPairs (ts us : List Ty) : List (Ty × Ty) × Option Reason :=
  if ts.length = us.length then (ts.zip us, none) else ([], some (.arity ts.length us.length))

/-- The pairs that are made equal when two types are that are no variables. -/
def parts : Ty → Ty → List (Ty × Ty) × Option Reason
  | .base b _, .base c _ => ([], if b = c then none else some .mismatch)
  | .func p q _, .func p' q' _ => ([(p, p'), (q, q')], none)
  | .list t _, .list u _ => ([(t, u)], none)
  | .ref t _, .ref u _ => ([(t, u)], none)
  | .product ts _, .product us _ => componentPairs ts us
  | .variant n ts _, .variant m us _ =>
      if n = m then componentPairs ts us else ([], some .mismatch)
  | .record fs _, .record gs _ => recordPairs fs gs
  | _, _ => ([], some .mismatch)

/-- The pairs that are made equal when a type that is no variable meets a kind. -/
def kindPairs (k : Kind) (t : Ty) : List (Ty × Ty) × Option Reason :=
  match k, t with
  | .universal, _ => ([], none)
  | .record required, .record fs _ =>
      ((fieldPairs required fs).1, (fieldPairs required fs).2.map .missingField)
  | .record required, _ => ([], some (.notARecord (Fields.names required)))

/-- The types of the fields that two kinds share. -/
def sharedPairs (k l : Kind) : List (Ty × Ty) :=
  l.fields.filterMap fun p => (Fields.get? k.fields p.1).map (·, p.2)

/-- The fields of the first list and, where it has none of that name, those of the second. -/
def mergeFields (fs gs : List (String × Ty)) : List (String × Ty) :=
  gs.foldl (fun merged p =>
    if (Fields.get? fs p.1).isSome then merged else Fields.insert p.1 p.2 merged) fs

/-- The kind that has the fields of both. -/
def mergedKind : Kind → Kind → Kind
  | .universal, k => k
  | k, .universal => k
  | .record fs, .record gs => .record (mergeFields fs gs)

/-- A type that is no variable, no synonym and no quantified type. -/
def IsRigid : Ty → Prop
  | .var _ _ | .synonym _ _ _ _ | .all _ _ _ _ => False
  | _ => True

/-- One of the two types is a variable at its head, the other one is `t`. -/
def Meet (s : Solver) (a b : Ty) (v : TypeVar) (t : Ty) : Prop :=
  ∃ r, s.head a = .var v r ∧ s.head b = t ∨ s.head b = .var v r ∧ s.head a = t

/-- What can happen while pairs of types are made equal in at most `n` nested steps: the state
before, the pairs, the reason for a failure, and the state afterwards. -/
inductive Runs : Nat → Solver → List (Ty × Ty) → Option Reason → Solver → Prop
  | nil (n : Nat) (s : Solver) : Runs n s [] none s
  | cons {n s s₁ s₂ p ps r} : Runs n s [p] none s₁ → Runs n s₁ ps r s₂ → Runs n s (p :: ps) r s₂
  | stop {n s s₁ p ps e} : Runs n s [p] (some e) s₁ → Runs n s (p :: ps) (some e) s₁
  | tooDeep (s : Solver) (a b : Ty) : Runs 0 s [(a, b)] (some .outOfFuel) s
  | same {n s a b v r r'} : s.head a = .var v r → s.head b = .var v r' →
      Runs (n + 1) s [(a, b)] none (s.log (s.head a) (s.head b))
  | rigid {n s a b r s₁} : IsRigid (s.head a) → IsRigid (s.head b) →
      Runs n (s.log (s.head a) (s.head b)) (parts (s.head a) (s.head b)).1 r s₁ →
      Runs (n + 1) s [(a, b)] (r.or (parts (s.head a) (s.head b)).2) s₁
  | occurs {n s a b v t} : Meet s a b v t → IsRigid t → v ∈ t.freeVars →
      Runs (n + 1) s [(a, b)] (some (.occurs v t)) (s.log (s.head a) (s.head b))
  | bind {n s a b v t r s₁} : Meet s a b v t → IsRigid t → v ∉ t.freeVars →
      Runs n ((s.log (s.head a) (s.head b)).assign v t)
        (kindPairs (s.kindOf v) ((s.subst.bind v t).apply t)).1 r s₁ →
      Runs (n + 1) s [(a, b)] (r.or (kindPairs (s.kindOf v) ((s.subst.bind v t).apply t)).2) s₁
  | join {n s a b v w r r' s₁} : s.head a = .var v r → s.head b = .var w r' → v ≠ w →
      Runs n (s.log (s.head a) (s.head b)) (sharedPairs (s.kindOf v) (s.kindOf w)) none s₁ →
      w ∉ ((s₁.subst.bind v (.var w r')).applyKind
        (mergedKind (s.kindOf v) (s.kindOf w))).freeVars →
      Runs (n + 1) s [(a, b)] none
        ((s₁.assign v (.var w r')).strengthen w (mergedKind (s.kindOf v) (s.kindOf w)))
  | joinOccurs {n s a b v w r r' s₁ shape} : s.head a = .var v r → s.head b = .var w r' → v ≠ w →
      Runs n (s.log (s.head a) (s.head b)) (sharedPairs (s.kindOf v) (s.kindOf w)) none s₁ →
      w ∈ ((s₁.subst.bind v (.var w r')).applyKind
        (mergedKind (s.kindOf v) (s.kindOf w))).freeVars →
      Runs (n + 1) s [(a, b)] (some (.occurs w shape)) (s₁.assign v (.var w r'))
  | joinStop {n s a b v w r r' e s₁} : s.head a = .var v r → s.head b = .var w r' → v ≠ w →
      Runs n (s.log (s.head a) (s.head b)) (sharedPairs (s.kindOf v) (s.kindOf w)) (some e) s₁ →
      Runs (n + 1) s [(a, b)] (some e) s₁

/-- Makes some pairs of types equal, and fails afterwards for a given reason. -/
def equatePairs (eq : Equate) (ps : List (Ty × Ty)) (e : Option Reason) : Unify Unit := do
  ps.forM fun p => eq p.1 p.2
  match e with
  | none => pure ()
  | some e => throw e

section NormalForms

variable (eq : Equate)

theorem equateAll_eq (ts us : List Ty) : equateAll eq ts us = equatePairs eq (ts.zip us) none := by
  induction ts generalizing us with
  | nil => simp [equateAll, equatePairs]
  | cons t ts ih =>
      cases us with
      | nil => simp [equateAll, equatePairs]
      | cons u us => simp [equateAll, equatePairs, ih]

theorem components_eq (ts us : List Ty) :
    components eq ts us = equatePairs eq (componentPairs ts us).1 (componentPairs ts us).2 := by
  unfold components componentPairs
  split
  · exact equateAll_eq eq ts us
  · simp [equatePairs]

theorem fieldwise_eq (fs gs : List (String × Ty)) :
    fieldwise eq fs gs =
      equatePairs eq (fieldPairs fs gs).1 ((fieldPairs fs gs).2.map .missingField) := by
  induction fs with
  | nil => simp [fieldwise, equatePairs, fieldPairs]
  | cons p fs ih =>
      obtain ⟨n, t⟩ := p
      simp only [fieldwise, List.forM_eq_forM] at ih
      simp only [fieldwise, List.forM_eq_forM, List.forM_cons, ih]
      cases h : Fields.get? gs n with
      | none => simp [equatePairs, fieldPairs, h]
      | some u => simp [equatePairs, fieldPairs, h]

theorem recordFields_eq (fs gs : List (String × Ty)) :
    recordFields eq fs gs = equatePairs eq (recordPairs fs gs).1 (recordPairs fs gs).2 := by
  unfold recordFields recordPairs
  cases (Fields.names fs).find? (fun n => (Fields.get? gs n).isNone) with
  | some missing => simp [equatePairs]
  | none =>
      cases (Fields.names gs).find? (fun n => (Fields.get? fs n).isNone) with
      | some extra => simp [equatePairs]
      | none => exact fieldwise_eq eq fs gs

theorem mergeKinds_eq (k l : Kind) :
    mergeKinds eq k l = (do equatePairs eq (sharedPairs k l) none; return mergedKind k l) := by
  cases k with
  | universal =>
      have hnone : sharedPairs .universal l = [] := by
        simp [sharedPairs, Kind.fields, Fields.get?]
      simp [mergeKinds, mergedKind, equatePairs, hnone]
  | record fs =>
      cases l with
      | universal => simp [mergeKinds, mergedKind, equatePairs, sharedPairs, Kind.fields]
      | record gs =>
          have hfold : ∀ merged : List (String × Ty),
              (gs.foldlM (fun merged p =>
                match Fields.get? fs p.1 with
                | some t => do
                    eq t p.2
                    return merged
                | none => return Fields.insert p.1 p.2 merged) merged : Unify _) = do
              equatePairs eq (sharedPairs (.record fs) (.record gs)) none
              return gs.foldl (fun merged p => if (Fields.get? fs p.1).isSome then merged
                else Fields.insert p.1 p.2 merged) merged := by
            induction gs with
            | nil => simp [equatePairs, sharedPairs, Kind.fields]
            | cons p gs ih =>
                intro merged
                obtain ⟨n, u⟩ := p
                cases h : Fields.get? fs n with
                | none =>
                    simpa [sharedPairs, Kind.fields, h] using ih (Fields.insert n u merged)
                | some t =>
                    simpa [sharedPairs, Kind.fields, h, equatePairs] using
                      congrArg (fun m => eq t u >>= fun _ => m) (ih merged)
          refine (congrArg (fun m : Unify _ => do return Kind.record (← m)) (hfold fs)).trans ?_
          simp [mergedKind, mergeFields]

end NormalForms

section Simple

variable {syn : Prop}

/-- Both types of every pair are simple. -/
def AllSimple (syn : Prop) (ps : List (Ty × Ty)) : Prop :=
  ∀ p ∈ ps, p.1.Simple syn ∧ p.2.Simple syn

theorem AllSimple.head {p : Ty × Ty} {ps : List (Ty × Ty)} (hps : AllSimple syn (p :: ps)) :
    AllSimple syn [p] := fun _ hq => hps _ (by simpa using Or.inl hq)

theorem AllSimple.tail {p : Ty × Ty} {ps : List (Ty × Ty)} (hps : AllSimple syn (p :: ps)) :
    AllSimple syn ps := fun _ hq => hps _ (List.mem_cons_of_mem _ hq)

theorem AllSimple.pair {a b : Ty} {ps : List (Ty × Ty)} (hps : AllSimple syn ((a, b) :: ps)) :
    a.Simple syn ∧ b.Simple syn := hps _ List.mem_cons_self

theorem mem_fieldPairs {fs gs : List (String × Ty)} {p : Ty × Ty} (hp : p ∈ (fieldPairs fs gs).1) :
    ∃ n, (n, p.1) ∈ fs ∧ Fields.get? gs n = some p.2 := by
  induction fs with
  | nil => simp [fieldPairs] at hp
  | cons f fs ih =>
      obtain ⟨n, t⟩ := f
      cases hn : Fields.get? gs n with
      | none => simp [fieldPairs, hn] at hp
      | some u =>
          simp only [fieldPairs, hn, List.mem_cons] at hp
          rcases hp with rfl | hp
          · exact ⟨n, List.mem_cons_self, hn⟩
          · obtain ⟨m, hm, hget⟩ := ih hp
            exact ⟨m, List.mem_cons_of_mem _ hm, hget⟩

theorem mem_recordPairs {fs gs : List (String × Ty)} {p : Ty × Ty}
    (hp : p ∈ (recordPairs fs gs).1) : ∃ n, (n, p.1) ∈ fs ∧ Fields.get? gs n = some p.2 := by
  unfold recordPairs at hp
  split at hp
  · simp at hp
  · simp at hp
  · exact mem_fieldPairs hp

theorem mem_componentPairs {ts us : List Ty} {p : Ty × Ty} (hp : p ∈ (componentPairs ts us).1) :
    p.1 ∈ ts ∧ p.2 ∈ us := by
  unfold componentPairs at hp
  split at hp
  · exact List.of_mem_zip hp
  · simp at hp

theorem mem_kindPairs {k : Kind} {t : Ty} {p : Ty × Ty} (hp : p ∈ (kindPairs k t).1) :
    ∃ n fs r, t = .record fs r ∧ (n, p.1) ∈ k.fields ∧ Fields.get? fs n = some p.2 := by
  unfold kindPairs at hp
  split at hp
  case h_2 required fs r =>
    obtain ⟨n, hn, hget⟩ := mem_fieldPairs hp
    exact ⟨n, fs, r, rfl, hn, hget⟩
  all_goals simp at hp

theorem mem_sharedPairs {k l : Kind} {p : Ty × Ty} (hp : p ∈ sharedPairs k l) :
    ∃ n, Fields.get? k.fields n = some p.1 ∧ (n, p.2) ∈ l.fields := by
  obtain ⟨⟨n, u⟩, hq, hmap⟩ := List.mem_filterMap.1 hp
  obtain ⟨t, ht, rfl⟩ := Option.map_eq_some_iff.1 hmap
  exact ⟨n, ht, hq⟩

theorem mem_mergeFields {fs gs : List (String × Ty)} {p : String × Ty}
    (hp : p ∈ mergeFields fs gs) : p ∈ fs ∨ p ∈ gs := by
  unfold mergeFields at hp
  suffices h : ∀ merged : List (String × Ty),
      p ∈ gs.foldl (fun merged p => if (Fields.get? fs p.1).isSome then merged
        else Fields.insert p.1 p.2 merged) merged → p ∈ merged ∨ p ∈ gs from h fs hp
  clear hp
  induction gs with
  | nil => exact fun merged hp => Or.inl hp
  | cons q gs ih =>
      intro merged hp
      rcases ih _ hp with hp | hp
      · dsimp only at hp
        split at hp
        · exact Or.inl hp
        · rcases Fields.mem_insert hp with hp | hp
          · exact Or.inr (List.mem_cons.2 (Or.inl hp))
          · exact Or.inl hp
      · exact Or.inr (List.mem_cons_of_mem _ hp)

theorem sorted_mergeFields {fs : List (String × Ty)} (hfs : Fields.Sorted fs)
    (gs : List (String × Ty)) : Fields.Sorted (mergeFields fs gs) := by
  unfold mergeFields
  suffices h : ∀ merged : List (String × Ty), Fields.Sorted merged →
      Fields.Sorted (gs.foldl (fun merged p => if (Fields.get? fs p.1).isSome then merged
        else Fields.insert p.1 p.2 merged) merged) from h fs hfs
  induction gs with
  | nil => exact fun merged h => h
  | cons q gs ih =>
      intro merged h
      refine ih _ ?_
      dsimp only
      split
      · exact h
      · exact Fields.sorted_insert h _ _

theorem mem_fields_mergedKind {k l : Kind} {p : String × Ty} (hp : p ∈ (mergedKind k l).fields) :
    p ∈ k.fields ∨ p ∈ l.fields := by
  cases k with
  | universal => exact Or.inr hp
  | record fs =>
      cases l with
      | universal => exact Or.inl hp
      | record gs => exact mem_mergeFields hp

theorem mergedKind_simple {k l : Kind} (hk : k.Simple syn) (hl : l.Simple syn) :
    (mergedKind k l).Simple syn := by
  refine ⟨?_, fun p hp => (mem_fields_mergedKind hp).elim (hk.2 p) (hl.2 p)⟩
  cases k with
  | universal => exact hl.1
  | record fs =>
      cases l with
      | universal => exact hk.1
      | record gs => exact sorted_mergeFields hk.1 gs

theorem fieldPairs_simple {fs gs : List (String × Ty)} (hfs : ∀ p ∈ fs, p.2.Simple syn)
    (hgs : ∀ p ∈ gs, p.2.Simple syn) : AllSimple syn (fieldPairs fs gs).1 := by
  intro p hp
  obtain ⟨n, hn, hget⟩ := mem_fieldPairs hp
  exact ⟨hfs _ hn, hgs _ (Fields.mem_of_get? hget)⟩

/-- Of the types that are made equal, the first stands right inside the first type, and the second
right inside the second one. -/
theorem mem_items_of_mem_parts {t u : Ty} {p : Ty × Ty} (hp : p ∈ (parts t u).1) :
    p.1 ∈ t.items ∧ p.2 ∈ u.items := by
  unfold parts at hp
  split at hp
  case h_2 =>
    simp only [List.mem_cons, List.not_mem_nil, or_false] at hp
    rcases hp with rfl | rfl <;> simp [Ty.items]
  case h_3 | h_4 =>
    obtain rfl := List.mem_singleton.1 hp
    exact ⟨List.mem_singleton_self _, List.mem_singleton_self _⟩
  case h_5 => exact mem_componentPairs hp
  case h_6 =>
    split at hp
    · exact mem_componentPairs hp
    · simp at hp
  case h_7 =>
    obtain ⟨n, hn, hget⟩ := mem_recordPairs hp
    exact ⟨List.mem_map_of_mem hn, List.mem_map_of_mem (Fields.mem_of_get? hget)⟩
  all_goals simp at hp

theorem parts_simple {t u : Ty} (ht : t.Simple syn) (hu : u.Simple syn) :
    AllSimple syn (parts t u).1 := fun _ hp =>
  ⟨ht.of_mem_items (mem_items_of_mem_parts hp).1, hu.of_mem_items (mem_items_of_mem_parts hp).2⟩

theorem kindPairs_simple {k : Kind} {t : Ty} (hk : k.Simple syn) (ht : t.Simple syn) :
    AllSimple syn (kindPairs k t).1 := by
  unfold kindPairs
  split
  case h_1 => simp [AllSimple]
  case h_2 =>
    cases ht with
    | record _ _ hfs => exact fieldPairs_simple hk.2 hfs
  case h_3 => simp [AllSimple]

theorem sharedPairs_simple {k l : Kind} (hk : k.Simple syn) (hl : l.Simple syn) :
    AllSimple syn (sharedPairs k l) := by
  intro p hp
  obtain ⟨n, hget, hn⟩ := mem_sharedPairs hp
  exact ⟨hk.2 _ (Fields.mem_of_get? hget), hl.2 _ hn⟩

end Simple

end Unify

namespace Solver.Simple

variable {syn : Prop} {s : Solver} {v w : TypeVar} {t u : Ty} {k : Kind}

protected theorem head (h : s.Simple syn) (ht : t.Simple syn) : (s.head t).Simple syn :=
  (h.subst.apply ht).expand

protected theorem log (h : s.Simple syn) : (s.log t u).Simple syn := ⟨h.subst, h.kind⟩

protected theorem assign (h : s.Simple syn) (ht : t.Simple syn) : (s.assign v t).Simple syn where
  subst w u hw := by
    rw [subst_assign, Substitution.find?_bind] at hw
    split at hw
    · exact Option.some.inj hw ▸ ht
    · exact h.subst w u hw
  kind := h.kind

protected theorem strengthen (h : s.Simple syn) (hk : k.Simple syn) :
    (s.strengthen v k).Simple syn := by
  cases k with
  | universal => exact h
  | record fs =>
      refine ⟨h.subst, fun w => ?_⟩
      rw [Solver.strengthen, kindOf_refine]
      split
      · exact hk
      · exact h.kind w

end Solver.Simple

namespace Unify

variable {syn : Prop}

theorem Meet.simple {s : Solver} {a b t : Ty} {v : TypeVar} (hm : Meet s a b v t)
    (hs : s.Simple syn) (ha : a.Simple syn) (hb : b.Simple syn) : t.Simple syn := by
  obtain ⟨r, ⟨-, rfl⟩ | ⟨-, rfl⟩⟩ := hm
  · exact hs.head hb
  · exact hs.head ha

/-- Comparing simple types keeps all types simple. -/
theorem Runs.simple {n : Nat} {s s' : Solver} {ps : List (Ty × Ty)} {r : Option Reason}
    (h : Runs n s ps r s') (hs : s.Simple syn) (hps : AllSimple syn ps) : s'.Simple syn := by
  induction h with
  | nil n s => exact hs
  | cons _ _ ih₁ ih₂ =>
      exact ih₂ (ih₁ hs hps.head) hps.tail
  | stop _ ih => exact ih hs hps.head
  | tooDeep s a b => exact hs
  | same ha hb => exact hs.log
  | rigid ha hb _ ih =>
      obtain ⟨hsa, hsb⟩ := hps _ List.mem_cons_self
      exact ih hs.log (parts_simple (hs.head hsa) (hs.head hsb))
  | occurs hm ht hv => exact hs.log
  | bind hm ht hv _ ih =>
      obtain ⟨hsa, hsb⟩ := hps _ List.mem_cons_self
      have hst := hm.simple hs hsa hsb
      exact ih (hs.log.assign hst) (kindPairs_simple (hs.kind _) ((hs.assign hst).subst.apply hst))
  | join ha hb hne _ hw ih =>
      have hs₁ := ih hs.log (sharedPairs_simple (hs.kind _) (hs.kind _))
      exact (hs₁.assign (.var _ _)).strengthen (mergedKind_simple (hs.kind _) (hs.kind _))
  | joinOccurs ha hb hne _ hw ih =>
      exact (ih hs.log (sharedPairs_simple (hs.kind _) (hs.kind _))).assign (.var _ _)
  | joinStop ha hb hne _ ih => exact ih hs.log (sharedPairs_simple (hs.kind _) (hs.kind _))

section Yields

variable {α : Type} {m : Unify Unit} {s s' : Solver} {r : Option Reason}

/-- Why a computation failed, if it did. -/
def failure : Except Reason Unit → Option Reason
  | .ok () => none
  | .error e => some e

/-- Running the step ends for this reason, if it fails, and in this state. -/
def Yields (m : Unify Unit) (s : Solver) (r : Option Reason) (s' : Solver) : Prop :=
  failure (m.run s).1 = r ∧ (m.run s).2 = s'

theorem yields_pure (h : Yields (pure ()) s r s') : r = none ∧ s' = s := ⟨h.1.symm, h.2.symm⟩

theorem yields_throw {e : Reason} (h : Yields (throw e) s r s') : r = some e ∧ s' = s :=
  ⟨h.1.symm, h.2.symm⟩

theorem run_bind {β : Type} (m : Unify α) (k : α → Unify β) (s : Solver) :
    (m >>= k).run s = match m.run s with
      | (.ok a, s₁) => (k a).run s₁
      | (.error e, s₁) => (.error e, s₁) := by
  change (match m s with | (a, s') => ExceptT.bindCont k a s') = _
  change _ = match m s with | (.ok a, s₁) => (k a).run s₁ | (.error e, s₁) => (.error e, s₁)
  rcases m s with ⟨_ | _, _⟩ <;> rfl

theorem yields_get {k : Solver → Unify Unit} (h : Yields (get >>= k) s r s') :
    Yields (k s) s r s' := h

/-- A computation in two parts fails in the first part or ends as the second part does. -/
theorem yields_bind {k : Unit → Unify Unit} (h : Yields (m >>= k) s r s') :
    (∃ e, r = some e ∧ Yields m s (some e) s') ∨
      ∃ s₁, Yields m s none s₁ ∧ Yields (k ()) s₁ r s' := by
  unfold Yields at h
  rw [run_bind] at h
  rcases hm : m.run s with ⟨e | a, s₁⟩
  · rw [hm] at h
    obtain ⟨rfl, rfl⟩ := h
    exact Or.inl ⟨e, rfl, by simp [Yields, hm, failure]⟩
  · rw [hm] at h
    exact Or.inr ⟨s₁, by simp [Yields, hm, failure], h⟩

end Yields

section Heads

variable (eq : Equate) {t u : Ty} {s s' : Solver} {r : Option Reason}

theorem IsRigid.expand_eq (ht : IsRigid t) : t.expand = t := by
  cases t <;> first | exact ht.elim | rfl

theorem IsRigid.apply (ht : IsRigid t) (s : Substitution) : IsRigid (s.apply t) := by
  cases t <;> trivial

/-- A simple type is a variable or a rigid type at its head. -/
theorem var_or_isRigid_expand {syn : Prop} (ht : t.Simple syn) :
    (∃ v r, t.expand = .var v r) ∨ IsRigid t.expand := by
  induction ht with
  | var v r => exact Or.inl ⟨v, r, rfl⟩
  | synonym n r hsyn hts ht hvars ihts iht => exact iht
  | base | func | list | ref | product | variant | record => exact Or.inr trivial

theorem var_or_isRigid_head {syn : Prop} (hs : s.Simple syn)
    (ht : t.Simple syn) : (∃ v r, s.head t = .var v r) ∨ IsRigid (s.head t) :=
  var_or_isRigid_expand (hs.subst.apply ht)

theorem heads_of_isRigid (ht : IsRigid t) (hu : IsRigid u) :
    heads eq t u = equatePairs eq (parts t u).1 (parts t u).2 := by
  cases t <;> first | exact ht.elim | skip
  all_goals cases u <;> first | exact hu.elim | skip
  case base.base b r c r' => by_cases h : b = c <;> simp [heads, parts, equatePairs, h]
  case func.func => simp [heads, parts, equatePairs]
  case list.list => simp [heads, parts, equatePairs]
  case ref.ref => simp [heads, parts, equatePairs]
  case product.product => exact components_eq eq _ _
  case variant.variant n ts r m us r' =>
    by_cases h : n = m
    · simpa [heads, parts, h] using components_eq eq ts us
    · simp [heads, parts, equatePairs, h]
  case record.record => exact recordFields_eq eq _ _
  all_goals simp [heads, parts, equatePairs]

theorem heads_var_of_isRigid (v : TypeVar) (r : Range) (hu : IsRigid u) :
    heads eq (.var v r) u = bindVar eq v u := by
  cases u <;> first | exact hu.elim | rfl

theorem heads_of_isRigid_var (v : TypeVar) (r : Range) (ht : IsRigid t) :
    heads eq t (.var v r) = bindVar eq v t := by
  cases t <;> first | exact ht.elim | rfl

theorem heads_var_var (v w : TypeVar) (r r' : Range) :
    heads eq (.var v r) (.var w r') = if v = w then pure () else joinVars eq v w r' := rfl

theorem bindVar_of_isRigid (v : TypeVar) (ht : IsRigid t) :
    bindVar eq v t = (if t.mentions v then throw (.occurs v t)
      else do assign v t; satisfy eq (← kindOf v) t) := by
  cases t <;> first | exact ht.elim | rfl

theorem satisfy_of_isRigid (k : Kind) (ht : IsRigid t) (h : Yields (satisfy eq k t) s r s') :
    Yields (equatePairs eq (kindPairs k (s.subst.apply t)).1 (kindPairs k (s.subst.apply t)).2)
      s r s' := by
  cases k with
  | universal => simpa [satisfy, kindPairs, equatePairs] using h
  | record required =>
      have hrigid := ht.apply s.subst
      replace h := yields_get h
      simp only [hrigid.expand_eq] at h
      generalize s.subst.apply t = t' at h hrigid ⊢
      cases t' <;> first | exact hrigid.elim | skip
      case record fs r' =>
        change Yields (fieldwise eq required fs) s r s' at h
        rwa [fieldwise_eq] at h
      all_goals simpa [kindPairs, equatePairs] using h

end Heads

/-- If comparing two simple types follows the rules, so does comparing some pairs of them. -/
theorem equatePairs_runs {syn : Prop} {eq : Equate} {n : Nat} {ps : List (Ty × Ty)}
    {s s' : Solver} {r e : Option Reason}
    (heq : ∀ a b s r s', s.Simple syn → a.Simple syn → b.Simple syn →
      Yields (eq a b) s r s' → Runs n s [(a, b)] r s')
    (hs : s.Simple syn) (hps : AllSimple syn ps) (h : Yields (equatePairs eq ps e) s r s') :
    ∃ r₀, r = r₀.or e ∧ Runs n s ps r₀ s' := by
  induction ps generalizing s with
  | nil =>
      cases e with
      | none =>
          obtain ⟨rfl, rfl⟩ := yields_pure h
          exact ⟨none, rfl, .nil n _⟩
      | some e =>
          obtain ⟨rfl, rfl⟩ := yields_throw h
          exact ⟨none, rfl, .nil n _⟩
  | cons p ps ih =>
      have hp := hps p List.mem_cons_self
      have hstep : equatePairs eq (p :: ps) e =
          (eq p.1 p.2 >>= fun _ => equatePairs eq ps e) := by simp [equatePairs]
      rw [hstep] at h
      rcases yields_bind h with ⟨e', rfl, hfirst⟩ | ⟨s₁, hfirst, hrest⟩
      · exact ⟨some e', rfl, .stop (heq _ _ _ _ _ hs hp.1 hp.2 hfirst)⟩
      · have hrun := heq _ _ _ _ _ hs hp.1 hp.2 hfirst
        obtain ⟨r₀, hr, hrest⟩ := ih (hrun.simple hs hps.head) hps.tail hrest
        exact ⟨r₀, hr, .cons hrun hrest⟩

/-- What is left of joining two variables when their kinds are merged. -/
def finishJoin (v w : TypeVar) (range : Range) (merged : Kind) : Unify Unit := do
  assign v (.var w range)
  match (← get).subst.applyKind merged with
  | .universal => pure ()
  | .record fs =>
      let shape := Ty.record fs range
      if shape.mentions w then throw (.occurs w shape) else refine w merged

theorem joinVars_run (eq : Equate) (v w : TypeVar) (range : Range) (s : Solver) :
    (joinVars eq v w range).run s =
      (equatePairs eq (sharedPairs (s.kindOf v) (s.kindOf w)) none >>= fun _ =>
        finishJoin v w range (mergedKind (s.kindOf v) (s.kindOf w))).run s := by
  change (mergeKinds eq (s.kindOf v) (s.kindOf w) >>= finishJoin v w range).run s = _
  rw [mergeKinds_eq, bind_assoc]
  simp only [pure_bind]

theorem yields_finishJoin {v w : TypeVar} {range : Range} {merged : Kind} {s s' : Solver}
    {r : Option Reason} (h : Yields (finishJoin v w range merged) s r s') :
    let bound := (s.subst.bind v (.var w range)).applyKind merged
    (w ∉ bound.freeVars ∧ r = none ∧ s' = (s.assign v (.var w range)).strengthen w merged) ∨
      ∃ shape, w ∈ bound.freeVars ∧ r = some (.occurs w shape) ∧
        s' = s.assign v (.var w range) := by
  change Yields (match (s.subst.bind v (.var w range)).applyKind merged with
    | .universal => pure ()
    | .record fs =>
        if (Ty.record fs range).mentions w then throw (.occurs w (.record fs range))
        else refine w merged) (s.assign v (.var w range)) r s' at h
  cases merged with
  | universal =>
      obtain ⟨rfl, rfl⟩ := yields_pure h
      exact Or.inl ⟨by simp [Substitution.applyKind_universal, Kind.freeVars, Kind.freeVarsUnder],
        rfl, rfl⟩
  | record fs =>
      rw [Substitution.applyKind_record] at h ⊢
      dsimp only at h
      split at h
      · next hmem =>
          obtain ⟨rfl, rfl⟩ := yields_throw h
          exact Or.inr ⟨_, Ty.mentions_eq_true.1 hmem, rfl, rfl⟩
      · next hmem =>
          exact Or.inl ⟨fun hw => hmem (Ty.mentions_eq_true.2 hw), h.1.symm, h.2.symm⟩

theorem joinVars_runs {syn : Prop} {eq : Equate} {n : Nat} {a b : Ty} {v w : TypeVar}
    {rv rw' : Range} {s s' : Solver} {r : Option Reason}
    (heq : ∀ a b s r s', s.Simple syn → a.Simple syn → b.Simple syn →
      Yields (eq a b) s r s' → Runs n s [(a, b)] r s')
    (hs : s.Simple syn) (ha : s.head a = .var v rv) (hb : s.head b = .var w rw') (hvw : v ≠ w)
    (h : Yields (joinVars eq v w rw') (s.log (s.head a) (s.head b)) r s') :
    Runs (n + 1) s [(a, b)] r s' := by
  unfold Yields at h
  rw [joinVars_run] at h
  rcases yields_bind h with ⟨e, rfl, hpairs⟩ | ⟨s₁, hpairs, hfinish⟩
  · obtain ⟨r₀, hr, hrun⟩ := equatePairs_runs heq hs.log
      (sharedPairs_simple (hs.kind v) (hs.kind w)) hpairs
    obtain rfl : some e = r₀ := by simpa using hr
    exact .joinStop ha hb hvw hrun
  · obtain ⟨r₀, hr, hrun⟩ := equatePairs_runs heq hs.log
      (sharedPairs_simple (hs.kind v) (hs.kind w)) hpairs
    obtain rfl : none = r₀ := by simpa using hr
    rcases yields_finishJoin hfinish with ⟨hfree, rfl, rfl⟩ | ⟨shape, hmem, rfl, rfl⟩
    · exact hrun.join ha hb hvw hfree
    · exact hrun.joinOccurs ha hb hvw hmem

/-- Comparing two simple types follows the rules. -/
theorem equate_runs {syn : Prop} (n : Nat) (a b : Ty) (s : Solver) (r : Option Reason) (s' : Solver)
    (hs : s.Simple syn) (ha : a.Simple syn) (hb : b.Simple syn)
    (h : Yields (equate n a b) s r s') : Runs n s [(a, b)] r s' := by
  induction n generalizing a b s r s' with
  | zero =>
      obtain ⟨rfl, rfl⟩ := yields_throw h
      exact .tooDeep _ a b
  | succ n ih =>
      change Yields (heads (equate n) (s.head a) (s.head b)) (s.log (s.head a) (s.head b)) r s' at h
      have hbind : ∀ v t, Meet s a b v t → IsRigid t →
          Yields (bindVar (equate n) v t) (s.log (s.head a) (s.head b)) r s' →
          Runs (n + 1) s [(a, b)] r s' := by
        intro v t hm ht h
        rw [bindVar_of_isRigid _ v ht] at h
        split at h
        · next hv =>
            obtain ⟨rfl, rfl⟩ := yields_throw h
            exact .occurs hm ht (by simpa using hv)
        · next hv =>
            have hst := hm.simple hs ha hb
            have hs' := (hs.log (t := s.head a) (u := s.head b)).assign (v := v) hst
            have hsatisfy : Yields (satisfy (equate n) (s.kindOf v) t)
                ((s.log (s.head a) (s.head b)).assign v t) r s' := h
            obtain ⟨r₀, rfl, hrun⟩ := equatePairs_runs ih hs'
              (kindPairs_simple (hs.kind v) (hs'.subst.apply hst))
              (satisfy_of_isRigid (equate n) (s.kindOf v) ht hsatisfy)
            exact .bind hm ht (by simpa using hv) hrun
      rcases var_or_isRigid_head hs ha with ⟨v, rv, hv⟩ | hra <;>
        rcases var_or_isRigid_head hs hb with ⟨w, rw', hw⟩ | hrb
      · have hheads : heads (equate n) (s.head a) (s.head b) =
            if v = w then pure () else joinVars (equate n) v w rw' := by
          rw [hv, hw, heads_var_var]
        rw [hheads] at h
        by_cases hvw : v = w
        · subst hvw
          rw [if_pos rfl] at h
          obtain ⟨rfl, rfl⟩ := yields_pure h
          exact .same hv hw
        · rw [if_neg hvw] at h
          exact joinVars_runs ih hs hv hw hvw h
      · have hheads : heads (equate n) (s.head a) (s.head b) = bindVar (equate n) v (s.head b) := by
          rw [hv, heads_var_of_isRigid (equate n) v rv hrb]
        exact hbind v _ ⟨rv, Or.inl ⟨hv, rfl⟩⟩ hrb (hheads ▸ h)
      · have hheads : heads (equate n) (s.head a) (s.head b) = bindVar (equate n) w (s.head a) := by
          rw [hw, heads_of_isRigid_var (equate n) w rw' hra]
        exact hbind w _ ⟨rw', Or.inr ⟨hw, rfl⟩⟩ hra (hheads ▸ h)
      · have hheads := heads_of_isRigid (equate n) hra hrb
        obtain ⟨r₀, rfl, hrun⟩ := equatePairs_runs ih hs.log
          (parts_simple (hs.head ha) (hs.head hb)) (hheads ▸ h)
        exact .rigid hra hrb hrun

end Unify

namespace Solver

open Unify

variable {syn : Prop} {s : Solver} {a b : Ty}

/-- The state without the comparisons that led to it. -/
def forget (s : Solver) : Solver := { s with compared := [] }

theorem Simple.forget (hs : s.Simple syn) : s.forget.Simple syn := ⟨hs.subst, hs.kind⟩

/-- Unifying two simple types follows the rules, and a failure changes nothing but the record of
comparisons. -/
theorem unify_runs (hs : s.Simple syn) (ha : a.Simple syn) (hb : b.Simple syn) :
    ∃ r s₁, Runs (s.fuel (a.size + b.size)) s.forget [(a, b)] r s₁ ∧
      s.unify a b = match r with
        | none => (.ok (), s₁)
        | some e => (.error (s.contradiction e a b), { s with compared := s₁.compared }) := by
  have hs₀ : s.forget.Simple syn := hs.forget
  rcases hout : (equate (s.fuel (a.size + b.size)) a b).run s.forget with ⟨e | ⟨⟩, s₁⟩
  · refine ⟨some e, s₁, equate_runs _ _ _ _ _ _ hs₀ ha hb ?_, ?_⟩
    · simp only [Yields, hout, Unify.failure, and_self]
    · simp only [unify, show ({ s with compared := [] } : Solver) = s.forget from rfl, hout]
  · refine ⟨none, s₁, equate_runs _ _ _ _ _ _ hs₀ ha hb ?_, ?_⟩
    · simp only [Yields, hout, Unify.failure, and_self]
    · simp only [unify, show ({ s with compared := [] } : Solver) = s.forget from rfl, hout]

end Solver

end FieldML
