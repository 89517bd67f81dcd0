import FieldML.Proofs.Quantifier.Substitution
import FieldML.Proofs.Unify.Plain

/-!
# The rules of unification with quantifiers

While no variable has a record kind, comparing types that may be quantified follows the rules of
`Equates`, as long as it succeeds.
-/

namespace FieldML

/-- The types that a type is made of, unless it is quantified. -/
def Ty.components : Ty → List Ty
  | .func p q _ => [p, q]
  | .list t _ | .ref t _ => [t]
  | .product ts _ | .variant _ ts _ => ts
  | .record fs _ => fs.map Prod.snd
  | .base _ _ | .var _ _ | .synonym _ _ _ _ | .all _ _ _ _ => []

namespace Unify

open Solver

/-- The pairs that are made equal when two kinds must be the same, or why they cannot be. -/
def equalKindPairs (k l : Kind) : List (Ty × Ty) × Option Reason :=
  match k, l with
  | .universal, .universal => ([], none)
  | .record fs, .record gs =>
      if Fields.names fs = Fields.names gs then
        ((fieldPairs fs gs).1, (fieldPairs fs gs).2.map .missingField)
      else ([], some .kindMismatch)
  | _, _ => ([], some .kindMismatch)

/-- The pairs that are made equal below two quantifiers: those of the kinds and the bodies, where
the variable of the first quantifier stands for both. -/
def bodyPairs (v : TypeVar) (k : Kind) (t : Ty) (w : TypeVar) (l : Kind) (u : Ty) :
    List (Ty × Ty) × Option Reason :=
  let kinds := equalKindPairs k (l.substitute w (.var v .erased))
  match kinds.2 with
  | none => (kinds.1 ++ [(t, u.substitute w (.var v .erased))], none)
  | some e => (kinds.1, some e)

/-- Refuses a variable that is bound or that one of the others leads to. -/
def escapes (outer : List TypeVar) (v : TypeVar) : Unify Unit := do
  let s ← get
  if (s.subst.find? v).isSome || outer.any (reaches s · v) then throw (.escapingQuantifier v)

section NormalForms

variable (eq : Equate)

theorem sameKind_eq (k l : Kind) :
    sameKind eq k l = equatePairs eq (equalKindPairs k l).1 (equalKindPairs k l).2 := by
  cases k with
  | universal => cases l <;> simp [sameKind, equalKindPairs, equatePairs]
  | record fs =>
      cases l with
      | universal => simp [sameKind, equalKindPairs, equatePairs]
      | record gs =>
          simp only [sameKind, equalKindPairs]
          split
          · exact fieldwise_eq eq fs gs
          · simp [equatePairs]

theorem quantified_eq (outer : List TypeVar) (v : TypeVar) (k : Kind) (t : Ty) (w : TypeVar)
    (l : Kind) (u : Ty) :
    quantified eq outer v k t w l u = (do
      equatePairs eq (bodyPairs v k t w l u).1 (bodyPairs v k t w l u).2
      escapes outer v) := by
  change (do
    sameKind eq k (l.substitute w (.var v .erased))
    eq t (u.substitute w (.var v .erased))
    escapes outer v) = _
  rw [sameKind_eq, bodyPairs]
  cases (equalKindPairs k (l.substitute w (.var v .erased))).2 with
  | none => simp [equatePairs]
  | some e => simp [equatePairs]

end NormalForms

/-- What happens while pairs of types are made equal with success: the state before, the pairs and
the state afterwards. -/
inductive Equates : Solver → List (Ty × Ty) → Solver → Prop
  | nil (s : Solver) : Equates s [] s
  | cons {s s₁ s₂ p ps} : Equates s [p] s₁ → Equates s₁ ps s₂ → Equates s (p :: ps) s₂
  | same {s a b v r r'} : s.head a = .var v r → s.head b = .var v r' →
      Equates s [(a, b)] (s.log (s.head a) (s.head b))
  | bind {s a b v t} : Meet s a b v t → v ∉ t.freeVars →
      Equates s [(a, b)] ((s.log (s.head a) (s.head b)).assign v t)
  | rigid {s a b s₁} : IsRigid (s.head a) → IsRigid (s.head b) →
      (parts (s.head a) (s.head b)).2 = none →
      Equates (s.log (s.head a) (s.head b)) (parts (s.head a) (s.head b)).1 s₁ →
      Equates s [(a, b)] s₁
  | all {s a b v k t r w l u r' s₁} : s.head a = .all v k t r → s.head b = .all w l u r' →
      (bodyPairs v k t w l u).2 = none →
      Equates (s.log (s.head a) (s.head b)) (bodyPairs v k t w l u).1 s₁ →
      s₁.subst.find? v = none →
      (∀ x ∈ (s.head a).freeVars ++ (s.head b).freeVars, reaches s₁ x v = false) →
      Equates s [(a, b)] s₁

variable {B : TypeVar → Prop} {s s' s₁ : Solver} {a b t u : Ty} {v w : TypeVar}
  {ps : List (Ty × Ty)} {p : Ty × Ty} {k l : Kind} {r : Range}

/-- Both types of every pair are formed. -/
def AllFormed (B : TypeVar → Prop) (ps : List (Ty × Ty)) : Prop :=
  ∀ p ∈ ps, p.1.Formed B ∧ p.2.Formed B

theorem AllFormed.head (hps : AllFormed B (p :: ps)) : AllFormed B [p] :=
  fun _ hq => hps _ (by simpa using Or.inl hq)

theorem AllFormed.tail (hps : AllFormed B (p :: ps)) : AllFormed B ps :=
  fun _ hq => hps _ (List.mem_cons_of_mem _ hq)

theorem AllFormed.pair (hps : AllFormed B ((a, b) :: ps)) : a.Formed B ∧ b.Formed B :=
  hps _ List.mem_cons_self

theorem mem_parts (hp : p ∈ (parts t u).1) : p.1 ∈ t.components ∧ p.2 ∈ u.components := by
  unfold parts at hp
  split at hp
  case h_2 =>
    simp only [List.mem_cons, List.not_mem_nil, or_false] at hp
    rcases hp with rfl | rfl <;> simp [Ty.components]
  case h_3 | h_4 =>
    obtain rfl := List.mem_singleton.1 hp
    simp [Ty.components]
  case h_5 => exact mem_componentPairs hp
  case h_6 =>
    split at hp
    · exact mem_componentPairs hp
    · exact absurd hp List.not_mem_nil
  case h_7 =>
    obtain ⟨n, hn, hget⟩ := mem_recordPairs hp
    exact ⟨List.mem_map_of_mem hn, List.mem_map_of_mem (Fields.mem_of_get? hget)⟩
  all_goals simp at hp

theorem mem_equalKindPairs (hp : p ∈ (equalKindPairs k l).1) :
    ∃ n, (n, p.1) ∈ k.fields ∧ (n, p.2) ∈ l.fields := by
  unfold equalKindPairs at hp
  split at hp
  case h_2 =>
    split at hp
    · obtain ⟨n, hn, hget⟩ := mem_fieldPairs hp
      exact ⟨n, hn, Fields.mem_of_get? hget⟩
    · exact absurd hp List.not_mem_nil
  all_goals simp at hp

theorem mem_bodyPairs (hp : p ∈ (bodyPairs v k t w l u).1) :
    (∃ n q, (n, p.1) ∈ k.fields ∧ (n, q) ∈ l.fields ∧ p.2 = q.substitute w (.var v .erased)) ∨
      p = (t, u.substitute w (.var v .erased)) := by
  have hkinds : p ∈ (equalKindPairs k (l.substitute w (.var v .erased))).1 →
      ∃ n q, (n, p.1) ∈ k.fields ∧ (n, q) ∈ l.fields ∧ p.2 = q.substitute w (.var v .erased) := by
    intro hp
    obtain ⟨n, hn, hm⟩ := mem_equalKindPairs hp
    rw [Kind.substitute, Kind.fields_mapVars] at hm
    obtain ⟨⟨m, q⟩, hq, heq⟩ := List.mem_map.1 hm
    obtain ⟨rfl, hsubst⟩ := Prod.mk.inj heq
    exact ⟨m, q, hn, hq, hsubst.symm⟩
  unfold bodyPairs at hp
  dsimp only at hp
  split at hp
  · exact (List.mem_append.1 hp).imp hkinds List.mem_singleton.1
  · exact Or.inl (hkinds hp)

end Unify

namespace Ty.Formed

variable {B : TypeVar → Prop} {t c : Ty} {v w : TypeVar}

theorem of_mem_components (ht : t.Formed B) (hc : c ∈ t.components) : c.Formed B := by
  cases ht with
  | base | var | all => exact absurd hc List.not_mem_nil
  | func r hp hq =>
      simp only [components, List.mem_cons, List.not_mem_nil, or_false] at hc
      rcases hc with rfl | rfl
      · exact hp
      · exact hq
  | list r ht | ref r ht => exact List.mem_singleton.1 hc ▸ ht
  | product r hts | variant n r hts => exact hts c hc
  | record r hsorted hfs =>
      obtain ⟨p, hp, rfl⟩ := List.mem_map.1 hc
      exact hfs p hp

theorem expand_eq (ht : t.Formed B) : t.expand = t := by cases ht <;> rfl

theorem cases_head (ht : t.Formed B) :
    (∃ v r, t = .var v r) ∨ Unify.IsRigid t ∨ ∃ v k u r, t = .all v k u r := by
  cases ht with
  | var v r => exact Or.inl ⟨v, r, rfl⟩
  | all r hv hsorted hk ht => exact Or.inr (Or.inr ⟨_, _, _, r, rfl⟩)
  | _ => exact Or.inr (Or.inl trivial)

protected theorem substitute (ht : t.Formed B) : (t.substitute w (.var v .erased)).Formed B :=
  ht.mapVars fun bound x r => by
    unfold Replacement.single
    split <;> exact .var _ _

end Ty.Formed

namespace Unify

open Solver

variable {B B' : TypeVar → Prop} {s s' s₁ : Solver} {a b t u : Ty} {v w : TypeVar}
  {ps : List (Ty × Ty)} {p : Ty × Ty} {k l : Kind} {r r' : Range}

theorem parts_formed (ht : t.Formed B) (hu : u.Formed B') :
    ∀ p ∈ (parts t u).1, p.1.Formed B ∧ p.2.Formed B' :=
  fun _ hp => ⟨ht.of_mem_components (mem_parts hp).1, hu.of_mem_components (mem_parts hp).2⟩

theorem bodyPairs_formed (ht : (Ty.all v k t r).Formed B) (hu : (Ty.all w l u r').Formed B') :
    ∀ p ∈ (bodyPairs v k t w l u).1, p.1.Formed B ∧ p.2.Formed B' := by
  cases ht with
  | all r hv hsorted hk ht =>
      cases hu with
      | all r' hw hsorted' hl hu =>
          intro p hp
          rcases mem_bodyPairs hp with ⟨n, q, hn, hm, hq⟩ | rfl
          · rw [hq]
            exact ⟨hk _ hn, (hl _ hm).substitute⟩
          · exact ⟨ht, hu.substitute⟩

theorem head_eq (hs : s.subst.Acyclic B) (ht : t.Formed B) : s.head t = s.subst.apply t :=
  (hs.apply ht).expand_eq

theorem head_formed (hs : s.subst.Acyclic B) (ht : t.Formed B) : (s.head t).Formed B :=
  head_eq hs ht ▸ hs.apply ht

theorem find?_of_mem_freeVars_head (hs : s.subst.Acyclic B) (ht : t.Formed B)
    (hv : v ∈ (s.head t).freeVars) : s.subst.find? v = none :=
  hs.find?_of_mem_freeVars_apply ht (head_eq hs ht ▸ hv)

theorem Meet.formed (hm : Meet s a b v t) (hs : s.subst.Acyclic B) (ha : a.Formed B)
    (hb : b.Formed B) :
    t.Formed B ∧ s.subst.find? v = none ∧ ∀ w ∈ t.freeVars, s.subst.find? w = none := by
  obtain ⟨r, ⟨hv, rfl⟩ | ⟨hv, rfl⟩⟩ := hm
  · exact ⟨head_formed hs hb, find?_of_mem_freeVars_head hs ha (by simp [hv]),
      fun w => find?_of_mem_freeVars_head hs hb⟩
  · exact ⟨head_formed hs ha, find?_of_mem_freeVars_head hs hb (by simp [hv]),
      fun w => find?_of_mem_freeVars_head hs ha⟩

/-- A successful comparison of formed types only binds variables. -/
theorem Equates.acyclic (h : Equates s ps s') (hs : s.subst.Acyclic B) (hps : AllFormed B ps) :
    s'.subst.Acyclic B ∧ s.subst.ExtendedBy s'.subst := by
  induction h with
  | nil => exact ⟨hs, .refl _⟩
  | same => exact ⟨hs, .refl _⟩
  | cons _ _ ih₁ ih₂ =>
      obtain ⟨hs₁, hext₁⟩ := ih₁ hs hps.head
      obtain ⟨hs₂, hext₂⟩ := ih₂ hs₁ hps.tail
      exact ⟨hs₂, hext₁.trans hext₂⟩
  | bind hm hvt =>
      obtain ⟨ha, hb⟩ := hps.pair
      obtain ⟨ht, hv, hfree⟩ := hm.formed hs ha hb
      exact ⟨hs.bind ht hfree hvt, Substitution.extendedBy_bind hv⟩
  | @rigid s a b s₁ _ _ _ _ ih =>
      obtain ⟨ha, hb⟩ := hps.pair
      exact ih hs (parts_formed (head_formed hs ha) (head_formed hs hb))
  | all ha' hb' _ _ _ _ ih =>
      obtain ⟨ha, hb⟩ := hps.pair
      exact ih hs (bodyPairs_formed (ha' ▸ head_formed hs ha) (hb' ▸ head_formed hs hb))

theorem Equates.kinds (h : Equates s ps s') : s'.kinds = s.kinds := by
  induction h with
  | nil | same | bind => rfl
  | cons _ _ ih₁ ih₂ => exact ih₂.trans ih₁
  | rigid _ _ _ _ ih => exact ih
  | all _ _ _ _ _ _ ih => exact ih

theorem Equates.plain (h : Equates s ps s') (hplain : s.Plain) : s'.Plain := by
  intro v
  change s'.kinds.kindOf v = _
  rw [h.kinds]
  exact hplain v

section Heads

variable (eq : Equate)

theorem joinVars_plain (hplain : s.Plain) :
    (joinVars eq v w r).run s = (.ok (), s.assign v (.var w r)) := by
  rw [joinVars_run, hplain v, hplain w]
  rfl

theorem bindVar_plain (hplain : s.Plain) (ht : ∀ w r, t ≠ .var w r) :
    (bindVar eq v t).run s =
      if v ∈ t.freeVars then (.error (.occurs v t), s) else (.ok (), s.assign v t) := by
  have hbind : bindVar eq v t = (if t.mentions v then throw (.occurs v t)
      else do assign v t; satisfy eq (← kindOf v) t) := by
    cases t with
    | var w r => exact absurd rfl (ht w r)
    | _ => rfl
  rw [hbind]
  by_cases hv : v ∈ t.freeVars
  · rw [if_pos hv, if_pos (Ty.mentions_eq_true.2 hv)]
    rfl
  · rw [if_neg hv, if_neg fun h => hv (Ty.mentions_eq_true.1 h)]
    change (satisfy eq (s.kindOf v) t).run (s.assign v t) = _
    rw [hplain v]
    rfl

theorem heads_var (ht : ∀ w r, t ≠ .var w r) : heads eq (.var v r) t = bindVar eq v t := by
  cases t with
  | var w r => exact absurd rfl (ht w r)
  | _ => rfl

theorem heads_of_var (ht : ∀ w r, t ≠ .var w r) : heads eq t (.var v r) = bindVar eq v t := by
  cases t with
  | var w r => exact absurd rfl (ht w r)
  | _ => rfl

theorem heads_rigid_all (ht : IsRigid t) : heads eq t (.all w l u r) = throw .mismatch := by
  cases t <;> first | exact ht.elim | rfl

theorem heads_all_rigid (hu : IsRigid u) : heads eq (.all v k t r) u = throw .mismatch := by
  cases u <;> first | exact hu.elim | rfl

end Heads

theorem ne_var_of_isRigid_or_all (ht : IsRigid t ∨ ∃ v k u r, t = .all v k u r) (w : TypeVar)
    (r : Range) : t ≠ .var w r := by
  rintro rfl
  rcases ht with ht | ⟨v, k, u, r, ht⟩
  · exact ht
  · cases ht

theorem yields_escapes {outer : List TypeVar} (h : Yields (escapes outer v) s none s') :
    s' = s ∧ s.subst.find? v = none ∧ ∀ x ∈ outer, reaches s x v = false := by
  replace h := yields_get h
  split at h
  · exact absurd (yields_throw h).1 (by simp)
  · next hnot =>
      simp only [Bool.or_eq_true, not_or, List.any_eq_true, not_exists, not_and,
        Bool.not_eq_true, Option.isSome_eq_false_iff, Option.isNone_iff_eq_none] at hnot
      exact ⟨(yields_pure h).2, hnot⟩

/-- If comparing two formed types with success follows the rules, so does comparing some pairs of
them. -/
theorem equatePairs_equates {eq : Equate} {e : Option Reason}
    (heq : ∀ a b s s', s.Plain → s.subst.Acyclic B → a.Formed B → b.Formed B →
      Yields (eq a b) s none s' → Equates s [(a, b)] s')
    (hplain : s.Plain) (hs : s.subst.Acyclic B) (hps : AllFormed B ps)
    (h : Yields (equatePairs eq ps e) s none s') : e = none ∧ Equates s ps s' := by
  induction ps generalizing s with
  | nil =>
      cases e with
      | none =>
          obtain ⟨-, rfl⟩ := yields_pure h
          exact ⟨rfl, .nil _⟩
      | some e => exact absurd (yields_throw h).1 (by simp)
  | cons p ps ih =>
      have hstep : equatePairs eq (p :: ps) e =
          (eq p.1 p.2 >>= fun _ => equatePairs eq ps e) := by simp [equatePairs]
      rw [hstep] at h
      rcases yields_bind h with ⟨e', he', -⟩ | ⟨s₁, hfirst, hrest⟩
      · exact absurd he' (by simp)
      · obtain ⟨hp₁, hp₂⟩ := hps p List.mem_cons_self
        have hrun := heq _ _ _ _ hplain hs hp₁ hp₂ hfirst
        obtain ⟨he, hrest⟩ := ih (hrun.plain hplain) (hrun.acyclic hs hps.head).1 hps.tail hrest
        exact ⟨he, .cons hrun hrest⟩

/-- A comparison of formed types that succeeds follows the rules. -/
theorem equate_equates (n : Nat) (a b : Ty) (s s' : Solver) (hplain : s.Plain)
    (hs : s.subst.Acyclic B) (ha : a.Formed B) (hb : b.Formed B)
    (h : Yields (equate n a b) s none s') : Equates s [(a, b)] s' := by
  induction n generalizing a b s s' with
  | zero => exact absurd (yields_throw h).1 (by simp)
  | succ n ih =>
      change Yields (heads (equate n) (s.head a) (s.head b)) (s.log (s.head a) (s.head b)) none s'
        at h
      have hplain' : (s.log (s.head a) (s.head b)).Plain := hplain
      have hbind : ∀ v t, Meet s a b v t → (∀ w r, t ≠ .var w r) →
          Yields (bindVar (equate n) v t) (s.log (s.head a) (s.head b)) none s' →
          Equates s [(a, b)] s' := by
        intro v t hm ht h
        rw [Yields, bindVar_plain _ hplain' ht] at h
        split at h
        · exact absurd h.1 (by simp [failure])
        · next hvt => exact h.2 ▸ .bind hm hvt
      have hfa := head_formed hs ha
      have hfb := head_formed hs hb
      rcases hfa.cases_head with ⟨v, r, hv⟩ | hra <;>
        rcases hfb.cases_head with ⟨w, r', hw⟩ | hrb
      · have hheads : heads (equate n) (s.head a) (s.head b) =
            if v = w then pure () else joinVars (equate n) v w r' := by
          rw [hv, hw, heads_var_var]
        rw [hheads] at h
        by_cases hvw : v = w
        · subst hvw
          rw [if_pos rfl] at h
          obtain ⟨-, rfl⟩ := yields_pure h
          exact .same hv hw
        · rw [if_neg hvw, Yields, joinVars_plain _ hplain'] at h
          refine h.2 ▸ .bind ⟨r, Or.inl ⟨hv, hw⟩⟩ fun hmem => hvw ?_
          exact Ty.mem_freeVars_var.1 hmem
      · have hnot := ne_var_of_isRigid_or_all hrb
        have hheads := heads_var (equate n) (v := v) (r := r) hnot
        rw [← hv] at hheads
        exact hbind v _ ⟨r, Or.inl ⟨hv, rfl⟩⟩ hnot (hheads ▸ h)
      · have hnot := ne_var_of_isRigid_or_all hra
        have hheads := heads_of_var (equate n) (v := w) (r := r') hnot
        rw [← hw] at hheads
        exact hbind w _ ⟨r', Or.inr ⟨hw, rfl⟩⟩ hnot (hheads ▸ h)
      · rcases hra with hra | ⟨v, k, t, r, ha'⟩ <;> rcases hrb with hrb | ⟨w, l, u, r', hb'⟩
        · have hheads := heads_of_isRigid (equate n) hra hrb
          obtain ⟨he, hrun⟩ := equatePairs_equates ih hplain' hs
            (parts_formed hfa hfb) (hheads ▸ h)
          exact .rigid hra hrb he hrun
        · rw [hb', heads_rigid_all _ hra] at h
          exact absurd (yields_throw h).1 (by simp)
        · rw [ha', heads_all_rigid _ hrb] at h
          exact absurd (yields_throw h).1 (by simp)
        · have hheads : heads (equate n) (s.head a) (s.head b) =
              quantified (equate n) ((s.head a).freeVars ++ (s.head b).freeVars) v k t w l u := by
            rw [ha', hb']
            rfl
          rw [hheads, quantified_eq] at h
          rcases yields_bind h with ⟨e, he, -⟩ | ⟨s₁, hpairs, hescapes⟩
          · exact absurd he (by simp)
          · obtain ⟨rfl, hfind, houter⟩ := yields_escapes hescapes
            obtain ⟨he, hrun⟩ := equatePairs_equates ih hplain' hs
              (bodyPairs_formed (ha' ▸ hfa) (hb' ▸ hfb)) hpairs
            exact .all ha' hb' he hrun hfind houter

end Unify

end FieldML
