import FieldML.Proofs.Layout.Ty
import FieldML.Proofs.Unify.Rules

/-!
# Unification does not look at ranges

Every rule of unification does the same when the types of the problem and those that the solver holds
have no ranges: it fails for the same reason or leads to the same state, both without ranges.
-/

namespace FieldML

/-- The reason without the ranges of its types. -/
def Reason.erase : Reason → Reason
  | .occurs v t => .occurs v t.erase
  | reason => reason

theorem Ty.get?_eraseFields (fs : List (String × Ty)) (name : String) :
    Fields.get? (eraseFields fs) name = (Fields.get? fs name).map erase := by
  rw [eraseFields_eq_map, Fields.get?_map]

theorem Ty.names_eraseFields (fs : List (String × Ty)) :
    Fields.names (eraseFields fs) = Fields.names fs := by
  rw [eraseFields_eq_map, Fields.names_map]

theorem Ty.insert_eraseFields (fs : List (String × Ty)) (name : String) (t : Ty) :
    Fields.insert name t.erase (eraseFields fs) = eraseFields (Fields.insert name t fs) := by
  rw [eraseFields_eq_map, eraseFields_eq_map, Fields.insert_map]

theorem Ty.any_eraseFields (fs : List (String × Ty)) (name : String) :
    (eraseFields fs).any (·.1 = name) = fs.any (·.1 = name) := by
  rw [eraseFields_eq_map, List.any_map]
  rfl

theorem Ty.length_eraseList (ts : List Ty) : (eraseList ts).length = ts.length := by
  rw [eraseList_eq_map, List.length_map]

namespace Unify

variable {α β : Type} {v : α → α} {w : β → β} {p q : Unify α}

/-- On a solver without ranges `q` does what `p` does on the solver itself, and `v` erases the
outcome. -/
def Blind (v : α → α) (p q : Unify α) : Prop :=
  ∀ s s' : Solver, s.Erased s' →
    (q.run s').1 = ((p.run s).1.map v).mapError Reason.erase ∧ (p.run s).2.Erased (q.run s').2

theorem Blind.bind {f g : α → Unify β} (hp : Blind v p q) (hf : ∀ a, Blind w (f a) (g (v a))) :
    Blind w (p >>= f) (q >>= g) := by
  intro s s' hs
  obtain ⟨hresult, hstate⟩ := hp s s' hs
  rw [run_bind, run_bind]
  rcases hfirst : p.run s with ⟨e | a, s₁⟩ <;> rcases hsecond : q.run s' with ⟨r, s₁'⟩ <;>
    rw [hfirst, hsecond] at hresult hstate
  · obtain rfl : r = .error e.erase := hresult
    exact ⟨rfl, hstate⟩
  · obtain rfl : r = .ok (v a) := hresult
    exact hf a s₁ s₁' hstate

theorem Blind.trans_eq {q' : Unify α} (h : Blind v p q) (heq : q = q') : Blind v p q' := heq ▸ h

theorem Blind.pure {a b : α} (h : v a = b) : Blind v (Pure.pure a) (Pure.pure b) := by
  subst h
  exact fun _ _ hs => ⟨rfl, hs⟩

theorem Blind.ite {c : Prop} [Decidable c] {p' q' : Unify α} (hp : Blind v p q)
    (hp' : Blind v p' q') : Blind v (if c then p else p') (if c then q else q') := by
  split
  · exact hp
  · exact hp'

theorem blind_throw (e : Reason) : Blind v (throw e) (throw e.erase) := fun _ _ hs => ⟨rfl, hs⟩

theorem blind_get_bind {f g : Solver → Unify α}
    (h : ∀ s s' : Solver, s.Erased s' → Blind v (f s) (g s')) : Blind v (get >>= f) (get >>= g) :=
  fun s s' hs => h s s' hs s s' hs

theorem blind_assign (x : TypeVar) (t : Ty) : Blind id (assign x t) (assign x t.erase) :=
  fun _ _ hs => ⟨rfl, hs.subst.bind x t, hs.kinds⟩

theorem blind_refine (x : TypeVar) (k : Kind) : Blind id (refine x k) (refine x k.erase) :=
  fun _ _ hs => ⟨rfl, hs.subst, hs.kinds.refine x k⟩

theorem blind_kindOf (x : TypeVar) : Blind Kind.erase (kindOf x) (kindOf x) :=
  blind_get_bind fun _ _ hs => .pure (hs.kinds.kindOf x).symm

/-- The parts of types are made equal without looking at ranges. -/
abbrev BlindEquate (eq : Equate) : Prop := ∀ t u, Blind id (eq t u) (eq t.erase u.erase)

variable {eq : Equate}

theorem blind_equateAll (heq : BlindEquate eq) (ts us : List Ty) :
    Blind id (equateAll eq ts us) (equateAll eq (Ty.eraseList ts) (Ty.eraseList us)) := by
  induction ts generalizing us with
  | nil => exact .pure rfl
  | cons t ts ih =>
      cases us with
      | nil => exact .pure rfl
      | cons u us => exact (heq t u).bind fun _ => ih us

theorem blind_components (heq : BlindEquate eq) (ts us : List Ty) :
    Blind id (components eq ts us) (components eq (Ty.eraseList ts) (Ty.eraseList us)) := by
  unfold components
  rw [Ty.length_eraseList, Ty.length_eraseList]
  exact .ite (blind_equateAll heq ts us) (blind_throw _)

theorem blind_fieldwise (heq : BlindEquate eq) (fs gs : List (String × Ty)) :
    Blind id (fieldwise eq fs gs) (fieldwise eq (Ty.eraseFields fs) (Ty.eraseFields gs)) := by
  induction fs with
  | nil => exact .pure rfl
  | cons p fs ih =>
      obtain ⟨name, t⟩ := p
      refine Blind.bind (v := id) ?_ fun _ => ih
      dsimp only
      rw [Ty.get?_eraseFields]
      cases Fields.get? gs name with
      | some u => exact heq t u
      | none => exact blind_throw _

theorem blind_recordFields (heq : BlindEquate eq) (fs gs : List (String × Ty)) :
    Blind id (recordFields eq fs gs)
      (recordFields eq (Ty.eraseFields fs) (Ty.eraseFields gs)) := by
  unfold recordFields
  simp only [Ty.names_eraseFields, Ty.get?_eraseFields, Option.isNone_map]
  cases (Fields.names fs).find? (fun n => (Fields.get? gs n).isNone) with
  | some missing => exact blind_throw _
  | none =>
      cases (Fields.names gs).find? (fun n => (Fields.get? fs n).isNone) with
      | some extra => exact blind_throw _
      | none => exact blind_fieldwise heq fs gs

theorem blind_mergeFields (heq : BlindEquate eq) (fs gs merged : List (String × Ty)) :
    let step (fs : List (String × Ty)) (merged : List (String × Ty)) (p : String × Ty) :
        Unify (List (String × Ty)) :=
      match Fields.get? fs p.1 with
      | some t => do
          eq t p.2
          return merged
      | none => return Fields.insert p.1 p.2 merged
    Blind Ty.eraseFields (gs.foldlM (step fs) merged)
      ((Ty.eraseFields gs).foldlM (step (Ty.eraseFields fs)) (Ty.eraseFields merged)) := by
  intro step
  induction gs generalizing merged with
  | nil => exact .pure rfl
  | cons p gs ih =>
      obtain ⟨name, u⟩ := p
      rw [Ty.eraseFields, List.foldlM_cons, List.foldlM_cons]
      refine Blind.bind (v := Ty.eraseFields) ?_ ih
      change Blind _ (match Fields.get? fs name with | some t => _ | none => _)
        (match Fields.get? (Ty.eraseFields fs) name with | some t => _ | none => _)
      rw [Ty.get?_eraseFields]
      cases Fields.get? fs name with
      | some t => exact (heq t u).bind fun _ => .pure rfl
      | none => exact .pure (Ty.insert_eraseFields merged name u).symm

theorem blind_mergeKinds (heq : BlindEquate eq) (k l : Kind) :
    Blind Kind.erase (mergeKinds eq k l) (mergeKinds eq k.erase l.erase) := by
  cases k with
  | universal => exact .pure rfl
  | record fs =>
      cases l with
      | universal => exact .pure rfl
      | record gs => exact (blind_mergeFields heq fs gs fs).bind fun _ => .pure rfl

theorem blind_satisfy (heq : BlindEquate eq) (k : Kind) (t : Ty) :
    Blind id (satisfy eq k t) (satisfy eq k.erase t.erase) := by
  cases k with
  | universal => exact .pure rfl
  | record required =>
      have refused : Blind (id : Unit → Unit) (throw (.notARecord (Fields.names required)))
          (throw (.notARecord (Fields.names (Ty.eraseFields required)))) := by
        rw [Ty.names_eraseFields]
        exact blind_throw _
      refine blind_get_bind fun s s' hs => ?_
      rw [← hs.subst.apply, ← Ty.erase_expand]
      cases (s.subst.apply t).expand with
      | record fs _ => exact blind_fieldwise heq required fs
      | var v _ =>
          refine (blind_kindOf v).bind fun k => ?_
          exact (blind_mergeKinds heq (.record required) k).bind fun merged => blind_refine v merged
      | _ => exact refused

theorem blind_joinVars (heq : BlindEquate eq) (v w : TypeVar) (r : Range) :
    Blind id (joinVars eq v w r) (joinVars eq v w .erased) := by
  refine (blind_kindOf v).bind fun k => (blind_kindOf w).bind fun l => ?_
  refine (blind_mergeKinds heq k l).bind fun merged => ?_
  refine (blind_assign v (.var w r)).bind fun _ => blind_get_bind fun s s' hs => ?_
  rw [← hs.subst.applyKind]
  cases s.subst.applyKind merged with
  | universal => exact .pure rfl
  | record fs =>
      change Blind id (if (Ty.record fs r).mentions w then _ else _)
        (if (Ty.record fs r).erase.mentions w then _ else _)
      rw [Ty.mentions_erase]
      exact .ite (blind_throw _) (blind_refine w merged)

theorem blind_bindVar (heq : BlindEquate eq) (v : TypeVar) (t : Ty) :
    Blind id (bindVar eq v t) (bindVar eq v t.erase) := by
  have bind_other (t : Ty) :
      Blind id (if t.mentions v then throw (.occurs v t) else do assign v t; satisfy eq (← kindOf v) t)
        (if t.erase.mentions v then throw (.occurs v t.erase)
          else do assign v t.erase; satisfy eq (← kindOf v) t.erase) := by
    rw [Ty.mentions_erase]
    refine .ite (blind_throw _) ((blind_assign v t).bind fun _ => ?_)
    exact (blind_kindOf v).bind fun k => blind_satisfy heq k t
  cases t with
  | var w r => exact blind_joinVars heq v w r
  | _ => exact bind_other _

theorem blind_sameKind (heq : BlindEquate eq) (k l : Kind) :
    Blind id (sameKind eq k l) (sameKind eq k.erase l.erase) := by
  cases k with
  | universal =>
      cases l with
      | universal => exact .pure rfl
      | record gs => exact blind_throw _
  | record fs =>
      cases l with
      | universal => exact blind_throw _
      | record gs =>
          rw [Kind.erase, Kind.erase, sameKind, sameKind, Ty.names_eraseFields, Ty.names_eraseFields]
          exact .ite (blind_fieldwise heq fs gs) (blind_throw _)

theorem reaches_erased {s s' : Solver} (hs : s.Erased s') (v w : TypeVar) :
    reaches s' v w = reaches s v w := by
  rw [reaches, reaches, hs.kinds.kindOf, ← hs.subst.applyKind, Kind.freeVars_erase,
    ← Ty.mentions_erase (s.subst.apply _), hs.subst.apply]
  rfl

theorem blind_quantified (heq : BlindEquate eq) (outer : List TypeVar) (v : TypeVar) (k : Kind)
    (t : Ty) (w : TypeVar) (l : Kind) (u : Ty) :
    Blind id (quantified eq outer v k t w l u)
      (quantified eq outer v k.erase t.erase w l.erase u.erase) := by
  have hkind := blind_sameKind heq k (l.substitute w (.var v .erased))
  have hbody := heq t (u.substitute w (.var v .erased))
  rw [Kind.erase_substitute] at hkind
  rw [Ty.erase_substitute] at hbody
  refine hkind.bind fun _ => hbody.bind fun _ => blind_get_bind fun s s' hs => ?_
  rw [hs.subst v, Option.isSome_map, funext fun x => reaches_erased hs x v]
  exact .ite (blind_throw _) (.pure rfl)

theorem blind_heads (heq : BlindEquate eq) (t u : Ty) :
    Blind id (heads eq t u) (heads eq t.erase u.erase) := by
  cases t with
  | var v _ =>
      cases u with
      | var w r => exact .ite (.pure rfl) (blind_bindVar heq v (.var w r))
      | _ => exact blind_bindVar heq v _
  | base b _ =>
      cases u with
      | var w _ => exact blind_bindVar heq w _
      | base c _ => exact .ite (.pure rfl) (blind_throw _)
      | _ => exact blind_throw _
  | func p q _ =>
      cases u with
      | var w _ => exact blind_bindVar heq w _
      | func p' q' _ => exact (heq p p').bind fun _ => heq q q'
      | _ => exact blind_throw _
  | list t _ =>
      cases u with
      | var w _ => exact blind_bindVar heq w _
      | list u _ => exact heq t u
      | _ => exact blind_throw _
  | ref t _ =>
      cases u with
      | var w _ => exact blind_bindVar heq w _
      | ref u _ => exact heq t u
      | _ => exact blind_throw _
  | product ts _ =>
      cases u with
      | var w _ => exact blind_bindVar heq w _
      | product us _ => exact blind_components heq ts us
      | _ => exact blind_throw _
  | variant n ts _ =>
      cases u with
      | var w _ => exact blind_bindVar heq w _
      | variant m us _ => exact .ite (blind_components heq ts us) (blind_throw _)
      | _ => exact blind_throw _
  | record fs _ =>
      cases u with
      | var w _ => exact blind_bindVar heq w _
      | record gs _ => exact blind_recordFields heq fs gs
      | _ => exact blind_throw _
  | all v k a r =>
      cases u with
      | var w _ => exact blind_bindVar heq w _
      | all w l b r' =>
          have hvars := congrArg₂ (· ++ ·) (Ty.freeVars_erase (.all v k a r))
            (Ty.freeVars_erase (.all w l b r'))
          refine .trans_eq (blind_quantified heq _ v k a w l b) ?_
          exact congrArg (quantified eq · v k.erase a.erase w l.erase b.erase) hvars.symm
      | _ => exact blind_throw _
  | «synonym» _ _ _ _ =>
      cases u with
      | var w _ => exact blind_bindVar heq w _
      | _ => exact blind_throw _

theorem blind_step (heq : BlindEquate eq) : BlindEquate (step eq) := by
  intro t u s s' hs
  have h := blind_heads heq (s.subst.apply t).expand (s.subst.apply u).expand
  simp only [Ty.erase_expand, hs.subst.apply] at h
  exact h _ _ ⟨hs.subst, hs.kinds⟩

theorem blind_equate (n : Nat) : BlindEquate (equate n) := by
  induction n with
  | zero => exact fun _ _ => blind_throw _
  | succ n ih => exact blind_step ih

end Unify

/-- The contradiction without the ranges of its types. -/
def Contradiction.erase (c : Contradiction) : Contradiction :=
  ⟨c.reason.erase, c.expected.erase, c.found.erase, c.kinds.map fun p => (p.1, p.2.erase)⟩

namespace Solver.Erased

variable {s s' : Solver}

theorem recordKindsOf (h : s.Erased s') (ts : List Ty) :
    s'.recordKindsOf (ts.map Ty.erase) =
      (s.recordKindsOf ts).map fun p => (p.1, p.2.erase) := by
  have hvars : (ts.map Ty.erase).flatMap Ty.freeVars = ts.flatMap Ty.freeVars := by
    rw [List.flatMap_map]
    exact congrArg (List.flatMap · ts) (funext Ty.freeVars_erase)
  rw [Solver.recordKindsOf, Solver.recordKindsOf, hvars, List.map_filterMap]
  refine List.filterMap_congr fun v _ => ?_
  rw [h.kinds.kindOf, ← h.subst.applyKind]
  cases s.subst.applyKind (s.kinds.kindOf v) <;> rfl

theorem contradiction (h : s.Erased s') (reason : Reason) (t u : Ty) :
    s'.contradiction reason.erase t.erase u.erase = (s.contradiction reason t u).erase := by
  rw [Solver.contradiction, Solver.contradiction, ← h.subst.apply, ← h.subst.apply]
  exact congrArg _ (h.recordKindsOf [s.subst.apply t, s.subst.apply u])

theorem fuel (h : s.Erased s') (n : Nat) : s'.fuel n = s.fuel n := by
  rw [Solver.fuel, Solver.fuel, h.subst.weight, h.kinds.weight]

/-- Unification makes the same types equal and reports the same contradictions without ranges. -/
theorem unify (h : s.Erased s') (t u : Ty) :
    (s'.unify t.erase u.erase).1 = (s.unify t u).1.mapError Contradiction.erase ∧
      (s.unify t u).2.Erased (s'.unify t.erase u.erase).2 := by
  obtain ⟨hresult, hstate⟩ := Unify.blind_equate (s.fuel (t.size + u.size)) t u
    { s with compared := [] } { s' with compared := [] } ⟨h.subst, h.kinds⟩
  rw [Solver.unify, Solver.unify, h.fuel, Ty.size_erase, Ty.size_erase]
  rcases hfirst : (Unify.equate (s.fuel (t.size + u.size)) t u).run { s with compared := [] } with
    ⟨e | ⟨⟩, s₁⟩ <;>
  rcases hsecond : (Unify.equate (s.fuel (t.size + u.size)) t.erase u.erase).run
    { s' with compared := [] } with ⟨r, s₁'⟩ <;> rw [hfirst, hsecond] at hresult hstate
  · obtain rfl : r = .error e.erase := hresult
    exact ⟨congrArg Except.error (h.contradiction e t u), h.subst, h.kinds⟩
  · obtain rfl : r = .ok () := hresult
    exact ⟨rfl, hstate⟩

end Solver.Erased

end FieldML
