import FieldML.Proofs.Fields
import FieldML.Proofs.Place.Syntax
import FieldML.VariantEnv
import FieldML.Unify

/-!
# Where types are from

The ranges of types come from the text or are labels. Replacing variables puts in the ranges of the
types that take their place, and no others.
-/

namespace FieldML

mutual

/-- A property of all ranges in a type. -/
def Ty.All (R : Range → Prop) : Ty → Prop
  | .base _ r | .var _ r => R r
  | .func p q r => p.All R ∧ q.All R ∧ R r
  | .list t r | .ref t r => t.All R ∧ R r
  | .product ts r | .variant _ ts r => Ty.AllList R ts ∧ R r
  | .synonym _ ts t r => Ty.AllList R ts ∧ t.All R ∧ R r
  | .all _ k t r => k.All R ∧ t.All R ∧ R r
  | .record fs r => Ty.AllFields R fs ∧ R r

def Kind.All (R : Range → Prop) : Kind → Prop
  | .universal => True
  | .record fs => Ty.AllFields R fs

def Ty.AllList (R : Range → Prop) : List Ty → Prop
  | [] => True
  | t :: ts => t.All R ∧ Ty.AllList R ts

def Ty.AllFields (R : Range → Prop) : List (String × Ty) → Prop
  | [] => True
  | (_, t) :: fs => t.All R ∧ Ty.AllFields R fs

end

theorem Ty.All.expand {R : Range → Prop} : {t : Ty} → t.All R → t.expand.All R
  | .synonym _ _ body _, h => Ty.All.expand (t := body) h.2.1
  | .base _ _, h | .var _ _, h | .func _ _ _, h | .list _ _, h | .ref _ _, h | .product _ _, h
  | .variant _ _ _, h | .all _ _ _ _, h | .record _ _, h => h

variable {R : Range → Prop} {t u : Ty} {k : Kind} {ts : List Ty} {fs : List (String × Ty)}
  {r : Range} {v : TypeVar} {f : Replacement}

theorem Ty.allList_iff : Ty.AllList R ts ↔ ∀ t ∈ ts, t.All R := by
  induction ts with
  | nil => simp [Ty.AllList]
  | cons t ts ih => rw [Ty.AllList, ih, List.forall_mem_cons]

theorem Ty.allFields_iff : Ty.AllFields R fs ↔ ∀ p ∈ fs, p.2.All R := by
  induction fs with
  | nil => simp [Ty.AllFields]
  | cons p fs ih => rw [Ty.AllFields, ih, List.forall_mem_cons]

theorem Ty.AllFields.get? {name : String} (h : Ty.AllFields R fs)
    (ht : Fields.get? fs name = some t) : t.All R :=
  Ty.allFields_iff.1 h _ (Fields.mem_of_get? ht)

theorem Ty.AllFields.insert (h : Ty.AllFields R fs) (ht : t.All R) (name : String) :
    Ty.AllFields R (Fields.insert name t fs) := by
  rw [Ty.allFields_iff] at h ⊢
  exact Fields.forall_mem_insert ht h

theorem Ty.All.range (h : t.All R) : R t.range := by
  cases t with
  | base | var => exact h
  | list | ref | product | variant | record => exact h.2
  | func | synonym | all => exact h.2.2

theorem Ty.All.withRange (h : t.All R) (hr : R r) : (t.withRange r).All R := by
  cases t with
  | base | var => exact hr
  | list | ref | product | variant | record => exact ⟨h.1, hr⟩
  | func | synonym | all => exact ⟨h.1, h.2.1, hr⟩

/-- The types that take the place of variables have good ranges where the variables do. -/
def Replacement.All (R : Range → Prop) (f : Replacement) : Prop :=
  ∀ bound v r, R r → (f bound v r).All R

mutual

theorem Ty.All.mapVars {t : Ty} (h : t.All R) (hf : f.All R) (bound : List TypeVar) :
    (t.mapVars f bound).All R := by
  match t with
  | .base _ _ => exact h
  | .var v r => exact hf bound v r h
  | .func _ _ _ => exact ⟨h.1.mapVars hf bound, h.2.1.mapVars hf bound, h.2.2⟩
  | .list _ _ | .ref _ _ => exact ⟨h.1.mapVars hf bound, h.2⟩
  | .product _ _ | .variant _ _ _ => exact ⟨Ty.AllList.mapVars h.1 hf bound, h.2⟩
  | .synonym _ _ _ _ =>
      exact ⟨Ty.AllList.mapVars h.1 hf bound, h.2.1.mapVars hf bound, h.2.2⟩
  | .all v _ _ _ => exact ⟨h.1.mapVars hf (v :: bound), h.2.1.mapVars hf (v :: bound), h.2.2⟩
  | .record _ _ => exact ⟨Ty.AllFields.mapVars h.1 hf bound, h.2⟩

theorem Kind.All.mapVars {k : Kind} (h : k.All R) (hf : f.All R) (bound : List TypeVar) :
    (k.mapVars f bound).All R := by
  match k with
  | .universal => trivial
  | .record fs => exact Ty.AllFields.mapVars h hf bound

theorem Ty.AllList.mapVars {ts : List Ty} (h : Ty.AllList R ts) (hf : f.All R)
    (bound : List TypeVar) : Ty.AllList R (Ty.mapVarsList f bound ts) := by
  match ts with
  | [] => trivial
  | _ :: _ => exact ⟨h.1.mapVars hf bound, Ty.AllList.mapVars h.2 hf bound⟩

theorem Ty.AllFields.mapVars {fs : List (String × Ty)} (h : Ty.AllFields R fs) (hf : f.All R)
    (bound : List TypeVar) : Ty.AllFields R (Ty.mapVarsFields f bound fs) := by
  match fs with
  | [] => trivial
  | (_, _) :: _ => exact ⟨h.1.mapVars hf bound, Ty.AllFields.mapVars h.2 hf bound⟩

end

theorem Replacement.All.single (hu : u.All R) : (Replacement.single v u).All R := by
  intro bound w r hr
  unfold Replacement.single
  split
  · exact hu
  · exact hr

theorem Ty.All.substitute (h : t.All R) (hu : u.All R) : (t.substitute v u).All R :=
  h.mapVars (.single hu) []

theorem Kind.All.substitute (h : k.All R) (hu : u.All R) : (k.substitute v u).All R :=
  h.mapVars (.single hu) []

theorem Ty.All.instantiateParams {params : List TypeVar} {args : List Ty} (h : t.All R)
    (hargs : ∀ u ∈ args, u.All R) : (t.instantiateParams params args).All R := by
  unfold Ty.instantiateParams
  induction params generalizing args t with
  | nil => exact h
  | cons param params ih =>
      cases args with
      | nil => exact h
      | cons arg args =>
          obtain ⟨harg, hargs⟩ := List.forall_mem_cons.1 hargs
          exact ih (h.substitute harg) hargs

/-! ### Solvers -/

/-- All types and kinds that a solver knows have good ranges. -/
structure Solver.All (R : Range → Prop) (s : Solver) : Prop where
  binding : ∀ v t, s.subst.find? v = some t → t.All R
  kind : ∀ v, (s.kinds.kindOf v).All R

theorem Replacement.All.follow {s : Substitution} (hs : ∀ v t, s.find? v = some t → t.All R)
    (n : Nat) : (s.follow n).All R := by
  induction n with
  | zero => exact fun _ _ _ hr => hr
  | succ n ih =>
      intro bound v r hr
      rw [Substitution.follow]
      split
      · exact hr
      · split
        · next t ht => exact (hs v t ht).mapVars ih bound
        · exact hr

namespace Solver

variable {s : Solver}

theorem All.apply (hs : s.All R) (ht : t.All R) : (s.subst.apply t).All R :=
  ht.mapVars (.follow hs.binding _) []

theorem All.applyKind (hs : s.All R) (hk : k.All R) : (s.subst.applyKind k).All R :=
  hk.mapVars (.follow hs.binding _) []

theorem All.forget (hs : s.All R) (compared : List (Ty × Ty)) :
    Solver.All R { s with compared := compared } := ⟨hs.binding, hs.kind⟩

theorem All.bind (hs : s.All R) (ht : t.All R) (v : TypeVar) :
    Solver.All R { s with subst := s.subst.bind v t } := by
  refine ⟨fun w u hu => ?_, hs.kind⟩
  rw [Substitution.find?_bind] at hu
  split at hu
  · exact Option.some.inj hu ▸ ht
  · exact hs.binding w u hu

theorem All.refine (hs : s.All R) (hk : k.All R) (v : TypeVar) :
    Solver.All R { s with kinds := s.kinds.refine v k } := by
  refine ⟨hs.binding, fun w => ?_⟩
  rw [KindEnv.kindOf_refine]
  split
  · exact hk
  · exact hs.kind w

end Solver

end FieldML
