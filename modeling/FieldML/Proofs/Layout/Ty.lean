import FieldML.Proofs.Simple
import FieldML.Ty.Erase
import FieldML.Unify

/-!
# Types and substitutions without their ranges

Replacing variables, finding the free ones and counting nodes do not look at ranges. So a solver whose
types have no ranges knows the same about all variables.
-/

namespace FieldML

variable {f g : Replacement} {bound : List TypeVar} {v : TypeVar} {r : Range} {t : Ty}

namespace Ty

@[simp] theorem eraseList_eq_map (ts : List Ty) : eraseList ts = ts.map erase := by
  induction ts with
  | nil => rfl
  | cons t ts ih => simp [eraseList, ih]

@[simp] theorem eraseFields_eq_map (fs : List (String × Ty)) :
    eraseFields fs = fs.map fun p => (p.1, p.2.erase) := by
  induction fs with
  | nil => rfl
  | cons p fs ih => simp [eraseFields, ih]

@[simp] theorem range_erase (t : Ty) : t.erase.range = .erased := by cases t <;> rfl

theorem erase_withRange (r : Range) (t : Ty) : (t.withRange r).erase = t.erase := by cases t <;> rfl

theorem withRange_erase (t : Ty) : t.erase.withRange .erased = t.erase := by cases t <;> rfl

theorem erase_expand (t : Ty) : t.expand.erase = t.erase.expand := by
  match t with
  | synonym _ _ body _ => exact erase_expand body
  | base _ _ | var _ _ | func _ _ _ | list _ _ | ref _ _ | product _ _ | variant _ _ _
  | all _ _ _ _ | record _ _ => rfl

end Ty

mutual

@[simp] theorem Ty.erase_erase (t : Ty) : t.erase.erase = t.erase := by
  match t with
  | .base _ _ | .var _ _ => rfl
  | .func p q _ => simp only [Ty.erase, p.erase_erase, q.erase_erase]
  | .list t _ | .ref t _ => simp only [Ty.erase, t.erase_erase]
  | .product ts _ | .variant _ ts _ => simp only [Ty.erase, Ty.eraseList_eraseList ts]
  | .synonym _ ts t _ => simp only [Ty.erase, Ty.eraseList_eraseList ts, t.erase_erase]
  | .all _ k t _ => simp only [Ty.erase, k.erase_erase, t.erase_erase]
  | .record fs _ => simp only [Ty.erase, Ty.eraseFields_eraseFields fs]

theorem Kind.erase_erase (k : Kind) : k.erase.erase = k.erase := by
  match k with
  | .universal => rfl
  | .record fs => simp only [Kind.erase, Ty.eraseFields_eraseFields fs]

theorem Ty.eraseList_eraseList (ts : List Ty) :
    Ty.eraseList (Ty.eraseList ts) = Ty.eraseList ts := by
  match ts with
  | [] => rfl
  | t :: ts => rw [Ty.eraseList, Ty.eraseList, t.erase_erase, Ty.eraseList_eraseList ts]

theorem Ty.eraseFields_eraseFields (fs : List (String × Ty)) :
    Ty.eraseFields (Ty.eraseFields fs) = Ty.eraseFields fs := by
  match fs with
  | [] => rfl
  | (n, t) :: fs =>
      rw [Ty.eraseFields, Ty.eraseFields, t.erase_erase, Ty.eraseFields_eraseFields fs]

end

/-- The second replacement puts in the same types, but without ranges. -/
def Replacement.Erased (f g : Replacement) : Prop :=
  ∀ bound v r, (f bound v r).erase = g bound v .erased

mutual

theorem Ty.erase_mapVars (h : f.Erased g) (bound : List TypeVar) (t : Ty) :
    (t.mapVars f bound).erase = t.erase.mapVars g bound := by
  match t with
  | .base _ _ => rfl
  | .var v r => exact h bound v r
  | .func p q _ =>
      simp only [Ty.mapVars, Ty.erase, Ty.erase_mapVars h bound p, Ty.erase_mapVars h bound q]
  | .list t _ | .ref t _ => simp only [Ty.mapVars, Ty.erase, Ty.erase_mapVars h bound t]
  | .product ts _ | .variant _ ts _ =>
      simp only [Ty.mapVars, Ty.erase, Ty.eraseList_mapVarsList h bound ts]
  | .synonym _ ts t _ =>
      simp only [Ty.mapVars, Ty.erase, Ty.eraseList_mapVarsList h bound ts,
        Ty.erase_mapVars h bound t]
  | .all v k t _ =>
      simp only [Ty.mapVars, Ty.erase, Kind.erase_mapVars h (v :: bound) k,
        Ty.erase_mapVars h (v :: bound) t]
  | .record fs _ => simp only [Ty.mapVars, Ty.erase, Ty.eraseFields_mapVarsFields h bound fs]

theorem Kind.erase_mapVars (h : f.Erased g) (bound : List TypeVar) (k : Kind) :
    (k.mapVars f bound).erase = k.erase.mapVars g bound := by
  match k with
  | .universal => rfl
  | .record fs => simp only [Kind.mapVars, Kind.erase, Ty.eraseFields_mapVarsFields h bound fs]

theorem Ty.eraseList_mapVarsList (h : f.Erased g) (bound : List TypeVar) (ts : List Ty) :
    Ty.eraseList (Ty.mapVarsList f bound ts) = Ty.mapVarsList g bound (Ty.eraseList ts) := by
  match ts with
  | [] => rfl
  | t :: ts =>
      rw [Ty.mapVarsList, Ty.eraseList, Ty.eraseList, Ty.mapVarsList, Ty.erase_mapVars h bound t,
        Ty.eraseList_mapVarsList h bound ts]

theorem Ty.eraseFields_mapVarsFields (h : f.Erased g) (bound : List TypeVar)
    (fs : List (String × Ty)) :
    Ty.eraseFields (Ty.mapVarsFields f bound fs) =
      Ty.mapVarsFields g bound (Ty.eraseFields fs) := by
  match fs with
  | [] => rfl
  | (n, t) :: fs =>
      rw [Ty.mapVarsFields, Ty.eraseFields, Ty.eraseFields, Ty.mapVarsFields,
        Ty.erase_mapVars h bound t, Ty.eraseFields_mapVarsFields h bound fs]

end

theorem Ty.erase_rename (t : Ty) (ρ : TypeVar → TypeVar) : (t.rename ρ).erase = t.erase.rename ρ :=
  t.erase_mapVars (fun _ _ _ => rfl) []

mutual

theorem Ty.freeVarsUnder_erase (bound : List TypeVar) (t : Ty) :
    t.erase.freeVarsUnder bound = t.freeVarsUnder bound := by
  match t with
  | .base _ _ | .var _ _ => rfl
  | .func p q _ =>
      simp only [Ty.erase, Ty.freeVarsUnder, p.freeVarsUnder_erase, q.freeVarsUnder_erase]
  | .list t _ | .ref t _ => exact t.freeVarsUnder_erase bound
  | .product ts _ | .variant _ ts _ | .synonym _ ts _ _ => exact Ty.freeVarsOfList_eraseList bound ts
  | .all v k t _ =>
      simp only [Ty.erase, Ty.freeVarsUnder, k.freeVarsUnder_erase, t.freeVarsUnder_erase]
  | .record fs _ => exact Ty.freeVarsOfFields_eraseFields bound fs

theorem Kind.freeVarsUnder_erase (bound : List TypeVar) (k : Kind) :
    k.erase.freeVarsUnder bound = k.freeVarsUnder bound := by
  match k with
  | .universal => rfl
  | .record fs => exact Ty.freeVarsOfFields_eraseFields bound fs

theorem Ty.freeVarsOfList_eraseList (bound : List TypeVar) (ts : List Ty) :
    Ty.freeVarsOfList bound (Ty.eraseList ts) = Ty.freeVarsOfList bound ts := by
  match ts with
  | [] => rfl
  | t :: ts =>
      rw [Ty.eraseList, Ty.freeVarsOfList, Ty.freeVarsOfList, t.freeVarsUnder_erase,
        Ty.freeVarsOfList_eraseList bound ts]

theorem Ty.freeVarsOfFields_eraseFields (bound : List TypeVar) (fs : List (String × Ty)) :
    Ty.freeVarsOfFields bound (Ty.eraseFields fs) = Ty.freeVarsOfFields bound fs := by
  match fs with
  | [] => rfl
  | (n, t) :: fs =>
      rw [Ty.eraseFields, Ty.freeVarsOfFields, Ty.freeVarsOfFields, t.freeVarsUnder_erase,
        Ty.freeVarsOfFields_eraseFields bound fs]

end

@[simp] theorem Ty.freeVars_erase (t : Ty) : t.erase.freeVars = t.freeVars :=
  t.freeVarsUnder_erase []

@[simp] theorem Kind.freeVars_erase (k : Kind) : k.erase.freeVars = k.freeVars :=
  k.freeVarsUnder_erase []

@[simp] theorem Ty.mentions_erase (t : Ty) (v : TypeVar) : t.erase.mentions v = t.mentions v := by
  rw [Ty.mentions, Ty.mentions, t.freeVars_erase]

mutual

@[simp] theorem Ty.size_erase (t : Ty) : t.erase.size = t.size := by
  match t with
  | .base _ _ | .var _ _ => rfl
  | .func p q _ => simp only [Ty.erase, Ty.size, p.size_erase, q.size_erase]
  | .list t _ | .ref t _ => simp only [Ty.erase, Ty.size, t.size_erase]
  | .product ts _ | .variant _ ts _ => simp only [Ty.erase, Ty.size, Ty.sizeList_eraseList ts]
  | .synonym _ ts t _ =>
      simp only [Ty.erase, Ty.size, Ty.sizeList_eraseList ts, t.size_erase]
  | .all _ k t _ => simp only [Ty.erase, Ty.size, k.size_erase, t.size_erase]
  | .record fs _ => simp only [Ty.erase, Ty.size, Ty.sizeFields_eraseFields fs]

@[simp] theorem Kind.size_erase (k : Kind) : k.erase.size = k.size := by
  match k with
  | .universal => rfl
  | .record fs => simp only [Kind.erase, Kind.size, Ty.sizeFields_eraseFields fs]

theorem Ty.sizeList_eraseList (ts : List Ty) : Ty.sizeList (Ty.eraseList ts) = Ty.sizeList ts := by
  match ts with
  | [] => rfl
  | t :: ts => rw [Ty.eraseList, Ty.sizeList, Ty.sizeList, t.size_erase, Ty.sizeList_eraseList ts]

theorem Ty.sizeFields_eraseFields (fs : List (String × Ty)) :
    Ty.sizeFields (Ty.eraseFields fs) = Ty.sizeFields fs := by
  match fs with
  | [] => rfl
  | (n, t) :: fs =>
      rw [Ty.eraseFields, Ty.sizeFields, Ty.sizeFields, t.size_erase, Ty.sizeFields_eraseFields fs]

end

theorem Replacement.erased_single (v : TypeVar) (t : Ty) :
    (Replacement.single v t).Erased (.single v t.erase) := by
  intro bound w r
  unfold Replacement.single
  split <;> rfl

theorem Ty.erase_substitute (s : Ty) (v : TypeVar) (t : Ty) :
    (s.substitute v t).erase = s.erase.substitute v t.erase :=
  Ty.erase_mapVars (Replacement.erased_single v t) [] s

theorem Kind.erase_substitute (k : Kind) (v : TypeVar) (t : Ty) :
    (k.substitute v t).erase = k.erase.substitute v t.erase :=
  Kind.erase_mapVars (Replacement.erased_single v t) [] k

/-- Two maps that agree up to a change of the values list the same keys. -/
theorem toList_of_getElem? {α β : Type} {m : Std.TreeMap TypeVar α} {m' : Std.TreeMap TypeVar β}
    {change : α → β} (h : ∀ v : TypeVar, m'[v]? = m[v]?.map change) :
    m'.toList = m.toList.map fun p => (p.1, change p.2) := by
  have hequiv : m'.Equiv (m.map fun _ a => change a) := .of_forall_constGet?_eq fun v => by
    rw [h, Std.TreeMap.getElem?_map]
  rw [hequiv.toList_eq, Std.TreeMap.toList_map]

/-! ### Substitutions -/

/-- The second substitution gives the same types, but without ranges. -/
def Substitution.Erased (s s' : Substitution) : Prop := ∀ v, s'.find? v = (s.find? v).map Ty.erase

namespace Substitution

variable {s s' : Substitution}

theorem Erased.toList (h : s.Erased s') :
    s'.bindings.toList = s.bindings.toList.map fun p => (p.1, p.2.erase) :=
  toList_of_getElem? h

theorem Erased.size (h : s.Erased s') : s'.size = s.size := by
  rw [Substitution.size, Substitution.size, ← Std.TreeMap.length_toList, h.toList, List.length_map,
    Std.TreeMap.length_toList]

theorem Erased.weight (h : s.Erased s') : s'.weight = s.weight := by
  simp only [Substitution.weight, Std.TreeMap.foldl_eq_foldl_toList, h.toList, List.foldl_map,
    Ty.size_erase]

theorem Erased.bind (h : s.Erased s') (v : TypeVar) (t : Ty) :
    (s.bind v t).Erased (s'.bind v t.erase) := by
  intro w
  rw [find?_bind, find?_bind, h w]
  split <;> rfl

theorem Erased.follow (h : s.Erased s') (n : Nat) : (s.follow n).Erased (s'.follow n) := by
  induction n with
  | zero => exact fun _ _ _ => rfl
  | succ n ih =>
      intro bound v r
      rw [Substitution.follow, Substitution.follow, h v]
      split
      · rfl
      · cases s.find? v with
        | none => rfl
        | some t => exact Ty.erase_mapVars ih bound t

theorem Erased.apply (h : s.Erased s') (t : Ty) : (s.apply t).erase = s'.apply t.erase := by
  rw [Substitution.apply, Substitution.apply, h.size]
  exact Ty.erase_mapVars (h.follow s.size) [] t

theorem Erased.applyKind (h : s.Erased s') (k : Kind) :
    (s.applyKind k).erase = s'.applyKind k.erase := by
  rw [Substitution.applyKind, Substitution.applyKind, h.size]
  exact Kind.erase_mapVars (h.follow s.size) [] k

end Substitution

/-! ### Kinds and solvers -/

/-- The second environment gives the same kinds, but without ranges. -/
def KindEnv.Erased (k k' : KindEnv) : Prop := ∀ v :
    TypeVar, k'.kinds[v]? = k.kinds[v]?.map Kind.erase

namespace KindEnv

variable {k k' : KindEnv}

theorem Erased.weight (h : k.Erased k') : k'.weight = k.weight := by
  simp only [KindEnv.weight, Std.TreeMap.foldl_eq_foldl_toList, toList_of_getElem? h,
    List.foldl_map, Kind.size_erase]

theorem Erased.kindOf (h : k.Erased k') (v : TypeVar) : k'.kindOf v = (k.kindOf v).erase := by
  rw [KindEnv.kindOf, KindEnv.kindOf, Std.TreeMap.getD_eq_getD_getElem?,
    Std.TreeMap.getD_eq_getD_getElem?, h v]
  cases k.kinds[v]? <;> rfl

theorem Erased.contains (h : k.Erased k') (v : TypeVar) :
    k'.kinds.contains v = k.kinds.contains v := by
  rw [Std.TreeMap.contains_eq_isSome_getElem?, Std.TreeMap.contains_eq_isSome_getElem?, h v,
    Option.isSome_map]

theorem Erased.refine (h : k.Erased k') (v : TypeVar) (kind : Kind) :
    (k.refine v kind).Erased (k'.refine v kind.erase) := by
  intro w
  rw [KindEnv.refine, KindEnv.refine, Std.TreeMap.getElem?_insert, Std.TreeMap.getElem?_insert, h w]
  split <;> rfl

end KindEnv

/-- The second solver knows the same, but its types have no ranges. -/
structure Solver.Erased (s s' : Solver) : Prop where
  subst : s.subst.Erased s'.subst
  kinds : s.kinds.Erased s'.kinds

end FieldML
