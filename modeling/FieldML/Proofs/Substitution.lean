import FieldML.Proofs.Simple
import FieldML.Substitution
import Mathlib.Data.List.Count

/-!
# Applying substitutions

In a triangular substitution no variable leads back to itself. Following a variable as often as
there are bindings then leaves only variables without a binding.
-/

namespace FieldML

theorem countP_lt_countP {α : Type} {p q : α → Bool} {l : List α} {a : α}
    (hpq : ∀ x ∈ l, p x → q x) (ha : a ∈ l) (hp : p a = false) (hq : q a = true) :
    l.countP p < l.countP q := by
  induction l with
  | nil => simp at ha
  | cons b l ih =>
      have htail : ∀ x ∈ l, p x → q x := fun x hx => hpq x (List.mem_cons_of_mem _ hx)
      have hle := List.countP_mono_left htail
      rcases List.mem_cons.1 ha with rfl | ha
      · rw [List.countP_cons_of_neg (by simp [hp]), List.countP_cons_of_pos hq]
        omega
      · have hlt := ih htail ha
        have hb := hpq b List.mem_cons_self
        simp only [List.countP_cons]
        split <;> split <;> first | omega | simp_all

namespace Substitution

variable {syn : Prop} {s s' : Substitution} {v w : TypeVar} {t : Ty} {r : Range}

/-- The types given to variables are simple. -/
def Simple (syn : Prop) (s : Substitution) : Prop := ∀ v t, s.find? v = some t → t.Simple syn

/-- Moreover no variable leads back to itself: bound variables can be ordered so that each stands
above those that its type mentions. -/
structure Triangular (syn : Prop) (s : Substitution) : Prop where
  simple : s.Simple syn
  ordered : ∃ order : TypeVar → Nat, ∀ v t, s.find? v = some t →
    ∀ w ∈ t.freeVars, s.find? w ≠ none → order w < order v

/-- No variable leads back to itself, whatever types the variables are given. -/
def Ordered (s : Substitution) : Prop :=
  ∃ order : TypeVar → Nat, ∀ v t, s.find? v = some t →
    ∀ w ∈ t.freeVars, s.find? w ≠ none → order w < order v

/-- What is bound in `s` is bound in the same way in `s'`. -/
def ExtendedBy (s s' : Substitution) : Prop := ∀ v t, s.find? v = some t → s'.find? v = some t

theorem ExtendedBy.refl (s : Substitution) : s.ExtendedBy s := fun _ _ h => h

theorem ExtendedBy.trans {s'' : Substitution} (h : s.ExtendedBy s') (h' : s'.ExtendedBy s'') :
    s.ExtendedBy s'' := fun v t hv => h' v t (h v t hv)

theorem ExtendedBy.none (h : s.ExtendedBy s') (hv : s'.find? v = none) : s.find? v = none := by
  cases hfind : s.find? v with
  | none => rfl
  | some t => rw [h v t hfind] at hv; simp at hv

theorem extendedBy_bind (hv : s.find? v = none) : s.ExtendedBy (s.bind v t) := by
  intro w u hw
  have hne : v ≠ w := by
    rintro rfl
    rw [hv] at hw
    simp at hw
  rw [find?_bind, if_neg hne, hw]

theorem find?_empty : empty.find? v = none := by
  simp [find?, empty]

theorem ordered_empty : Ordered empty :=
  ⟨fun _ => 0, fun v t h => by simp [find?_empty] at h⟩

/-- A variable may be bound to a type without bound variables that does not mention it. -/
theorem Ordered.bind (h : s.Ordered) (hfree : ∀ w ∈ t.freeVars, s.find? w = none)
    (hvt : v ∉ t.freeVars) : (s.bind v t).Ordered := by
  obtain ⟨order, horder⟩ := h
  refine ⟨fun x => if x = v then 0 else order x + 1, fun w u hw x hx hbound => ?_⟩
  rw [find?_bind] at hw hbound
  by_cases hwv : v = w
  · subst hwv
    obtain rfl : t = u := by simpa using hw
    have hne : v ≠ x := fun he => hvt (he ▸ hx)
    rw [if_neg hne, hfree x hx] at hbound
    exact absurd rfl hbound
  · rw [if_neg hwv] at hw
    by_cases hxv : v = x
    · subst hxv
      simp [Ne.symm hwv]
    · rw [if_neg hxv] at hbound
      have := horder w u hw x hx hbound
      simp [Ne.symm hxv, Ne.symm hwv, this]

theorem mem_keys (h : s.find? v = some t) : v ∈ s.bindings.keys := by
  rw [Std.TreeMap.mem_keys, Std.TreeMap.mem_iff_isSome_getElem?]
  unfold find? at h
  simp [h]

theorem countP_keys_lt {order : TypeVar → Nat} (hw : s.find? w ≠ none)
    (hlt : order w < order v) :
    s.bindings.keys.countP (order · < order w) < s.bindings.keys.countP (order · < order v) := by
  obtain ⟨u, hu⟩ := Option.ne_none_iff_exists'.1 hw
  refine countP_lt_countP (fun x _ hx => ?_) (mem_keys hu) (by simp) (by simpa using hlt)
  simp only [decide_eq_true_eq] at hx ⊢
  omega

theorem follow_of_none (n : Nat) (h : s.find? v = none) : s.follow n [] v r = .var v r := by
  cases n <;> simp [follow, h]

theorem follow_of_some (n : Nat) (h : s.find? v = some t) :
    s.follow (n + 1) [] v r = t.mapVars (s.follow n) [] := by
  simp [follow, h]

/-- Where a variable stands does not decide what it is followed to, its own range apart. -/
theorem mem_freeVars_follow {bound : List TypeVar} (n : Nat) (r r' : Range)
    (h : w ∈ (s.follow n bound v r).freeVars) : w ∈ (s.follow n bound v r').freeVars := by
  cases n with
  | zero => simpa [follow] using h
  | succ n =>
      unfold follow at h ⊢
      by_cases hv : v ∈ bound
      · simpa only [hv, if_true, Ty.mem_freeVars_var] using h
      · simp only [hv, if_false] at h ⊢
        cases hfind : s.find? v with
        | none => simpa only [hfind, Ty.mem_freeVars_var] using h
        | some t => simpa only [hfind] using h

@[simp] theorem apply_base (b : BaseTy) (r : Range) : s.apply (.base b r) = .base b r := rfl

@[simp] theorem apply_func (p q : Ty) (r : Range) :
    s.apply (.func p q r) = .func (s.apply p) (s.apply q) r := rfl

@[simp] theorem apply_list (t : Ty) (r : Range) : s.apply (.list t r) = .list (s.apply t) r := rfl

@[simp] theorem apply_ref (t : Ty) (r : Range) : s.apply (.ref t r) = .ref (s.apply t) r := rfl

@[simp] theorem apply_product (ts : List Ty) (r : Range) :
    s.apply (.product ts r) = .product (ts.map s.apply) r := Ty.mapVars_product ts r

@[simp] theorem apply_variant (n : String) (ts : List Ty) (r : Range) :
    s.apply (.variant n ts r) = .variant n (ts.map s.apply) r := Ty.mapVars_variant n ts r

@[simp] theorem apply_synonym (n : String) (ts : List Ty) (t : Ty) (r : Range) :
    s.apply (.synonym n ts t r) = .synonym n (ts.map s.apply) (s.apply t) r :=
  Ty.mapVars_synonym n ts t r

@[simp] theorem apply_record (fs : List (String × Ty)) (r : Range) :
    s.apply (.record fs r) = .record (fs.map fun p => (p.1, s.apply p.2)) r :=
  Ty.mapVars_record fs r

theorem Simple.follow (h : s.Simple syn) (bound : List TypeVar) (n : Nat) (v : TypeVar)
    (r : Range) : (s.follow n bound v r).Simple syn := by
  induction n generalizing v r with
  | zero => exact .var v r
  | succ n ih =>
      rw [Substitution.follow]
      split
      · exact .var v r
      · split
        · next t hfind =>
            exact (h v t hfind).mapVars (fun w _ r => ih w r)
              fun w r r' u => mem_freeVars_follow n r r'
        · exact .var v r

theorem Simple.apply (h : s.Simple syn) (ht : t.Simple syn) : (s.apply t).Simple syn :=
  ht.mapVars (fun v _ r => h.follow [] _ v r) fun _ r r' _ => mem_freeVars_follow _ r r'

theorem mem_freeVars_apply (ht : t.Simple syn) :
    w ∈ (s.apply t).freeVars ↔ ∃ v ∈ t.freeVars, w ∈ (s.apply (.var v .erased)).freeVars := by
  constructor
  · intro hw
    obtain ⟨v, hv, r, hw⟩ := ht.exists_of_mem_freeVars_mapVars hw
    exact ⟨v, hv, mem_freeVars_follow _ r .erased hw⟩
  · rintro ⟨v, hv, hw⟩
    exact ht.mem_freeVars_mapVars hv fun r => mem_freeVars_follow _ .erased r hw

theorem apply_var_of_none (h : s.find? v = none) : s.apply (.var v r) = .var v r :=
  follow_of_none s.size h

theorem applyKind_universal : s.applyKind .universal = .universal := rfl

theorem applyKind_record (fs : List (String × Ty)) :
    s.applyKind (.record fs) = .record (fs.map fun p => (p.1, s.apply p.2)) := by
  simp only [applyKind, Kind.mapVars, Ty.mapVarsFields_eq_map]
  rfl

namespace Triangular

theorem empty : Triangular syn Substitution.empty where
  simple v t h := by simp [find?_empty] at h
  ordered := ordered_empty

/-- More steps than there are bindings below a variable change nothing. -/
theorem follow_stable (h : s.Triangular syn) : ∀ n, ∀ order : TypeVar → Nat,
    (∀ v t, s.find? v = some t → ∀ w ∈ t.freeVars, s.find? w ≠ none → order w < order v) →
    ∀ v r, (s.find? v ≠ none → s.bindings.keys.countP (order · < order v) < n) →
      s.follow (n + 1) [] v r = s.follow n [] v r := by
  intro n order horder
  induction n with
  | zero =>
      intro v r hv
      cases hfind : s.find? v with
      | none => rw [follow_of_none _ hfind, follow_of_none _ hfind]
      | some t => simp [hfind] at hv
  | succ n ih =>
      intro v r hv
      cases hfind : s.find? v with
      | none => rw [follow_of_none _ hfind, follow_of_none _ hfind]
      | some t =>
          rw [follow_of_some _ hfind, follow_of_some _ hfind]
          refine (h.simple v t hfind).mapVars_congr fun w hw r' => ih w r' fun hbound => ?_
          have hlt := horder v t hfind w hw hbound
          have hcount := countP_keys_lt hbound hlt
          have := hv (by simp [hfind])
          omega

/-- A bound variable stands for what its type stands for. -/
theorem apply_var_of_some (h : s.Triangular syn) (hv : s.find? v = some t) :
    s.apply (.var v r) = s.apply t := by
  obtain ⟨order, horder⟩ := h.ordered
  have hpos : s.size ≠ 0 := by
    have := List.length_pos_of_mem (mem_keys hv)
    rw [Std.TreeMap.length_keys] at this
    unfold size
    omega
  obtain ⟨n, hn⟩ := Nat.exists_eq_succ_of_ne_zero hpos
  have hcount : ∀ w t', s.find? w = some t' →
      s.bindings.keys.countP (order · < order w) < n + 1 := by
    intro w t' hw
    have := countP_lt_countP (p := fun x => decide (order x < order w)) (q := fun _ => true)
      (fun _ _ _ => rfl) (mem_keys hw) (by simp) rfl
    rw [List.countP_true, Std.TreeMap.length_keys] at this
    unfold size at hn
    omega
  change s.follow s.size [] v r = t.mapVars (s.follow s.size) []
  rw [hn, Nat.succ_eq_add_one, follow_of_some n hv]
  refine (h.simple v t hv).mapVars_congr fun w hw r' => ?_
  refine (h.follow_stable n order horder w r' fun hbound => ?_).symm
  have hlt := countP_keys_lt hbound (horder v t hv w hw hbound)
  have := hcount v t hv
  omega

/-- What holds of types without bound variables, and of a variable when it holds of its type,
holds of all simple types. -/
theorem induction (h : s.Triangular syn) {P : Ty → Prop}
    (free : ∀ v r, s.find? v = none → P (.var v r))
    (bound : ∀ v r t, s.find? v = some t → P t → P (.var v r))
    (base : ∀ b r, P (.base b r))
    (func : ∀ p q r, P p → P q → P (.func p q r))
    (list : ∀ t r, P t → P (.list t r))
    (ref : ∀ t r, P t → P (.ref t r))
    (product : ∀ ts r, (∀ t ∈ ts, P t) → P (.product ts r))
    (variant : ∀ n ts r, (∀ t ∈ ts, P t) → P (.variant n ts r))
    (synonym : ∀ n ts t r, syn → (∀ t ∈ ts, P t) → P t →
      (∀ v ∈ t.freeVars, v ∈ Ty.freeVarsOfList [] ts) → P (.synonym n ts t r))
    (record : ∀ fs r, Fields.Sorted fs → (∀ p ∈ fs, P p.2) → P (.record fs r))
    (t : Ty) (ht : t.Simple syn) : P t := by
  obtain ⟨order, horder⟩ := h.ordered
  have step : ∀ t : Ty, t.Simple syn →
      (∀ v ∈ t.freeVars, ∀ r, s.find? v ≠ none → P (.var v r)) → P t := by
    intro t ht hvar
    induction ht with
    | base b r => exact base b r
    | var v r =>
        by_cases hv : s.find? v = none
        · exact free v r hv
        · exact hvar v (by simp) r hv
    | func r hp hq ihp ihq =>
        exact func _ _ r (ihp fun v hv => hvar v (by simp [hv]))
          (ihq fun v hv => hvar v (by simp [hv]))
    | list r ht ih => exact list _ r (ih hvar)
    | ref r ht ih => exact ref _ r (ih hvar)
    | product r hts ih =>
        exact product _ r fun t ht =>
          ih t ht fun v hv => hvar v (Ty.mem_freeVars_product.2 ⟨t, ht, hv⟩)
    | variant n r hts ih =>
        exact variant n _ r fun t ht =>
          ih t ht fun v hv => hvar v (Ty.mem_freeVars_variant.2 ⟨t, ht, hv⟩)
    | synonym n r hsyn hts ht hvars ihts iht =>
        exact synonym n _ _ r hsyn
          (fun t ht => ihts t ht fun v hv => hvar v (Ty.mem_freeVars_synonym.2 ⟨t, ht, hv⟩))
          (iht fun v hv => hvar v (hvars v hv)) hvars
    | record r hsorted hfs ih =>
        exact record _ r hsorted fun p hp =>
          ih p hp fun v hv => hvar v (Ty.mem_freeVars_record.2 ⟨p, hp, hv⟩)
  have hvar : ∀ n v r, order v = n → s.find? v ≠ none → P (.var v r) := by
    intro n
    induction n using Nat.strong_induction_on with
    | _ n ih =>
        intro v r hn hv
        obtain ⟨u, hu⟩ := Option.ne_none_iff_exists'.1 hv
        refine bound v r u hu (step u (h.simple v u hu) fun w hw r' hbound => ?_)
        exact ih (order w) (hn ▸ horder v u hu w hw hbound) w r' rfl hbound
  exact step t ht fun v _ r hv => hvar (order v) v r rfl hv

/-- Applying a substitution leaves no bound variable. -/
theorem find?_of_mem_freeVars_apply (h : s.Triangular syn) (ht : t.Simple syn)
    (hw : w ∈ (s.apply t).freeVars) : s.find? w = none := by
  revert hw
  refine h.induction (P := fun t => w ∈ (s.apply t).freeVars → s.find? w = none)
    ?free ?bound ?base ?func ?list ?ref ?product ?variant ?synonym ?record t ht
  case free =>
    intro v r hv hw
    rw [apply_var_of_none hv, Ty.mem_freeVars_var] at hw
    exact hw ▸ hv
  case bound =>
    intro v r t hv ih hw
    rw [h.apply_var_of_some hv] at hw
    exact ih hw
  case base => simp
  case func =>
    intro p q r ihp ihq hw
    exact (Ty.mem_freeVars_func.1 hw).elim ihp ihq
  case list => exact fun t r ih => ih
  case ref => exact fun t r ih => ih
  case product =>
    intro ts r ih hw
    simp only [apply_product, Ty.mem_freeVars_product, List.mem_map] at hw
    obtain ⟨_, ⟨t, ht, rfl⟩, hw⟩ := hw
    exact ih t ht hw
  case variant =>
    intro n ts r ih hw
    simp only [apply_variant, Ty.mem_freeVars_variant, List.mem_map] at hw
    obtain ⟨_, ⟨t, ht, rfl⟩, hw⟩ := hw
    exact ih t ht hw
  case synonym =>
    intro n ts t r hsyn ihts iht hvars hw
    simp only [apply_synonym, Ty.mem_freeVars_synonym, List.mem_map] at hw
    obtain ⟨_, ⟨t, ht, rfl⟩, hw⟩ := hw
    exact ihts t ht hw
  case record =>
    intro fs r hsorted ih hw
    simp only [apply_record, Ty.mem_freeVars_record, List.mem_map] at hw
    obtain ⟨_, ⟨p, hp, rfl⟩, hw⟩ := hw
    exact ih p hp hw

/-- Applying a substitution and then one that extends it is applying the latter. -/
theorem apply_apply (h : s.Triangular syn) (h' : s'.Triangular syn) (hext : s.ExtendedBy s')
    (ht : t.Simple syn) : s'.apply (s.apply t) = s'.apply t := by
  refine h.induction (P := fun t => s'.apply (s.apply t) = s'.apply t)
    ?free ?bound ?base ?func ?list ?ref ?product ?variant ?synonym ?record t ht
  case free => exact fun v r hv => by rw [apply_var_of_none hv]
  case bound =>
    intro v r t hv ih
    rw [h.apply_var_of_some hv, h'.apply_var_of_some (hext v t hv), ih]
  case base => simp
  case func => exact fun p q r ihp ihq => by simp [ihp, ihq]
  case list => exact fun t r ih => by simp [ih]
  case ref => exact fun t r ih => by simp [ih]
  case product => exact fun ts r ih => by simpa using ih
  case variant => exact fun n ts r ih => by simpa using ih
  case synonym => exact fun n ts t r _ ihts iht _ => by simpa [iht] using ihts
  case record =>
    intro fs r _ ih
    simp only [apply_record, List.map_map, Ty.record.injEq, and_true]
    exact List.map_congr_left fun p hp => by simp [ih p hp]

/-- A variable may be bound to a type without bound variables that does not mention it. -/
theorem bind (h : s.Triangular syn) (ht : t.Simple syn)
    (hfree : ∀ w ∈ t.freeVars, s.find? w = none) (hvt : v ∉ t.freeVars) :
    (s.bind v t).Triangular syn where
  simple w u hw := by
    rw [find?_bind] at hw
    split at hw
    · exact Option.some.inj hw ▸ ht
    · exact h.simple w u hw
  ordered := Ordered.bind h.ordered hfree hvt

end Triangular

end Substitution

end FieldML
