import FieldML.Fields
import Mathlib.Data.List.Forall2
import Mathlib.Data.String.Basic

/-!
# Look-up in sorted fields

In sorted fields every entry is found under its name, and insertion keeps the order. Fields with the
same names can be compared entry by entry.
-/

namespace FieldML.Fields

variable {α β : Type}

instance (fields : List (String × α)) : Decidable (Sorted fields) :=
  inferInstanceAs (Decidable ((names fields).Pairwise (· < ·)))

@[simp] theorem names_cons (n : String) (a : α) (fs : List (String × α)) :
    names ((n, a) :: fs) = n :: names fs := rfl

theorem mem_names {fs : List (String × α)} {n : String} :
    n ∈ names fs ↔ ∃ a, (n, a) ∈ fs := by
  simp [names]

theorem sorted_nil : Sorted ([] : List (String × α)) := List.Pairwise.nil

theorem sorted_cons {n : String} {a : α} {fs : List (String × α)} :
    Sorted ((n, a) :: fs) ↔ (∀ m ∈ names fs, n < m) ∧ Sorted fs :=
  List.pairwise_cons

theorem Sorted.tail {f : String × α} {fs : List (String × α)} (h : Sorted (f :: fs)) :
    Sorted fs :=
  (sorted_cons.1 h).2

/-- The names alone decide whether fields are in order. -/
theorem sorted_congr {fs : List (String × α)} {gs : List (String × β)}
    (h : names fs = names gs) : Sorted fs ↔ Sorted gs := by
  unfold Sorted
  rw [h]

theorem mem_of_get? {fs : List (String × α)} {n : String} {a : α} (h : get? fs n = some a) :
    (n, a) ∈ fs := by
  induction fs with
  | nil => simp [get?] at h
  | cons f fs ih =>
      obtain ⟨m, b⟩ := f
      by_cases hm : m = n
      · subst hm
        obtain rfl : b = a := by simpa [get?] using h
        exact List.mem_cons_self
      · exact List.mem_cons_of_mem _ (ih (by simpa [get?, hm] using h))

theorem get?_eq_none {fs : List (String × α)} {n : String} :
    get? fs n = none ↔ n ∉ names fs := by
  induction fs with
  | nil => simp [get?, names]
  | cons f fs ih =>
      obtain ⟨m, b⟩ := f
      by_cases hm : m = n
      · simp [get?, hm]
      · simp [get?, hm, ih, Ne.symm hm]

theorem get?_of_mem {fs : List (String × α)} (hfs : Sorted fs) {n : String} {a : α}
    (h : (n, a) ∈ fs) : get? fs n = some a := by
  induction fs with
  | nil => simp at h
  | cons f fs ih =>
      obtain ⟨m, b⟩ := f
      obtain ⟨hlt, hfs⟩ := sorted_cons.1 hfs
      rcases List.mem_cons.1 h with heq | htail
      · obtain ⟨rfl, rfl⟩ := Prod.mk.inj heq
        simp [get?]
      · have hm : m ≠ n := by
          rintro rfl
          exact String.lt_irrefl m (hlt m (mem_names.2 ⟨a, htail⟩))
        simp [get?, hm, ih hfs htail]

theorem mem_insert {n m : String} {a b : α} {fs : List (String × α)}
    (h : (m, b) ∈ insert n a fs) : (m, b) = (n, a) ∨ (m, b) ∈ fs := by
  induction fs with
  | nil => exact Or.inl (by simpa [insert] using h)
  | cons f fs ih =>
      obtain ⟨k, c⟩ := f
      unfold insert at h
      split at h
      · exact List.mem_cons.1 h
      · split at h
        · rcases List.mem_cons.1 h with h | h
          · exact Or.inl h
          · exact Or.inr (List.mem_cons_of_mem _ h)
        · rcases List.mem_cons.1 h with h | h
          · exact Or.inr (h ▸ List.mem_cons_self)
          · exact (ih h).imp_right (List.mem_cons_of_mem _)

/-- What holds of the fields and of the one that is added holds of all fields then. -/
theorem forall_mem_insert {P : String × α → Prop} {n : String} {a : α} {fs : List (String × α)}
    (ha : P (n, a)) (hfs : ∀ p ∈ fs, P p) : ∀ p ∈ insert n a fs, P p := by
  rintro ⟨m, b⟩ hp
  rcases mem_insert hp with heq | hp
  · exact heq ▸ ha
  · exact hfs _ hp

theorem mem_names_insert {n m : String} {a : α} {fs : List (String × α)} :
    m ∈ names (insert n a fs) ↔ m = n ∨ m ∈ names fs := by
  rw [← not_iff_not, ← get?_eq_none, get?_insert, not_or, ← @get?_eq_none _ fs]
  by_cases h : n = m <;> simp [h, eq_comm]

/-- Adding fields one after the other adds their names to those that are there. -/
theorem mem_names_foldl_insert {n : String} {entries fs : List (String × α)} :
    n ∈ names (entries.foldl (fun fields entry => insert entry.1 entry.2 fields) fs) ↔
      n ∈ names entries ∨ n ∈ names fs := by
  induction entries generalizing fs with
  | nil => simp [names]
  | cons e entries ih =>
      rw [List.foldl_cons, ih, mem_names_insert, names_cons, List.mem_cons, or_assoc, or_left_comm]

theorem sorted_insert {fs : List (String × α)} (hfs : Sorted fs) (n : String) (a : α) :
    Sorted (insert n a fs) := by
  induction fs with
  | nil => exact sorted_cons.2 ⟨by simp [names], sorted_nil⟩
  | cons f fs ih =>
      obtain ⟨m, b⟩ := f
      obtain ⟨hlt, htail⟩ := sorted_cons.1 hfs
      unfold insert
      split
      · next h =>
          refine sorted_cons.2 ⟨?_, hfs⟩
          intro k hk
          rcases List.mem_cons.1 hk with rfl | hk
          · exact h
          · exact String.lt_trans h (hlt k hk)
      · split
        · next h => exact sorted_cons.2 ⟨h ▸ hlt, htail⟩
        · next hnm hne =>
            refine sorted_cons.2 ⟨?_, ih htail⟩
            intro k hk
            rcases mem_names_insert.1 hk with rfl | hk
            · exact lt_of_le_of_ne (not_lt.1 hnm) (Ne.symm hne)
            · exact hlt k hk

/-- A name after all others goes to the end. -/
theorem insert_of_forall_lt {n : String} (a : α) {fs : List (String × α)}
    (h : ∀ m ∈ names fs, m < n) : insert n a fs = fs ++ [(n, a)] := by
  induction fs with
  | nil => rfl
  | cons f fs ih =>
      obtain ⟨m, b⟩ := f
      obtain ⟨hlt, h⟩ := List.forall_mem_cons.1 h
      rw [insert, if_neg (lt_asymm hlt), if_neg (ne_of_gt hlt), ih h, List.cons_append]

theorem sorted_ofList (entries : List (String × α)) : Sorted (ofList entries) := by
  unfold ofList
  suffices h : ∀ fs : List (String × α), Sorted fs →
      Sorted (entries.foldl (fun fields entry => insert entry.1 entry.2 fields) fs) from
    h [] sorted_nil
  induction entries with
  | nil => exact fun fs hfs => hfs
  | cons e entries ih => exact fun fs hfs => ih _ (sorted_insert hfs _ _)

theorem mem_of_mem_ofList {entries : List (String × α)} {f : String × α}
    (hf : f ∈ ofList entries) : f ∈ entries := by
  unfold ofList at hf
  suffices h : ∀ fs : List (String × α),
      f ∈ entries.foldl (fun fields entry => insert entry.1 entry.2 fields) fs →
        f ∈ fs ∨ f ∈ entries from (h [] hf).resolve_left (by simp)
  clear hf
  induction entries with
  | nil => exact fun fs hf => Or.inl hf
  | cons e entries ih =>
      intro fs hf
      rcases ih _ hf with hf | hf
      · rcases mem_insert hf with heq | hf
        · exact Or.inr (List.mem_cons.2 (Or.inl heq))
        · exact Or.inl hf
      · exact Or.inr (List.mem_cons_of_mem e hf)

@[simp] theorem names_map (f : α → β) (fs : List (String × α)) :
    names (fs.map fun p => (p.1, f p.2)) = names fs := by
  simp [names]

theorem get?_map (f : α → β) (fs : List (String × α)) (n : String) :
    get? (fs.map fun p => (p.1, f p.2)) n = (get? fs n).map f := by
  induction fs with
  | nil => rfl
  | cons p fs ih =>
      obtain ⟨m, a⟩ := p
      by_cases hm : m = n <;> simp [get?, hm, ih]

theorem insert_map (f : α → β) (fs : List (String × α)) (n : String) (a : α) :
    insert n (f a) (fs.map fun p => (p.1, f p.2)) =
      (insert n a fs).map fun p => (p.1, f p.2) := by
  induction fs with
  | nil => rfl
  | cons p fs ih =>
      obtain ⟨m, b⟩ := p
      rw [List.map_cons, insert, insert]
      split
      · rfl
      · split
        · rfl
        · rw [ih, List.map_cons]

/-- Fields in order are the same if every name has the same entry. -/
theorem eq_of_get? {fs gs : List (String × α)} (hfs : Sorted fs) (hgs : Sorted gs)
    (h : ∀ n, get? fs n = get? gs n) : fs = gs := by
  have hpairwise : ∀ {fs : List (String × α)}, Sorted fs → fs.Pairwise fun p q => p.1 < q.1 :=
    fun h => List.pairwise_map.1 h
  have hnodup : ∀ {fs : List (String × α)}, Sorted fs → fs.Nodup := by
    intro fs h
    refine (hpairwise h).imp ?_
    rintro p _ hlt rfl
    exact String.lt_irrefl _ hlt
  refine List.Perm.eq_of_pairwise (fun _ _ _ _ hlt hgt => absurd hgt (String.lt_asymm hlt))
    (hpairwise hfs) (hpairwise hgs) ((List.perm_ext_iff_of_nodup (hnodup hfs) (hnodup hgs)).2 ?_)
  rintro ⟨n, a⟩
  exact ⟨fun ha => mem_of_get? (h n ▸ get?_of_mem hfs ha),
    fun ha => mem_of_get? ((h n).symm ▸ get?_of_mem hgs ha)⟩

section Comparing

variable {R R' : α → β → Prop} {fs : List (String × α)} {gs : List (String × β)} {x : String} {a : α}
  {b : β}

/-- The fields have the same names, and entries that are related. -/
def Related (R : α → β → Prop) : List (String × α) → List (String × β) → Prop :=
  List.Forall₂ fun f g => f.1 = g.1 ∧ R f.2 g.2

theorem related_singleton : Related R [(x, a)] [(x, b)] ↔ R a b :=
  ⟨fun | .cons h .nil => h.2, fun h => .cons ⟨rfl, h⟩ .nil⟩

namespace Related

theorem imp (h : Related R fs gs) (himp : ∀ f ∈ fs, ∀ b, R f.2 b → R' f.2 b) :
    Related R' fs gs := by
  induction h with
  | nil => exact .nil
  | cons hfg _ ih =>
      exact .cons ⟨hfg.1, himp _ List.mem_cons_self _ hfg.2⟩
        (ih fun f hf => himp f (List.mem_cons_of_mem _ hf))

theorem get? (h : Related R fs gs) (hx : Fields.get? fs x = some a) :
    ∃ b, Fields.get? gs x = some b ∧ R a b := by
  induction h with
  | nil => simp [Fields.get?] at hx
  | @cons f g fs gs hfg _ ih =>
      obtain ⟨y, a'⟩ := f
      obtain ⟨z, b'⟩ := g
      obtain ⟨rfl, hab⟩ : y = z ∧ R a' b' := hfg
      by_cases hy : y = x
      · obtain rfl : a' = a := by simpa [Fields.get?, hy] using hx
        exact ⟨b', by simp [Fields.get?, hy], hab⟩
      · obtain ⟨b, hb, hr⟩ := ih (by simpa [Fields.get?, hy] using hx)
        exact ⟨b, by simpa [Fields.get?, hy] using hb, hr⟩

theorem names_eq (h : Related R fs gs) : names fs = names gs := by
  induction h with
  | nil => rfl
  | cons hfg _ ih =>
      rw [names, names, List.map_cons, List.map_cons, hfg.1]
      exact congrArg _ ih

theorem eq_iff {fs gs : List (String × α)} : Related Eq fs gs ↔ fs = gs := by
  have hpair : (fun f g : String × α => f.1 = g.1 ∧ f.2 = g.2) = Eq := by
    funext f g
    exact propext Prod.ext_iff.symm
  rw [Related, hpair, List.forall₂_eq_eq_eq]

theorem and_eq_iff {P : α → Prop} {fs gs : List (String × α)} :
    Related (fun a b => P a ∧ a = b) fs gs ↔ (∀ f ∈ fs, P f.2) ∧ fs = gs := by
  have hpair : (fun f g : String × α => f.1 = g.1 ∧ P f.2 ∧ f.2 = g.2) =
      fun f g => P f.2 ∧ f.1 = g.1 ∧ f.2 = g.2 := by
    funext f g
    exact propext and_left_comm
  rw [Related, hpair, List.forall₂_and_left, ← eq_iff, Related]

theorem rel_get? (h : Related R fs gs) (x : String) :
    Option.Rel R (Fields.get? fs x) (Fields.get? gs x) := by
  cases hx : Fields.get? fs x with
  | some a =>
      obtain ⟨b, hb, hab⟩ := h.get? hx
      exact hb ▸ .some hab
  | none =>
      rw [get?_eq_none, h.names_eq, ← get?_eq_none] at hx
      exact hx ▸ .none

theorem map_right {f : α → β} (h : ∀ p ∈ fs, R p.2 (f p.2)) :
    Related R fs (fs.map fun p => (p.1, f p.2)) := by
  induction fs with
  | nil => exact .nil
  | cons p fs ih =>
      exact .cons ⟨rfl, h p List.mem_cons_self⟩ (ih fun q hq => h q (List.mem_cons_of_mem _ hq))

theorem exists_of_mem (h : Related R fs gs) {f : String × α} (hf : f ∈ fs) :
    ∃ g ∈ gs, R f.2 g.2 := by
  induction h with
  | nil => simp at hf
  | @cons f' g _ _ hfg _ ih =>
      rcases List.mem_cons.1 hf with rfl | hf
      · exact ⟨g, List.mem_cons_self, hfg.2⟩
      · obtain ⟨g, hg, hr⟩ := ih hf
        exact ⟨g, List.mem_cons_of_mem _ hg, hr⟩

theorem swap (h : Related R fs gs) : Related (fun b a => R a b) gs fs := by
  induction h with
  | nil => exact .nil
  | cons hfg _ ih => exact .cons ⟨hfg.1.symm, hfg.2⟩ ih

theorem insert (h : Related R fs gs) (x : String) (hab : R a b) :
    Related R (Fields.insert x a fs) (Fields.insert x b gs) := by
  induction h with
  | nil => exact .cons ⟨rfl, hab⟩ .nil
  | @cons f g fs gs hfg hrest ih =>
      obtain ⟨y, a'⟩ := f
      obtain ⟨z, b'⟩ := g
      obtain ⟨rfl, hab'⟩ : y = z ∧ R a' b' := hfg
      unfold Fields.insert
      split
      · exact .cons ⟨rfl, hab⟩ (.cons ⟨rfl, hab'⟩ hrest)
      · split
        · exact .cons ⟨rfl, hab⟩ hrest
        · exact .cons ⟨rfl, hab'⟩ ih

theorem foldl_insert {names : List (String × α)} {names' : List (String × β)}
    (h : Related R fs gs) (hnames : Related R names names') :
    Related R (names.foldl (fun fs (x, a) => Fields.insert x a fs) fs)
      (names'.foldl (fun gs (x, b) => Fields.insert x b gs) gs) := by
  induction hnames generalizing fs gs with
  | nil => exact h
  | @cons f g _ _ hfg _ ih =>
      obtain ⟨y, a'⟩ := f
      obtain ⟨z, b'⟩ := g
      obtain ⟨rfl, hab'⟩ : y = z ∧ R a' b' := hfg
      exact ih (h.insert y hab')

end Related

end Comparing

end FieldML.Fields
