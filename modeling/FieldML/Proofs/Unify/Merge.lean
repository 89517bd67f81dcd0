import FieldML.Proofs.Unify.Mirror
import FieldML.Proofs.Unify.Session

/-!
# Merging record kinds is a join

While no variable has a record kind, merging two kinds makes the types of their shared fields equal
and collects the fields of both. The order of the kinds does not matter, nor does their grouping as
long as synonyms use all their arguments: either way the merge succeeds or it fails, and the
outcomes are the same up to a renaming of the variables.
-/

namespace FieldML

namespace Kind

variable {θ : Assignment} {k l : Kind} {s : Substitution} {n : String}

/-- The second kind is the first one with other variables, once synonyms are expanded and ranges
are forgotten. -/
def SameUpTo (ρ : TypeVar → TypeVar) : Kind → Kind → Prop
  | .universal, .universal => True
  | .record fs, .record gs =>
      fs.map (fun p => (p.1, p.2.mono fun v => .var (ρ v))) =
        gs.map fun p => (p.1, p.2.mono .var)
  | _, _ => False

theorem sorted_applyKind (hk : Fields.Sorted k.fields) : Fields.Sorted (s.applyKind k).fields := by
  rw [Substitution.applyKind, fields_mapVars]
  exact (Fields.sorted_congr (Fields.names_map _ _)).2 hk

theorem forall_mem_applyKind {R : String × Ty → Prop} :
    (∀ p ∈ (s.applyKind k).fields, R p) ↔ ∀ p ∈ k.fields, R (p.1, s.apply p.2) := by
  rw [Substitution.applyKind, fields_mapVars, List.forall_mem_map]
  rfl

/-- A kind whose fields are in order and have types in which synonyms use all their arguments. -/
def Full (k : Kind) : Prop := Fields.Sorted k.fields ∧ ∀ p ∈ k.fields, p.2.Full

theorem Full.simple (hk : k.Full) : k.Simple True := ⟨hk.1, fun p hp => (hk.2 p hp).simple⟩

theorem Simple.full (hk : k.Simple False) : k.Full := ⟨hk.1, fun p hp => (hk.2 p hp).full⟩

/-- Kinds with the same names are the same up to a renaming if the types of their fields are. -/
theorem sameUpTo_of_get? {ρ : TypeVar → TypeVar} (hk : Fields.Sorted k.fields)
    (hl : Fields.Sorted l.fields) (huniversal : k = .universal ↔ l = .universal)
    (hnames : ∀ n, n ∈ Fields.names k.fields ↔ n ∈ Fields.names l.fields)
    (h : ∀ n t u, Fields.get? k.fields n = some t → Fields.get? l.fields n = some u →
      t.SameUpTo ρ u) : k.SameUpTo ρ l := by
  have hfields : (k.fields.map fun p => (p.1, p.2.mono fun v => .var (ρ v))) =
      l.fields.map fun p => (p.1, p.2.mono .var) := by
    refine Fields.eq_of_get? ((Fields.sorted_congr (Fields.names_map _ _)).2 hk)
      ((Fields.sorted_congr (Fields.names_map _ _)).2 hl) fun n => ?_
    rw [Fields.get?_map, Fields.get?_map]
    cases ht : Fields.get? k.fields n with
    | none =>
        have hu := Fields.get?_eq_none.2 (mt (hnames n).2 (Fields.get?_eq_none.1 ht))
        rw [hu, Option.map_none, Option.map_none]
    | some t =>
        cases hu : Fields.get? l.fields n with
        | none =>
            rw [Fields.get?_eq_none.2 (mt (hnames n).1 (Fields.get?_eq_none.1 hu))] at ht
            simp at ht
        | some u => exact congrArg some (h n t u ht hu)
  cases k with
  | universal =>
      obtain rfl := huniversal.1 rfl
      trivial
  | record fs =>
      cases l with
      | universal => simp at huniversal
      | record gs => exact hfields

/-- The types of shared fields mean the same. -/
def Compatible (θ : Assignment) (k l : Kind) : Prop :=
  ∀ n t u, Fields.get? k.fields n = some t → Fields.get? l.fields n = some u →
    t.ground θ = u.ground θ

theorem Compatible.symm (h : k.Compatible θ l) : l.Compatible θ k := fun n t u ht hu =>
  (h n u t hu ht).symm

theorem exists_get? (hn : n ∈ Fields.names k.fields) : ∃ t, Fields.get? k.fields n = some t :=
  Option.ne_none_iff_exists'.1 fun hnone => Fields.get?_eq_none.1 hnone hn

theorem mem_names_of_get? {t : Ty} (h : Fields.get? k.fields n = some t) :
    n ∈ Fields.names k.fields :=
  Fields.mem_names.2 ⟨t, Fields.mem_of_get? h⟩

/-- The kind asks for the fields of some kinds, each with a type that means the same as in all of
them to these assignments. -/
structure Collects (P : Assignment → Prop) (ks : List Kind) (k : Kind) : Prop where
  simple : k.Simple True
  universal : k = .universal ↔ ∀ l ∈ ks, l = .universal
  names : ∀ n, n ∈ Fields.names k.fields ↔ ∃ l ∈ ks, n ∈ Fields.names l.fields
  compatible : ∀ θ, P θ → ∀ l ∈ ks, k.Compatible θ l

namespace Collects

variable {P Q : Assignment → Prop} {ks ls : List Kind}

theorem single (hk : k.Simple True) : Collects P [k] k where
  simple := hk
  universal := by simp
  names n := by simp
  compatible θ _ l hl n t u ht hu := by
    obtain rfl := List.mem_singleton.1 hl
    rw [ht] at hu
    rw [Option.some.inj hu]

theorem mono (h : Collects P ks k) (hPQ : ∀ θ, Q θ → P θ) : Collects Q ks k :=
  ⟨h.simple, h.universal, h.names, fun θ hθ => h.compatible θ (hPQ θ hθ)⟩

/-- Kinds are compatible if those that they collect are. -/
theorem compatible_iff (hk : Collects P ks k) (hl : Collects P ls l) (hθ : P θ) :
    k.Compatible θ l ↔ ∀ x ∈ ks, ∀ y ∈ ls, x.Compatible θ y := by
  constructor
  · intro h x hx y hy n t u ht hu
    obtain ⟨t', ht'⟩ := exists_get? ((hk.names n).2 ⟨x, hx, mem_names_of_get? ht⟩)
    obtain ⟨u', hu'⟩ := exists_get? ((hl.names n).2 ⟨y, hy, mem_names_of_get? hu⟩)
    calc
      t.ground θ = t'.ground θ := (hk.compatible θ hθ x hx n t' t ht' ht).symm
      _ = u'.ground θ := h n t' u' ht' hu'
      _ = u.ground θ := hl.compatible θ hθ y hy n u' u hu' hu
  · intro h n t u ht hu
    obtain ⟨x, hx, hxn⟩ := (hk.names n).1 (mem_names_of_get? ht)
    obtain ⟨y, hy, hyn⟩ := (hl.names n).1 (mem_names_of_get? hu)
    obtain ⟨t', ht'⟩ := exists_get? hxn
    obtain ⟨u', hu'⟩ := exists_get? hyn
    calc
      t.ground θ = t'.ground θ := hk.compatible θ hθ x hx n t t' ht ht'
      _ = u'.ground θ := h x hx y hy n t' u' ht' hu'
      _ = u.ground θ := (hl.compatible θ hθ y hy n u u' hu hu').symm

/-- Applying a substitution changes nothing for its solutions. -/
theorem apply (h : Collects P ks k) (hs : s.Simple True) (hP : ∀ θ, P θ → s.SolvedBy θ) :
    Collects P ks (s.applyKind k) where
  simple := ⟨sorted_applyKind h.simple.1,
    forall_mem_applyKind.2 fun p hp => hs.apply (h.simple.2 p hp)⟩
  universal := by
    rw [← h.universal]
    cases k with
    | universal => simp [Substitution.applyKind_universal]
    | record fs => simp [Substitution.applyKind_record]
  names n := by
    rw [← h.names, Substitution.applyKind, fields_mapVars, Fields.names_map]
  compatible θ hθ l hl n t u ht hu := by
    rw [Substitution.applyKind, fields_mapVars, Fields.get?_map, Option.map_eq_some_iff] at ht
    obtain ⟨t', ht', rfl⟩ := ht
    have hground : (s.apply t').ground θ = t'.ground θ :=
      (hP θ hθ).ground_apply hs (h.simple.2 _ (Fields.mem_of_get? ht'))
    exact hground.trans (h.compatible θ hθ l hl n t' u ht' hu)

/-- The merge of two kinds collects what both of them collect. -/
theorem merge (hk : Collects P ks k) (hl : Collects P ls l)
    (hkl : ∀ θ, P θ → k.Compatible θ l) : Collects P (ks ++ ls) (Unify.mergedKind k l) where
  simple := Unify.mergedKind_simple hk.simple hl.simple
  universal := by
    have huniversal : Unify.mergedKind k l = .universal ↔ k = .universal ∧ l = .universal := by
      cases k <;> cases l <;> simp [Unify.mergedKind]
    rw [huniversal, hk.universal, hl.universal, List.forall_mem_append]
  names n := by
    have hget := Unify.get?_mergedKind (k := k) (m := n) hl.simple.1
    have hmem : n ∈ Fields.names (Unify.mergedKind k l).fields ↔
        n ∈ Fields.names k.fields ∨ n ∈ Fields.names l.fields := by
      simp only [← not_iff_not (a := n ∈ _), not_or, ← Fields.get?_eq_none, hget,
        Option.or_eq_none_iff]
    rw [hmem, hk.names, hl.names]
    simp only [List.mem_append, or_and_right, exists_or]
  compatible θ hθ x hx n t u ht hu := by
    rw [Unify.get?_mergedKind hl.simple.1] at ht
    rcases List.mem_append.1 hx with hx | hx
    · obtain ⟨t', ht'⟩ := exists_get? ((hk.names n).2 ⟨x, hx, mem_names_of_get? hu⟩)
      rw [ht', Option.some_or] at ht
      obtain rfl := Option.some.inj ht
      exact hk.compatible θ hθ x hx n t' u ht' hu
    · obtain ⟨u', hu'⟩ := exists_get? ((hl.names n).2 ⟨x, hx, mem_names_of_get? hu⟩)
      have hright : u'.ground θ = u.ground θ := hl.compatible θ hθ x hx n u' u hu' hu
      cases hkn : Fields.get? k.fields n with
      | none =>
          rw [hkn, Option.none_or, hu'] at ht
          exact Option.some.inj ht ▸ hright
      | some t' =>
          rw [hkn, Option.some_or] at ht
          obtain rfl := Option.some.inj ht
          exact (hkl θ hθ n t' u' hkn hu').trans hright

end Collects

end Kind

namespace Unify

open Solver

variable {syn : Prop} {θ : Assignment} {s s' : Solver} {k l : Kind} {n : Nat} {r : Option Reason}

theorem allEqual_sharedPairs_iff (hl : Fields.Sorted l.fields) :
    AllEqual θ (sharedPairs k l) ↔ k.Compatible θ l := by
  constructor
  · exact fun h n t u ht hu => h (t, u) (mem_sharedPairs_of_get? ht (Fields.mem_of_get? hu))
  · intro h p hp
    obtain ⟨n, ht, hu⟩ := mem_sharedPairs hp
    exact h n p.1 p.2 ht (Fields.get?_of_mem hl hu)

theorem sharedPairs_full (hk : k.Full) (hl : l.Full) : AllFull (sharedPairs k l) := by
  intro p hp
  obtain ⟨n, ht, hu⟩ := mem_sharedPairs hp
  exact ⟨hk.2 _ (Fields.mem_of_get? ht), hl.2 _ hu⟩

theorem size_record_fields (k : Kind) (r : Range) : (Ty.record k.fields r).size = k.size := by
  cases k <;> rfl

/-- Without record kinds, comparing shared fields ends by itself. -/
theorem Runs.ne_outOfFuel_of_shared
    (hrun : Runs (s.fuel (k.size + l.size)) s (sharedPairs k l) r s') (hs : s.Proper syn)
    (hk : k.Simple syn) (hl : l.Simple syn) (hplain : s.Plain) :
    r ≠ some .outOfFuel := by
  rw [← size_record_fields k .erased, ← size_record_fields l .erased] at hrun
  refine hrun.ne_outOfFuel_of_plain_inParts (fun p hp => ?_) hs (.record _ hk.1 hk.2)
    (.record _ hl.1 hl.2) hplain
  obtain ⟨n, ht, hu⟩ := mem_sharedPairs hp
  have hfield : ∀ {fs : List (String × Ty)} {q : String × Ty}, q ∈ fs →
      q.2.nodes ⊆ (Ty.record fs .erased).nodes := fun hq x hx =>
    List.mem_cons_of_mem _ (Ty.mem_nodesFields.2 ⟨_, hq, hx⟩)
  exact ⟨hfield (Fields.mem_of_get? ht), hfield hu⟩

end Unify

namespace Solver

open Unify

variable {P Q : Assignment → Prop} {s s' s₁ z : Solver} {k l m : Kind} {ks ls : List Kind}
  {x y : Except Contradiction Kind × Solver}

/-- Both attempts fail, or both succeed with the same kind and the same types for the variables, up
to a renaming that keeps free variables apart. -/
structure SameOutcome (x y : Except Contradiction Kind × Solver) : Prop where
  isOk : x.1.isOk = y.1.isOk
  same : ∀ k s l z, x = (.ok k, s) → y = (.ok l, z) →
    ∃ ρ : TypeVar → TypeVar, Set.InjOn ρ {v | s.subst.find? v = none} ∧ k.SameUpTo ρ l ∧
      ∀ t, t.Simple True → (s.subst.apply t).SameUpTo ρ (z.subst.apply t)

/-- A merge that succeeded: the state afterwards is solved by these assignments, and the merged kind
collects these kinds. -/
structure Merged (P : Assignment → Prop) (ks : List Kind) (s s' : Solver) (k : Kind) : Prop where
  binds : Binds True s s'
  solved : ∀ θ, s'.subst.SolvedBy θ ↔ P θ
  collects : k.Collects P ks
  applied : ∀ p ∈ k.fields, s'.subst.apply p.2 = p.2

/-- What becomes of the same kinds under the same assignments is the same up to a renaming. -/
theorem Merged.same (h : Merged P ks s s' k) (h' : Merged Q ls s z l) (hPQ : ∀ θ, P θ ↔ Q θ)
    (hmem : ∀ x, x ∈ ks ↔ x ∈ ls) :
    ∃ ρ : TypeVar → TypeVar, Set.InjOn ρ {v | s'.subst.find? v = none} ∧ k.SameUpTo ρ l ∧
      ∀ t, t.Simple True → (s'.subst.apply t).SameUpTo ρ (z.subst.apply t) := by
  have hs' := h.binds.proper.triangular
  have hz := h'.binds.proper.triangular
  obtain ⟨ρ, hρ, hsame⟩ := hs'.exists_renaming hz fun θ =>
    (h.solved θ).trans ((hPQ θ).trans (h'.solved θ).symm)
  have hmemnames : ∀ n, n ∈ Fields.names k.fields ↔ n ∈ Fields.names l.fields := fun n => by
    simp only [h.collects.names, h'.collects.names, hmem]
  refine ⟨ρ, hρ, Kind.sameUpTo_of_get? h.collects.simple.1 h'.collects.simple.1 ?_ hmemnames
    fun n t u ht hu => ?_, hsame⟩
  · simp only [h.collects.universal, h'.collects.universal, hmem]
  · have htk := Fields.mem_of_get? ht
    have hul := Fields.mem_of_get? hu
    have hst := h.collects.simple.2 _ htk
    have hsu := h'.collects.simple.2 _ hul
    -- The field has the type that it has in one of the kinds that were merged.
    obtain ⟨x, hx, hn⟩ := (h.collects.names n).1 (Kind.mem_names_of_get? ht)
    obtain ⟨t', ht'⟩ := Kind.exists_get? hn
    have hground : ∀ θ, z.subst.SolvedBy θ → t.ground θ = u.ground θ := fun θ hθ =>
      have hQ := (h'.solved θ).1 hθ
      (h.collects.compatible θ ((hPQ θ).2 hQ) x hx n t t' ht ht').trans
        (h'.collects.compatible θ hQ x ((hmem x).1 hx) n u t' hu ht').symm
    calc
      t.mono (fun v => .var (ρ v)) = (s'.subst.apply t).mono fun v => .var (ρ v) := by
        rw [h.applied _ htk]
      _ = (z.subst.apply t).mono .var := hsame t hst
      _ = (z.subst.apply u).mono .var := hz.mono_eq_of_ground_eq hst hsu hground
      _ = u.mono .var := by rw [h'.applied _ hul]

/-- The assignments under which two kinds that collect others can be merged. -/
def Merges (s : Solver) (ks ls : List Kind) (θ : Assignment) : Prop :=
  s.subst.SolvedBy θ ∧ ∀ x ∈ ks, ∀ y ∈ ls, x.Compatible θ y

/-- One merge of two kinds that collect others, if it succeeds. -/
theorem merged_unifyKinds (hs : s.Proper True) (hplain : s.Plain)
    (hks : k.Collects s.subst.SolvedBy ks) (hls : l.Collects s.subst.SolvedBy ls)
    (hok : s.unifyKinds k l = (.ok m, s')) : Merged (s.Merges ks ls) (ks ++ ls) s s' m := by
  have hs₀ : s.forget.Proper True := hs.forget
  obtain ⟨r, s₁, hrun, hunify⟩ := unifyKinds_runs hs.simple hks.simple hls.simple
  rw [hok] at hunify
  cases r with
  | some e => simp at hunify
  | none =>
      obtain ⟨hm, rfl⟩ := Prod.mk.inj hunify
      obtain rfl := Except.ok.inj hm
      have hpairs := sharedPairs_simple hks.simple hls.simple
      have hbinds : Binds True s s' := (hrun.binds hs₀ hpairs hplain).of_forget
      have hsolved : ∀ θ, s'.subst.SolvedBy θ ↔ s.Merges ks ls θ := fun θ =>
        (hrun.solvedBy_iff hs₀ hplain hpairs).trans (and_congr_right fun hθ => by
          rw [allEqual_sharedPairs_iff hls.simple.1, hks.compatible_iff hls hθ])
      have hmerge : (mergedKind k l).Collects (s.Merges ks ls) (ks ++ ls) :=
        (hks.mono fun θ hθ => hθ.1).merge (hls.mono fun θ hθ => hθ.1) fun θ hθ =>
          (hks.compatible_iff hls hθ.1).2 hθ.2
      have htri := hbinds.proper.triangular
      exact ⟨hbinds, hsolved, hmerge.apply htri.simple fun θ hθ => (hsolved θ).2 hθ,
        Kind.forall_mem_applyKind.2 fun p hp =>
          htri.apply_apply htri (.refl _) (hmerge.simple.2 p hp)⟩

/-- Where synonyms use all their arguments, a merge succeeds exactly if there is an assignment for
it, and then they still do. -/
theorem unifyKinds_of_full (hs : s.Proper True) (hplain : s.Plain) (hfull : s.subst.Full)
    (hk : k.Full) (hl : l.Full) (hks : k.Collects s.subst.SolvedBy ks)
    (hls : l.Collects s.subst.SolvedBy ls) :
    ((s.unifyKinds k l).1.isOk = true ↔ ∃ θ, s.Merges ks ls θ) ∧
      ∀ m s', s.unifyKinds k l = (.ok m, s') → s'.subst.Full ∧ m.Full := by
  have hs₀ : s.forget.Proper True := hs.forget
  obtain ⟨r, s₁, hrun, hunify⟩ := unifyKinds_runs hs.simple hk.simple hl.simple
  have hpairs := sharedPairs_full hk hl
  have hiff := hrun.eq_none_iff_of_full hs₀ hplain hfull hpairs
    (Runs.ne_outOfFuel_of_shared (s := s.forget) hrun hs₀ hk.simple hl.simple hplain)
  have hmerges : (∃ θ, s.forget.subst.SolvedBy θ ∧ AllEqual θ (sharedPairs k l)) ↔
      ∃ θ, s.Merges ks ls θ := exists_congr fun θ => and_congr_right fun hθ => by
    rw [allEqual_sharedPairs_iff hl.1, hks.compatible_iff hls hθ]
  rw [hunify, ← hmerges, ← hiff]
  cases r with
  | some e => simp [Except.isOk, Except.toBool]
  | none =>
      refine ⟨by simp [Except.isOk, Except.toBool], fun m s' hok => ?_⟩
      obtain ⟨hm, rfl⟩ := Prod.mk.inj hok
      obtain rfl := Except.ok.inj hm
      obtain ⟨-, hfull', -⟩ := hrun.full hplain hfull hpairs
      exact ⟨hfull', Kind.sorted_applyKind (mergedKind_simple hk.simple hl.simple).1,
        Kind.forall_mem_applyKind.2 fun p hp =>
          hfull'.apply ((mem_fields_mergedKind hp).elim (hk.2 p) (hl.2 p))⟩

/-- An attempt to merge some kinds succeeds if one of these assignments exists, and then has merged
the kinds. -/
structure MergesTo (P : Assignment → Prop) (ks : List Kind) (s : Solver)
    (x : Except Contradiction Kind × Solver) : Prop where
  isOk_iff : x.1.isOk = true ↔ ∃ θ, P θ
  merged : ∀ k s', x = (.ok k, s') → Merged P ks s s' k

theorem MergesTo.congr (h : MergesTo P ks s x) (hPQ : ∀ θ, P θ ↔ Q θ) : MergesTo Q ks s x where
  isOk_iff := h.isOk_iff.trans (exists_congr hPQ)
  merged k s' hx :=
    have hm := h.merged k s' hx
    ⟨hm.binds, fun θ => (hm.solved θ).trans (hPQ θ), hm.collects.mono fun θ => (hPQ θ).2,
      hm.applied⟩

theorem MergesTo.sameOutcome (h : MergesTo P ks s x) (h' : MergesTo Q ls s y)
    (hPQ : ∀ θ, P θ ↔ Q θ) (hmem : ∀ x, x ∈ ks ↔ x ∈ ls) : SameOutcome x y where
  isOk := Bool.eq_iff_iff.2 (h.isOk_iff.trans ((exists_congr hPQ).trans h'.isOk_iff.symm))
  same k s₁ l z hx hy := (h.merged k s₁ hx).same (h'.merged l z hy) hPQ hmem

/-- Goes on with the kind that the attempt led to, if it succeeded. -/
def andThen (x : Except Contradiction Kind × Solver)
    (f : Kind → Solver → Except Contradiction Kind × Solver) :
    Except Contradiction Kind × Solver :=
  match x with
  | (.ok k, s) => f k s
  | (.error e, s) => (.error e, s)

/-- Going on after a merge with another one. -/
theorem mergesTo_andThen {ms : List Kind}
    {f : Kind → Solver → Except Contradiction Kind × Solver} (hs : s.Proper True)
    (hplain : s.Plain) (hfull : s.subst.Full) (hk : k.Full) (hl : l.Full)
    (hks : k.Collects s.subst.SolvedBy ks) (hls : l.Collects s.subst.SolvedBy ls)
    (hf : ∀ m s₁, s₁.subst.Full → m.Full → Merged (s.Merges ks ls) (ks ++ ls) s s₁ m →
      MergesTo Q ms s₁ (f m s₁)) (hQ : ∀ θ, Q θ → s.Merges ks ls θ) :
    MergesTo Q ms s (andThen (s.unifyKinds k l) f) := by
  obtain ⟨hiff, hfulls⟩ := unifyKinds_of_full hs hplain hfull hk hl hks hls
  rcases hrun : s.unifyKinds k l with ⟨e | m, s₁⟩
  · rw [hrun] at hiff
    have hnone : ¬∃ θ, Q θ := fun ⟨θ, hθ⟩ => by
      simpa [Except.isOk, Except.toBool] using hiff.2 ⟨θ, hQ θ hθ⟩
    exact ⟨iff_of_false (by simp [andThen, Except.isOk, Except.toBool]) hnone,
      fun m s' hx => by simp [andThen] at hx⟩
  · have hm := merged_unifyKinds hs hplain hks hls hrun
    obtain ⟨hfull₁, hm'⟩ := hfulls m s₁ hrun
    obtain ⟨hiff', hmerged⟩ := hf m s₁ hfull₁ hm' hm
    refine ⟨hiff', fun k s' hx => ?_⟩
    have h := hmerged k s' hx
    exact ⟨hm.binds.trans h.binds, h.solved, h.collects, h.applied⟩

/-- Three kinds may be merged in either grouping. -/
theorem sameOutcome_grouping (hs : s.Proper True) (hplain : s.Plain) (hfull : s.subst.Full)
    (hk : k.Full) (hl : l.Full) (hm : m.Full) :
    SameOutcome (andThen (s.unifyKinds k l) fun kl s' => s'.unifyKinds kl m)
      (andThen (s.unifyKinds l m) fun lm s' => s'.unifyKinds k lm) := by
  have hleft : MergesTo (fun θ => s.Merges [k] [l] θ ∧ ∀ x ∈ [k, l], ∀ y ∈ [m], x.Compatible θ y)
      ([k, l] ++ [m]) s (andThen (s.unifyKinds k l) fun kl s' => s'.unifyKinds kl m) := by
    refine mergesTo_andThen hs hplain hfull hk hl (.single hk.simple) (.single hl.simple)
      (fun kl s₁ hfull₁ hkl h => ?_) fun θ hθ => hθ.1
    have hcollects := h.collects.mono fun θ => (h.solved θ).1
    obtain ⟨hiff, -⟩ := unifyKinds_of_full h.binds.proper h.binds.plain hfull₁ hkl hm hcollects
      (.single hm.simple)
    exact MergesTo.congr ⟨hiff, fun _ _ => merged_unifyKinds h.binds.proper h.binds.plain hcollects
      (.single hm.simple)⟩ fun θ => and_congr_left' (h.solved θ)
  have hright : MergesTo (fun θ => s.Merges [l] [m] θ ∧ ∀ x ∈ [k], ∀ y ∈ [l, m], x.Compatible θ y)
      ([k] ++ [l, m]) s (andThen (s.unifyKinds l m) fun lm s' => s'.unifyKinds k lm) := by
    refine mergesTo_andThen hs hplain hfull hl hm (.single hl.simple) (.single hm.simple)
      (fun lm s₁ hfull₁ hlm h => ?_) fun θ hθ => hθ.1
    have hcollects := h.collects.mono fun θ => (h.solved θ).1
    obtain ⟨hiff, -⟩ := unifyKinds_of_full h.binds.proper h.binds.plain hfull₁ hk hlm
      (.single hk.simple) hcollects
    exact MergesTo.congr ⟨hiff, fun _ _ => merged_unifyKinds h.binds.proper h.binds.plain
      (.single hk.simple) hcollects⟩ fun θ => and_congr_left' (h.solved θ)
  refine hleft.sameOutcome hright (fun θ => ?_) fun x => by simp
  simp only [Merges, List.forall_mem_cons]
  tauto

/-- A merge succeeds exactly if it does the other way round. -/
theorem isOk_unifyKinds_swap (hs : s.Proper True) (hplain : s.Plain) (hk : k.Simple True)
    (hl : l.Simple True) : (s.unifyKinds k l).1.isOk = (s.unifyKinds l k).1.isOk := by
  have hs₀ : s.forget.Proper True := hs.forget
  obtain ⟨r, s₁, hrun, hunify⟩ := unifyKinds_runs hs.simple hk hl
  obtain ⟨r', s₁', hrun', hunify'⟩ := unifyKinds_runs hs.simple hl hk
  have hfuel := Runs.ne_outOfFuel_of_shared (s := s.forget) hrun hs₀ hk hl hplain
  have hfuel' := Runs.ne_outOfFuel_of_shared (s := s.forget) hrun' hs₀ hl hk hplain
  have hpairs := sharedPairs_simple hk hl
  have hmirrored : Mirrored (Equiv.refl _) s.forget.subst s.forget.subst (sharedPairs k l)
      (sharedPairs l k) := by
    rw [sharedPairs_swap hk.1 hl.1]
    exact mirrored_swap hs.triangular.simple hpairs
  obtain ⟨hiff, -⟩ := hrun.mirror hrun' (.same hs₀ hplain) hpairs (sharedPairs_simple hl hk)
    hmirrored hfuel hfuel'
  rw [hunify, hunify']
  cases r <;> cases r' <;> simp [Except.isOk, Except.toBool] at hiff ⊢

theorem sameOutcome_swap (hs : s.Proper True) (hplain : s.Plain) (hk : k.Simple True)
    (hl : l.Simple True) : SameOutcome (s.unifyKinds k l) (s.unifyKinds l k) where
  isOk := isOk_unifyKinds_swap hs hplain hk hl
  same kl s₁ lk z hx hy := by
    have hleft := merged_unifyKinds hs hplain (.single hk) (.single hl) hx
    have hright := merged_unifyKinds hs hplain (.single hl) (.single hk) hy
    refine hleft.same hright (fun θ => and_congr_right fun _ => ?_) fun x => by simp [or_comm]
    simp only [List.forall_mem_singleton]
    exact ⟨Kind.Compatible.symm, Kind.Compatible.symm⟩

theorem mergedKind_self (hk : Fields.Sorted k.fields) : mergedKind k k = k := by
  cases k with
  | universal => rfl
  | record fs =>
      have hfs : Fields.Sorted fs := hk
      refine congrArg Kind.record (Fields.eq_of_get? (sorted_mergeFields hfs fs) hfs fun n => ?_)
      rw [get?_mergeFields hfs, Option.or_self]

/-- Merging a kind with itself binds nothing. -/
theorem unifyKinds_self (hs : s.Proper True) (hplain : s.Plain) (hk : k.Simple True) :
    (s.unifyKinds k k).1 = .ok (s.subst.applyKind k) ∧ (s.unifyKinds k k).2.subst = s.subst := by
  have hs₀ : s.forget.Proper True := hs.forget
  obtain ⟨r, s₁, hrun, hunify⟩ := unifyKinds_runs hs.simple hk hk
  have hsame : AllSame (sharedPairs k k) := by
    intro p hp
    obtain ⟨n, ht, hu⟩ := mem_sharedPairs hp
    exact Option.some.inj (ht.symm.trans (Fields.get?_of_mem hk.1 hu))
  obtain ⟨hr, hsubst⟩ := hrun.of_allSame hs₀.simple (sharedPairs_simple hk hk) hsame
  obtain rfl := hr.resolve_right
    (Runs.ne_outOfFuel_of_shared (s := s.forget) hrun hs₀ hk hk hplain)
  have hsubst : s₁.subst = s.subst := hsubst
  rw [hunify, ← hsubst]
  exact ⟨by rw [mergedKind_self hk.1], rfl⟩

/-! ### After any calls -/

/-- The synonyms in the types of the call use all their arguments. -/
def Request.Full : Request → Prop
  | types a b => a.Full ∧ b.Full
  | kinds k l => k.Full ∧ l.Full

theorem Request.Full.pairs {q : Request} (hq : q.Full) : AllFull q.pairs := by
  cases q with
  | types a b => exact List.forall_mem_singleton.2 hq
  | kinds k l => exact sharedPairs_full hq.1 hq.2

theorem Plain.request {q : Request} (hplain : s.Plain) (hs : s.Proper True) (hq : q.Simple True) :
    Binds True s (q.run s).2 := by
  have hs₀ : s.forget.Proper True := hs.forget
  rcases Request.run_cases hs.simple hq with ⟨-, hrun⟩ | ⟨-, hsubst, hkinds⟩
  · exact (hrun.binds hs₀ hq.pairs hplain).of_forget
  · have hkind : (q.run s).2.kindOf = s.kindOf := congrArg KindEnv.kindOf hkinds
    exact ⟨⟨hsubst ▸ hs.triangular, hkind ▸ hs.kind⟩, fun v => hkind ▸ hplain v,
      hsubst ▸ .refl _⟩

/-- Whatever calls are made, there are no record kinds. -/
theorem Plain.answer {qs : List Request} (hplain : s.Plain) (hs : s.Proper True)
    (hqs : ∀ q ∈ qs, q.Simple True) : Binds True s (s.answer qs) := by
  induction qs generalizing s with
  | nil => exact .refl hs hplain
  | cons q qs ih =>
      obtain ⟨hq, hqs⟩ := List.forall_mem_cons.1 hqs
      have h := hplain.request hs hq
      exact h.trans (ih h.plain h.proper hqs)

theorem Plain.full_answer {qs : List Request} (hplain : s.Plain) (hs : s.Proper True)
    (hfull : s.subst.Full) (hqs : ∀ q ∈ qs, q.Simple True) (hfulls : ∀ q ∈ qs, q.Full) :
    (s.answer qs).subst.Full := by
  induction qs generalizing s with
  | nil => exact hfull
  | cons q qs ih =>
      obtain ⟨hq, hqs⟩ := List.forall_mem_cons.1 hqs
      obtain ⟨hqfull, hfulls⟩ := List.forall_mem_cons.1 hfulls
      have h := hplain.request hs hq
      refine ih h.plain h.proper ?_ hqs hfulls
      rcases Request.run_cases hs.simple hq with ⟨-, hrun⟩ | ⟨-, hsubst, -⟩
      · exact (hrun.full hplain hfull hqfull.pairs).2.1
      · exact hsubst ▸ hfull

/-- What the merge of kinds is after some calls. -/
structure Joins (qs : List Request) (k l m : Kind) (s : Solver) : Prop where
  commutes : SameOutcome (s.unifyKinds k l) (s.unifyKinds l k)
  names : ∀ kl s', s.unifyKinds k l = (.ok kl, s') →
    ∀ n, n ∈ Fields.names kl.fields ↔ n ∈ Fields.names k.fields ∨ n ∈ Fields.names l.fields
  associates : (∀ q ∈ qs, q.Full) →
    SameOutcome (andThen (s.unifyKinds k l) fun kl s' => s'.unifyKinds kl m)
      (andThen (s.unifyKinds l m) fun lm s' => s'.unifyKinds k lm)
  idempotent : (s.unifyKinds k k).1 = .ok (s.subst.applyKind k) ∧
    (s.unifyKinds k k).2.subst = s.subst

/-- Merging kinds over types without synonyms is a join, whichever calls were made before and
whichever of them succeeded, if no variable has a record kind; but if a synonym in one of the calls
leaves an argument unused, then the grouping may matter. -/
theorem joins_answer {env : KindEnv} (henv : ∀ v, env.kindOf v = .universal) {qs : List Request}
    (hqs : ∀ q ∈ qs, q.Simple True) (hk : k.Simple False) (hl : l.Simple False)
    (hm : m.Simple False) : Joins qs k l m (({ kinds := env } : Solver).answer qs) := by
  have hplain₀ : Plain { kinds := env } := henv
  have hs₀ : Proper True { kinds := env } := hplain₀.proper .empty
  have hbinds := hplain₀.answer hs₀ hqs
  have hfull := hplain₀.full_answer hs₀ Substitution.full_empty hqs
  generalize ({ kinds := env } : Solver).answer qs = s at hbinds hfull ⊢
  have hk' := hk.full.simple
  have hl' := hl.full.simple
  refine ⟨sameOutcome_swap hbinds.proper hbinds.plain hk' hl', fun kl s' hok n => ?_,
    fun hfulls => sameOutcome_grouping hbinds.proper hbinds.plain (hfull hfulls) hk.full hl.full
      hm.full, unifyKinds_self hbinds.proper hbinds.plain hk'⟩
  have h := merged_unifyKinds hbinds.proper hbinds.plain (.single hk') (.single hl') hok
  rw [h.collects.names]
  simp

/-- A pair of a synonym for pairs of one type is unified with a pair of variables, and two kinds
with one shared field are merged. -/
def pairCalls : List Request :=
  let twice := Ty.synonym "twice" [.var 0 .erased]
    (.product [.var 0 .erased, .var 0 .erased] .erased) .erased
  [.types (.list twice .erased) (.list (.product [.var 1 .erased, .var 2 .erased] .erased) .erased),
    .kinds (.record [("a", .var 3 .erased)]) (.record [("a", .list (.var 4 .erased) .erased)])]

theorem simple_pairCalls : ∀ q ∈ pairCalls, q.Simple True := by
  have htwice : (Ty.synonym "twice" [.var 0 .erased]
      (.product [.var 0 .erased, .var 0 .erased] .erased) .erased).Simple True :=
    .synonym _ _ trivial (by simp [Ty.Simple.var]) (.product _ (by simp [Ty.Simple.var]))
      (by simp [Ty.freeVars, Ty.freeVarsUnder, Ty.freeVarsOfList])
  intro q hq
  simp only [pairCalls, List.mem_cons, List.not_mem_nil, or_false] at hq
  rcases hq with rfl | rfl
  · exact ⟨.list _ htwice, .list _ (.product _ (by simp [Ty.Simple.var]))⟩
  · exact ⟨⟨List.pairwise_singleton _ _, by simp [Kind.fields, Ty.Simple.var]⟩,
      ⟨List.pairwise_singleton _ _, by simp [Kind.fields, Ty.Simple.var, Ty.Simple.list]⟩⟩

theorem joins_answer_pairCalls :
    let k := Kind.record [("a", .var 1 .erased), ("b", .var 5 .erased)]
    let l := Kind.record [("a", .list (.var 6 .erased) .erased), ("c", .var 3 .erased)]
    let m := Kind.record [("a", .list (.base .int .erased) .erased), ("b", .var 4 .erased)]
    let s := ({ kinds := .empty } : Solver).answer pairCalls
    (andThen (s.unifyKinds k l) fun kl s' => s'.unifyKinds kl m).1.isOk = true ∧
      Joins pairCalls k l m s := by
  refine ⟨by rfl, joins_answer (fun v => KindEnv.kindOf_empty v) simple_pairCalls ⟨by decide, ?_⟩
    ⟨by decide, ?_⟩ ⟨by decide, ?_⟩⟩ <;>
    simp [Kind.fields, Ty.Simple.var, Ty.Simple.list, Ty.Simple.base]

/-- A synonym for integers that ignores its argument is known of a variable. The kinds that ask for
a list of it, for a list of integers and for its own argument can be merged only if the last two of
them are merged first. -/
theorem grouping_matters_unusedArgument :
    let ignores := Ty.synonym "k" [.var 0 .erased] (.base .int .erased) .erased
    let q := Request.types (.var 3 .erased) (.list ignores .erased)
    let s := ({ kinds := .empty } : Solver).answer [q]
    let k := Kind.record [("x", .var 3 .erased)]
    let l := Kind.record [("x", .list (.base .int .erased) .erased)]
    let m := Kind.record [("x", .var 0 .erased)]
    q.Simple True ∧ k.Simple False ∧ l.Simple False ∧ m.Simple False ∧
      (andThen (s.unifyKinds k l) fun kl s' => s'.unifyKinds kl m).1.isOk = false ∧
      (andThen (s.unifyKinds l m) fun lm s' => s'.unifyKinds k lm).1.isOk = true := by
  refine ⟨⟨.var _ _, .list _ (.synonym _ _ trivial ?_ (.base _ _) ?_)⟩, ⟨by decide, ?_⟩,
    ⟨by decide, ?_⟩, ⟨by decide, ?_⟩, by rfl, by rfl⟩ <;>
    simp [Kind.fields, Ty.Simple.var, Ty.Simple.list, Ty.Simple.base]

end Solver

end FieldML
