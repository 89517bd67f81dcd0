import FieldML.Proofs.Coverage.Matrix

/-!
# When a row is useful

A row is useful beside a matrix if it accepts some values that no row of the matrix accepts. For rows
that fit a list of types the analysis decides this. That useful rows are found needs nothing else; for
the converse the types must have values, and there must be an integer that the rows do not ask for.
-/

namespace FieldML.Coverage

variable {env : VariantEnv} {Held : Ty → Value → Prop} {rows : Matrix} {row rest : Row}
  {h : Head} {t : Ty} {ts us : List Ty} {v : Value} {vs ws : List Value} {m : Int64}

theorem isUseful_of_complete
    {sig : { sig : List (Head × Nat) // ∀ entry ∈ sig, entry.1 ∈ firstHeads rows }}
    (hcomplete : completeSignature env (firstHeads rows) = some sig) :
    isUseful env rows (.any :: rest) = sig.1.any fun entry =>
      isUseful env (specialize rows entry.1 entry.2) (List.replicate entry.2 .any ++ rest) := by
  obtain ⟨sig, hsig⟩ := sig
  have hattach : ∀ f : Head × Nat → Bool, (sig.attach.any fun entry => f entry.1) = sig.any f := by
    simp
  rw [isUseful, hcomplete, ← hattach]

theorem isUseful_of_incomplete (hnone : completeSignature env (firstHeads rows) = none) :
    isUseful env rows (.any :: rest) = isUseful env (defaultRows rows) rest := by
  rw [isUseful, hnone]

theorem isUseful_of_head {parts : List Case} :
    isUseful env rows (.of h parts :: rest) =
      isUseful env (specialize rows h parts.length) (parts ++ rest) := by
  rw [isUseful]

/-- The row accepts some values that no row of the matrix accepts. -/
def AcceptsNew (env : VariantEnv) (Held : Ty → Value → Prop) (rows : Matrix) (row : Row)
    (ts : List Ty) : Prop :=
  ∃ vs, List.Forall₂ (Value.HasType env Held) ts vs ∧ List.Forall₂ Case.Accepts row vs ∧
    ¬Covers rows vs

theorem acceptsNew_nil (hrows : RowsFit env rows []) :
    AcceptsNew env Held rows [] [] ↔ rows.isEmpty = true := by
  constructor
  · rintro ⟨vs, hvs, -, hnot⟩
    obtain rfl := List.forall₂_nil_left_iff.1 hvs
    rw [List.isEmpty_iff, List.eq_nil_iff_forall_not_mem]
    intro row hrow
    obtain rfl := List.forall₂_nil_right_iff.1 (hrows row hrow)
    exact hnot ⟨[], hrow, .nil⟩
  · intro hempty
    rw [List.isEmpty_iff] at hempty
    subst hempty
    exact ⟨[], .nil, .nil, by simp [Covers]⟩

/-- Values for the parts of a head and for the columns beside it, taken apart. -/
theorem exists_append_of_forall₂ (hvs : List.Forall₂ (Value.HasType env Held) (us ++ ts) vs) :
    ∃ ws rest, vs = ws ++ rest ∧ List.Forall₂ (Value.HasType env Held) us ws ∧
      List.Forall₂ (Value.HasType env Held) ts rest := by
  refine ⟨vs.take us.length, vs.drop us.length, (List.take_append_drop _ _).symm, ?_, ?_⟩
  · simpa using List.forall₂_take us.length hvs
  · simpa using List.forall₂_drop us.length hvs

/-- A row that begins with a head accepts something new exactly if its parts do among the rows for
that head. -/
theorem acceptsNew_of_head {parts : List Case} (hrows : RowsFit env rows (t :: ts))
    (hus : h.Splits env t us) (hparts : parts.length = us.length) :
    AcceptsNew env Held rows (.of h parts :: rest) (t :: ts) ↔
      AcceptsNew env Held (specialize rows h us.length) (parts ++ rest) (us ++ ts) := by
  constructor
  · rintro ⟨vs, hvs, haccepts, hnot⟩
    obtain ⟨v, vs, hv, hrest, rfl⟩ := List.forall₂_cons_left_iff.1 hvs
    obtain ⟨hhead, haccepts⟩ := List.forall₂_cons.1 haccepts
    obtain ⟨ws, hopen, hws⟩ := Case.accepts_of.1 hhead
    obtain ⟨h', us', ws', hopen', hus', htypes⟩ := hv.open hus
    obtain ⟨rfl, rfl⟩ := Prod.mk.inj (Option.some.inj (hopen.symm.trans hopen'))
    obtain rfl := hus'.unique hus
    refine ⟨ws ++ vs, List.rel_append htypes hrest, List.rel_append hws haccepts, fun hcovers => ?_⟩
    exact hnot ((covers_specialize hrows hus' hopen htypes.length_eq).1 hcovers)
  · rintro ⟨vs, hvs, haccepts, hnot⟩
    obtain ⟨ws, vs, rfl, hws, hrest⟩ := exists_append_of_forall₂ hvs
    obtain ⟨v, hv, hopen⟩ := hus.exists_value hws
    obtain ⟨hhead, haccepts⟩ := (forall₂_append_iff (hparts.trans hws.length_eq)).1 haccepts
    refine ⟨v :: vs, .cons hv hrest, .cons (.of hopen hhead) haccepts, fun hcovers => ?_⟩
    exact hnot ((covers_specialize hrows hus hopen hws.length_eq).2 hcovers)

/-- A row that begins with anything accepts something new exactly if it does so with some head of
the type in the first place. -/
theorem acceptsNew_any (hrows : RowsFit env rows (t :: ts)) (hh : h.Splits env t us) :
    AcceptsNew env Held rows (.any :: rest) (t :: ts) ↔ ∃ h' us', Head.Splits env h' t us' ∧
      AcceptsNew env Held (specialize rows h' us'.length)
        (List.replicate us'.length .any ++ rest) (us' ++ ts) := by
  constructor
  · rintro ⟨vs, hvs, haccepts, hnot⟩
    obtain ⟨v, vs, hv, hrest, rfl⟩ := List.forall₂_cons_left_iff.1 hvs
    obtain ⟨-, haccepts⟩ := List.forall₂_cons.1 haccepts
    obtain ⟨h', us', ws, hopen, hus', hws⟩ := hv.open hh
    refine ⟨h', us', hus', (acceptsNew_of_head hrows hus' (by simp)).1
      ⟨v :: vs, .cons hv hrest, .cons (.of hopen ?_) haccepts, hnot⟩⟩
    exact hws.length_eq ▸ Case.forall₂_replicate_any ws
  · rintro ⟨h', us', hus', hnew⟩
    obtain ⟨vs, hvs, haccepts, hnot⟩ := (acceptsNew_of_head hrows hus' (by simp)).2 hnew
    obtain ⟨v, vs, hv, hrest, rfl⟩ := List.forall₂_cons_left_iff.1 hvs
    exact ⟨v :: vs, hvs, .cons (.any v) (List.forall₂_cons.1 haccepts).2, hnot⟩

theorem AcceptsNew.defaultRows (hnew : AcceptsNew env Held rows (.any :: rest) (t :: ts)) :
    AcceptsNew env Held (defaultRows rows) rest ts := by
  obtain ⟨vs, hvs, haccepts, hnot⟩ := hnew
  obtain ⟨v, vs, hv, hrest, rfl⟩ := List.forall₂_cons_left_iff.1 hvs
  exact ⟨vs, hrest, (List.forall₂_cons.1 haccepts).2, fun hcovers => hnot (hcovers.of_defaultRows v)⟩

theorem AcceptsNew.of_defaultRows (henv : env.ListsAll) (hrows : RowsFit env rows (t :: ts))
    (hnone : completeSignature env (firstHeads rows) = none) (ht : t.Populated env Held)
    (hm : Spares rows m) (hnew : AcceptsNew env Held (Coverage.defaultRows rows) rest ts) :
    AcceptsNew env Held rows (.any :: rest) (t :: ts) := by
  obtain ⟨vs, hvs, haccepts, hnot⟩ := hnew
  obtain ⟨v, hv, -, hhead⟩ := exists_lacking henv hrows hnone ht hm
  exact ⟨v :: vs, .cons hv hvs, .cons (.any v) haccepts, fun hcovers =>
    hnot (hcovers.defaultRows hhead)⟩

theorem exists_splits_of_row {parts : List Case}
    (hrow : List.Forall₂ (Case.Fits env) (.of h parts :: rest) (t :: ts)) :
    ∃ us, h.Splits env t us ∧ List.Forall₂ (Case.Fits env) parts us ∧
      List.Forall₂ (Case.Fits env) (parts ++ rest) (us ++ ts) := by
  obtain ⟨hhead, hrest⟩ := List.forall₂_cons.1 hrow
  cases hhead with
  | of hus _ hparts => exact ⟨_, hus, hparts, List.rel_append hparts hrest⟩

theorem fits_any_append (us : List Ty) (hrest : List.Forall₂ (Case.Fits env) rest ts) :
    List.Forall₂ (Case.Fits env) (List.replicate us.length .any ++ rest) (us ++ ts) := by
  refine List.rel_append ?_ hrest
  induction us with
  | nil => exact .nil
  | cons u us ih => exact .cons (.any u) ih

/-- Whatever accepts something new is useful. -/
theorem isUseful_of_acceptsNew (henv : env.ListsAll) (hrows : RowsFit env rows ts)
    (hrow : List.Forall₂ (Case.Fits env) row ts) (hnew : AcceptsNew env Held rows row ts) :
    isUseful env rows row = true := by
  induction rows, row using isUseful.induct env generalizing ts with
  | case1 rows =>
      obtain rfl := List.forall₂_nil_left_iff.1 hrow
      rw [isUseful]
      exact (acceptsNew_nil hrows).1 hnew
  | case2 rows h parts rest ih =>
      obtain ⟨t, ts, -, -, rfl⟩ := List.forall₂_cons_left_iff.1 hrow
      obtain ⟨us, hus, hparts, hrow⟩ := exists_splits_of_row hrow
      have hlength := hparts.length_eq
      rw [isUseful_of_head]
      refine ih (hlength ▸ hrows.specialize hus) hrow ?_
      exact hlength ▸ (acceptsNew_of_head hrows hus hlength).1 hnew
  | case3 rows rest sig hsig hcomplete ih =>
      obtain ⟨t, ts, -, hrest, rfl⟩ := List.forall₂_cons_left_iff.1 hrow
      obtain ⟨hlists, h, us, hus⟩ := isSignature_of_complete henv hrows hcomplete
      obtain ⟨h', us', hus', hnew⟩ := (acceptsNew_any hrows hus).1 hnew
      have hentry : (h', us'.length) ∈ sig := (hlists h' _).2 ⟨us', hus', rfl⟩
      rw [isUseful_of_complete hcomplete, List.any_eq_true]
      exact ⟨_, hentry, ih _ hentry (hrows.specialize hus') (fits_any_append us' hrest) hnew⟩
  | case4 rows rest hnone ih =>
      obtain ⟨t, ts, -, hrest, rfl⟩ := List.forall₂_cons_left_iff.1 hrow
      rw [isUseful_of_incomplete hnone]
      exact ih hrows.defaultRows hrest hnew.defaultRows

/-- Whatever is useful accepts something new. -/
theorem acceptsNew_of_isUseful (henv : env.ListsAll) (hrows : RowsFit env rows ts)
    (hrow : List.Forall₂ (Case.Fits env) row ts) (hts : ∀ t ∈ ts, t.Populated env Held)
    (hm : Spares rows m) (huseful : isUseful env rows row = true) :
    AcceptsNew env Held rows row ts := by
  induction rows, row using isUseful.induct env generalizing ts with
  | case1 rows =>
      obtain rfl := List.forall₂_nil_left_iff.1 hrow
      rw [isUseful] at huseful
      exact (acceptsNew_nil hrows).2 huseful
  | case2 rows h parts rest ih =>
      obtain ⟨t, ts, -, -, rfl⟩ := List.forall₂_cons_left_iff.1 hrow
      obtain ⟨ht, hts⟩ := List.forall_mem_cons.1 hts
      obtain ⟨us, hus, hparts, hrow⟩ := exists_splits_of_row hrow
      have hlength := hparts.length_eq
      rw [isUseful_of_head] at huseful
      refine (acceptsNew_of_head hrows hus hlength).2 ?_
      rw [hlength] at huseful ih
      exact ih (hrows.specialize hus) hrow (List.forall_mem_append.2 ⟨ht.parts hus, hts⟩)
        hm.specialize huseful
  | case3 rows rest sig hsig hcomplete ih =>
      obtain ⟨t, ts, -, hrest, rfl⟩ := List.forall₂_cons_left_iff.1 hrow
      obtain ⟨ht, hts⟩ := List.forall_mem_cons.1 hts
      obtain ⟨hlists, h, us, hus⟩ := isSignature_of_complete henv hrows hcomplete
      rw [isUseful_of_complete hcomplete, List.any_eq_true] at huseful
      obtain ⟨⟨h', n⟩, hentry, huseful⟩ := huseful
      obtain ⟨us', hus', rfl⟩ := (hlists h' n).1 hentry
      refine (acceptsNew_any hrows hus).2 ⟨h', us', hus', ?_⟩
      exact ih _ hentry (hrows.specialize hus') (fits_any_append us' hrest)
        (List.forall_mem_append.2 ⟨ht.parts hus', hts⟩) hm.specialize huseful
  | case4 rows rest hnone ih =>
      obtain ⟨t, ts, -, hrest, rfl⟩ := List.forall₂_cons_left_iff.1 hrow
      obtain ⟨ht, hts⟩ := List.forall_mem_cons.1 hts
      rw [isUseful_of_incomplete hnone] at huseful
      exact (ih hrows.defaultRows hrest hts hm.defaultRows huseful).of_defaultRows henv hrows hnone
        ht hm

section Patterns

variable {patterns : List CorePattern} {i : Nat}

theorem mem_unused : i ∈ (analyze env patterns).unused ↔ ∃ p, patterns[i]? = some p ∧
    isUseful env ((patterns.take i).map fun p => [Case.ofPattern p]) [Case.ofPattern p] = false := by
  simp only [analyze, List.mem_map, List.mem_filter, Prod.exists, List.mem_zipIdx_iff_getElem?,
    List.getElem?_map, Option.map_eq_some_iff, Bool.not_eq_true', List.map_take]
  constructor
  · rintro ⟨row, j, ⟨⟨p, hp, rfl⟩, huseful⟩, rfl⟩
    exact ⟨p, hp, huseful⟩
  · rintro ⟨p, hp, huseful⟩
    exact ⟨_, i, ⟨⟨p, hp, rfl⟩, huseful⟩, rfl⟩

theorem acceptsNew_patterns {p : CorePattern} :
    AcceptsNew env Held (patterns.map fun p => [Case.ofPattern p]) [Case.ofPattern p] [t] ↔
      ∃ v, v.HasType env Held t ∧ (Case.ofPattern p).Accepts v ∧
        ∀ q ∈ patterns, ¬(Case.ofPattern q).Accepts v := by
  constructor
  · rintro ⟨vs, hvs, haccepts, hnot⟩
    obtain ⟨v, vs, hv, hnil, rfl⟩ := List.forall₂_cons_left_iff.1 hvs
    obtain rfl := List.forall₂_nil_left_iff.1 hnil
    exact ⟨v, hv, (List.forall₂_cons.1 haccepts).1, fun q hq hacc =>
      hnot (covers_patterns.2 ⟨q, hq, hacc⟩)⟩
  · rintro ⟨v, hv, haccepts, hnot⟩
    refine ⟨[v], .cons hv .nil, .cons haccepts .nil, fun hcovers => ?_⟩
    obtain ⟨q, hq, hacc⟩ := covers_patterns.1 hcovers
    exact hnot q hq hacc

/-- A pattern that is reported accepts nothing that no earlier one accepts. -/
theorem exists_earlier_of_mem_unused (henv : env.ListsAll)
    (hfit : ∀ p ∈ patterns, (Case.ofPattern p).Fits env t) {p : CorePattern}
    (hunused : i ∈ (analyze env patterns).unused) (hp : patterns[i]? = some p)
    (hv : v.HasType env Held t) (haccepts : (Case.ofPattern p).Accepts v) :
    ∃ q ∈ patterns.take i, (Case.ofPattern q).Accepts v := by
  obtain ⟨p', hp', huseless⟩ := mem_unused.1 hunused
  obtain rfl : p' = p := Option.some.inj (hp'.symm.trans hp)
  by_contra hnot
  push Not at hnot
  have huseful := isUseful_of_acceptsNew henv
    (rowsFit_patterns fun q hq => hfit q (List.mem_of_mem_take hq))
    (.cons (hfit p' (List.mem_of_getElem? hp)) .nil)
    (acceptsNew_patterns.2 ⟨v, hv, haccepts, hnot⟩)
  rw [huseless] at huseful
  cases huseful

/-- A pattern that is not reported accepts a value that no earlier one accepts. -/
theorem exists_new_of_notMem_unused (henv : env.ListsAll)
    (hfit : ∀ p ∈ patterns, (Case.ofPattern p).Fits env t) {p : CorePattern}
    (hused : i ∉ (analyze env patterns).unused) (hp : patterns[i]? = some p)
    (ht : t.Populated env Held)
    (hints : (Case.intsOfList (Case.ofPatterns patterns)).length < 2 ^ 64) :
    ∃ v, v.HasType env Held t ∧ (Case.ofPattern p).Accepts v ∧
      ∀ q ∈ patterns.take i, ¬(Case.ofPattern q).Accepts v := by
  have huseful : isUseful env ((patterns.take i).map fun p => [Case.ofPattern p])
      [Case.ofPattern p] = true := by
    by_contra huseless
    exact hused (mem_unused.2 ⟨p, hp, by simpa using huseless⟩)
  obtain ⟨m, hm⟩ := exists_int_notMem hints
  have hspares : Spares ((patterns.take i).map fun p => [Case.ofPattern p]) m := by
    intro row hrow
    rw [List.map_take] at hrow
    exact spares_patterns hm row (List.mem_of_mem_take hrow)
  refine acceptsNew_patterns.1 (acceptsNew_of_isUseful henv
    (rowsFit_patterns fun q hq => hfit q (List.mem_of_mem_take hq))
    (.cons (hfit p (List.mem_of_getElem? hp)) .nil) (by simpa using ht) hspares huseful)

end Patterns

end FieldML.Coverage
