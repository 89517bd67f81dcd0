import FieldML.Proofs.Coverage.Useful

/-!
# The row that is missing

The row that the search for a missing row finds is useful beside the matrix. It fits the types that
the rows fit, and its heads are of the types of heads that the rows have.
-/

namespace FieldML

/-- Every head in the case has the property. -/
inductive Case.Each (P : Head → Prop) : Case → Prop
  | any : Each P .any
  | of {h : Head} {cs : List Case} (hh : P h) (hcs : ∀ c ∈ cs, Each P c) : Each P (.of h cs)

namespace Coverage

variable {env : VariantEnv} {rows : Matrix} {row rest : Row} {h : Head} {n width : Nat} {t : Ty}
  {ts : List Ty} {P Q : Head → Prop}

/-- What is lacking is anything, or a head that belongs with one that is there, with anything as its
parts. -/
theorem lackingCase_cases (env : VariantEnv) (heads : List Head) :
    lackingCase env heads = .any ∨ ∃ h ∈ heads, ∃ sig, signature env h = some sig ∧
      ∃ entry ∈ sig, entry.1 ∉ heads ∧
        lackingCase env heads = .of entry.1 (List.replicate entry.2 .any) := by
  unfold lackingCase
  cases hhead : heads.head? with
  | none => exact Or.inl rfl
  | some h =>
      cases hsig : signature env h with
      | none => exact Or.inl (by simp [hsig])
      | some sig =>
          simp only [Option.bind_eq_bind, Option.bind_some, hsig]
          cases hfind : sig.find? fun entry => entry.1 ∉ heads with
          | none => exact Or.inl rfl
          | some entry =>
              exact Or.inr ⟨h, List.mem_of_head? hhead, sig, hsig, entry,
                List.mem_of_find?_eq_some hfind, by simpa using List.find?_some hfind, rfl⟩

/-! ### It fits the types -/

theorem fits_lackingCase (henv : env.ListsAll) (hrows : RowsFit env rows (t :: ts)) :
    (lackingCase env (firstHeads rows)).Fits env t := by
  rcases lackingCase_cases env (firstHeads rows) with hany | ⟨h, hh, sig, hsig, entry, hentry, -, heq⟩
  · rw [hany]
    exact .any t
  · obtain ⟨hargs, us, hus⟩ := exists_splits_of_mem_firstHeads hrows hh
    rcases signature_of_splits henv hus with ⟨sig', hsig', hlists⟩ | ⟨hnone, -⟩
    · obtain rfl := Option.some.inj (hsig.symm.trans hsig')
      obtain ⟨us', hus', hlength⟩ := (hlists entry.1 entry.2).1 hentry
      rw [heq, ← hlength]
      have hnil : List.Forall₂ (Case.Fits env) [] [] := .nil
      have hparts := fits_any_append us' hnil
      rw [List.append_nil, List.append_nil] at hparts
      exact .of hus' hargs hparts
    · rw [hnone] at hsig
      cases hsig

/-- The missing row fits the types that the rows fit. -/
theorem fits_missing (henv : env.ListsAll) (hrows : RowsFit env rows ts)
    (hwidth : ts.length = width)
    (h : missing env rows width = some row) : List.Forall₂ (Case.Fits env) row ts := by
  induction rows, width using missing.induct env generalizing ts row with
  | case1 rows hempty =>
      obtain rfl := List.length_eq_zero_iff.1 hwidth
      obtain rfl := List.length_eq_zero_iff.1 (length_of_missing h)
      exact .nil
  | case2 rows hempty =>
      rw [missing, if_neg hempty] at h
      cases h
  | case3 rows width sig hsig hcomplete ih =>
      obtain ⟨t, ts, rfl⟩ := List.exists_cons_of_length_eq_add_one hwidth
      rw [missing_of_complete hcomplete] at h
      obtain ⟨entry, hentry, hmap⟩ := List.exists_of_findSome?_eq_some h
      obtain ⟨row', hrow', rfl⟩ := Option.map_eq_some_iff.1 hmap
      obtain ⟨us, hus, hlength⟩ :=
        ((isSignature_of_complete henv hrows hcomplete).1 entry.1 entry.2).1 hentry
      have hfits := ih entry hentry (hlength ▸ hrows.specialize hus)
        (by simp [hlength, Nat.succ.inj hwidth]) hrow'
      have hparts : List.Forall₂ (Case.Fits env) (row'.take entry.2) us := by
        simpa [← hlength] using List.forall₂_take us.length hfits
      have hrest : List.Forall₂ (Case.Fits env) (row'.drop entry.2) ts := by
        simpa [← hlength] using List.forall₂_drop us.length hfits
      obtain ⟨h, hh, -⟩ := exists_of_completeSignature hcomplete
      exact .cons (.of hus (exists_splits_of_mem_firstHeads hrows hh).1 hparts) hrest
  | case4 rows width hcomplete ih =>
      obtain ⟨t, ts, rfl⟩ := List.exists_cons_of_length_eq_add_one hwidth
      rw [missing_of_incomplete hcomplete] at h
      obtain ⟨row', hrow', rfl⟩ := Option.map_eq_some_iff.1 h
      exact .cons (fits_lackingCase henv hrows)
        (ih hrows.defaultRows (by simpa using hwidth) hrow')

/-- The missing case fits the type that the patterns fit. -/
theorem fits_of_missing {patterns : List CorePattern} {c : Case} (henv : env.ListsAll)
    (hfit : ∀ p ∈ patterns, (Case.ofPattern p).Fits env t)
    (h : (analyze env patterns).missing = some c) : c.Fits env t := by
  obtain ⟨row, hmissing, hhead⟩ := Option.bind_eq_some_iff.1 h
  obtain ⟨d, rfl⟩ := List.length_eq_one_iff.1 (length_of_missing hmissing)
  obtain rfl : d = c := Option.some.inj hhead
  exact (List.forall₂_cons.1 (fits_missing henv (rowsFit_patterns hfit) rfl hmissing)).1

/-! ### Its heads -/

theorem each_of_specialize (hrows : ∀ row ∈ rows, ∀ c ∈ row, c.Each P) :
    ∀ row ∈ specialize rows h n, ∀ c ∈ row, c.Each P := by
  intro row hrow c hc
  rcases mem_specialize.1 hrow with ⟨rest, hmem, rfl⟩ | ⟨parts, rest, hmem, rfl⟩
  · rcases List.mem_append.1 hc with hc | hc
    · obtain rfl := List.eq_of_mem_replicate hc
      exact .any
    · exact hrows _ hmem c (List.mem_cons_of_mem _ hc)
  · rcases List.mem_append.1 hc with hc | hc
    · cases hrows _ hmem _ List.mem_cons_self with
      | of _ hparts => exact hparts c hc
    · exact hrows _ hmem c (List.mem_cons_of_mem _ hc)

theorem each_of_defaultRows (hrows : ∀ row ∈ rows, ∀ c ∈ row, c.Each P) :
    ∀ row ∈ defaultRows rows, ∀ c ∈ row, c.Each P := fun _ hrow c hc =>
  hrows _ (mem_defaultRows.1 hrow) c (List.mem_cons_of_mem _ hc)

theorem of_mem_firstHeads (hrows : ∀ row ∈ rows, ∀ c ∈ row, c.Each P) (hh : h ∈ firstHeads rows) :
    P h := by
  obtain ⟨parts, rest, hmem⟩ := mem_firstHeads.1 hh
  cases hrows _ hmem _ List.mem_cons_self with
  | of hh _ => exact hh

/-- The missing row has only heads that belong with heads in the rows. -/
theorem each_missing
    (hsig : ∀ h sig, P h → signature env h = some sig → ∀ entry ∈ sig, Q entry.1)
    (hrows : ∀ row ∈ rows, ∀ c ∈ row, c.Each P) (h : missing env rows width = some row) :
    ∀ c ∈ row, c.Each Q := by
  induction rows, width using missing.induct env generalizing row with
  | case1 rows hempty =>
      obtain rfl := List.length_eq_zero_iff.1 (length_of_missing h)
      exact List.forall_mem_nil _
  | case2 rows hempty =>
      rw [missing, if_neg hempty] at h
      cases h
  | case3 rows width sig hsigmem hcomplete ih =>
      rw [missing_of_complete hcomplete] at h
      obtain ⟨entry, hentry, hmap⟩ := List.exists_of_findSome?_eq_some h
      obtain ⟨row', hrow', rfl⟩ := Option.map_eq_some_iff.1 hmap
      obtain ⟨head, hhead, hsignature⟩ := exists_of_completeSignature hcomplete
      have heach := ih entry hentry (each_of_specialize hrows) hrow'
      refine List.forall_mem_cons.2 ⟨.of ?_ ?_, ?_⟩
      · exact hsig head sig (of_mem_firstHeads hrows hhead) hsignature entry hentry
      · exact fun c hc => heach c (List.mem_of_mem_take hc)
      · exact fun c hc => heach c (List.mem_of_mem_drop hc)
  | case4 rows width hcomplete ih =>
      rw [missing_of_incomplete hcomplete] at h
      obtain ⟨row', hrow', rfl⟩ := Option.map_eq_some_iff.1 h
      refine List.forall_mem_cons.2 ⟨?_, ih (each_of_defaultRows hrows) hrow'⟩
      rcases lackingCase_cases env (firstHeads rows) with
        hany | ⟨head, hhead, sig, hsignature, entry, hentry, -, heq⟩
      · rw [hany]
        exact .any
      · rw [heq]
        refine .of (hsig head sig (of_mem_firstHeads hrows hhead) hsignature entry hentry) ?_
        intro c hc
        obtain rfl := List.eq_of_mem_replicate hc
        exact .any

/-! ### It is useful -/

/-- Rows without the head are specialized to what comes after anything. -/
theorem specialize_of_notMem (hh : h ∉ firstHeads rows) :
    specialize rows h n = (defaultRows rows).map (List.replicate n .any ++ ·) := by
  have hne : ∀ row ∈ rows, ∀ h' parts rest, row = .of h' parts :: rest → h' ≠ h := by
    rintro _ hrow h' parts rest rfl rfl
    exact hh (mem_firstHeads.2 ⟨parts, rest, hrow⟩)
  clear hh
  unfold specialize defaultRows
  induction rows with
  | nil => rfl
  | cons row rows ih =>
      obtain ⟨hrow, hrows⟩ := List.forall_mem_cons.1 hne
      rw [List.filterMap_cons, List.filterMap_cons]
      match row with
      | [] => exact ih hrows
      | .any :: rest => exact congrArg (_ :: ·) (ih hrows)
      | .of h' parts :: rest =>
          simp only [if_neg (hrow h' parts rest rfl)]
          exact ih hrows

theorem defaultRows_map_any (rows : Matrix) : defaultRows (rows.map (.any :: ·)) = rows := by
  unfold defaultRows
  induction rows with
  | nil => rfl
  | cons row rows ih =>
      rw [List.map_cons, List.filterMap_cons]
      exact congrArg (row :: ·) ih

/-- A column of anything decides nothing. -/
theorem isUseful_map_any (rows : Matrix) (row : Row) :
    isUseful env (rows.map (.any :: ·)) (.any :: row) = isUseful env rows row := by
  have hheads : firstHeads (rows.map (.any :: ·)) = [] := by
    refine List.eq_nil_iff_forall_not_mem.2 fun h hh => ?_
    obtain ⟨parts, rest, hmem⟩ := mem_firstHeads.1 hh
    obtain ⟨_, -, heq⟩ := List.mem_map.1 hmem
    cases heq
  have hnone : completeSignature env (firstHeads (rows.map (.any :: ·))) = none := by
    rw [hheads]
    rfl
  rw [isUseful_of_incomplete hnone, defaultRows_map_any]

theorem isUseful_map_replicate (n : Nat) (rows : Matrix) (row : Row) :
    isUseful env (rows.map (List.replicate n .any ++ ·)) (List.replicate n .any ++ row) =
      isUseful env rows row := by
  induction n generalizing rows row with
  | zero => simp
  | succ n ih =>
      have hmap : rows.map (List.replicate (n + 1) .any ++ ·) =
          (rows.map (List.replicate n .any ++ ·)).map (.any :: ·) := by
        rw [List.map_map]
        rfl
      rw [hmap, List.replicate_succ, List.cons_append, isUseful_map_any, ih]

/-- The missing row is useful beside the rows. -/
theorem isUseful_missing (h : missing env rows width = some row) :
    isUseful env rows row = true := by
  induction rows, width using missing.induct env generalizing row with
  | case1 rows hempty =>
      obtain rfl := List.length_eq_zero_iff.1 (length_of_missing h)
      rwa [isUseful]
  | case2 rows hempty =>
      rw [missing, if_neg hempty] at h
      cases h
  | case3 rows width sig hsig hcomplete ih =>
      rw [missing_of_complete hcomplete] at h
      obtain ⟨entry, hentry, hmap⟩ := List.exists_of_findSome?_eq_some h
      obtain ⟨row', hrow', rfl⟩ := Option.map_eq_some_iff.1 hmap
      have hlength : (row'.take entry.2).length = entry.2 := by
        simp [length_of_missing hrow']
      rw [isUseful_of_head, hlength, List.take_append_drop]
      exact ih entry hentry hrow'
  | case4 rows width hcomplete ih =>
      rw [missing_of_incomplete hcomplete] at h
      obtain ⟨row', hrow', rfl⟩ := Option.map_eq_some_iff.1 h
      rcases lackingCase_cases env (firstHeads rows) with hany | ⟨-, -, -, -, entry, -, hnot, heq⟩
      · rw [hany, isUseful_of_incomplete hcomplete]
        exact ih hrow'
      · rw [heq, isUseful_of_head, List.length_replicate, specialize_of_notMem hnot,
          isUseful_map_replicate]
        exact ih hrow'

/-- The missing case of some patterns is in no arm before it. -/
theorem notMem_unused_missing {patterns : List CorePattern} {p : CorePattern}
    (h : (analyze env patterns).missing = some (Case.ofPattern p)) :
    patterns.length ∉ (analyze env (patterns ++ [p])).unused := by
  obtain ⟨row, hmissing, hhead⟩ := Option.bind_eq_some_iff.1 h
  obtain ⟨c, rfl⟩ := List.length_eq_one_iff.1 (length_of_missing hmissing)
  obtain rfl : c = Case.ofPattern p := Option.some.inj hhead
  intro hunused
  obtain ⟨q, hq, huseless⟩ := mem_unused.1 hunused
  obtain rfl : p = q := by simpa using hq
  rw [List.take_left, isUseful_missing hmissing] at huseless
  cases huseless

end Coverage

end FieldML
