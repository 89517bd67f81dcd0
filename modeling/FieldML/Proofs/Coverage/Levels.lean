import FieldML.Proofs.Coverage.Useful

/-!
# How deep the analysis goes

Splitting a column by a head with many parts makes the rows longer, and every row that begins with
anything is copied into each of the splits. So neither the length of the rows nor the size of the
matrix goes down from call to call. What does go down counts a head together with the parts that
stand under it and those that it may be given instead, whichever are more. This bounds the levels of
calls of both analyses on every matrix, whether or not its rows fit together.
-/

namespace FieldML

/-- How many parts the signature of a type lists for this head of it. -/
def Head.arity (env : VariantEnv) : Head → Nat
  | .cons => 2
  | .tuple n => n
  | .ctor name => ((env.constructor? name).map (·.args.length)).getD 0
  | .bool _ | .unit | .nil | .int _ | .string _ => 0

namespace Case

mutual

/-- The number of columns that a case may be split into, heads included. -/
def spread (env : VariantEnv) : Case → Nat
  | .any => 0
  | .of h parts => max parts.length (h.arity env) + 1 + spreadOfList env parts

/-- The number of columns that some cases may be split into, besides their own. -/
def spreadOfList (env : VariantEnv) : List Case → Nat
  | [] => 0
  | c :: cs => c.spread env + spreadOfList env cs

end

variable {env : VariantEnv}

theorem spreadOfList_append (cs ds : List Case) :
    spreadOfList env (cs ++ ds) = spreadOfList env cs + spreadOfList env ds := by
  induction cs with
  | nil => simp [spreadOfList]
  | cons c cs ih => simp [spreadOfList, ih, Nat.add_assoc]

theorem spreadOfList_replicate_any (n : Nat) : spreadOfList env (List.replicate n .any) = 0 := by
  induction n with
  | zero => rfl
  | succ n ih => simp [List.replicate_succ, spreadOfList, spread, ih]

end Case

namespace Coverage

variable {env : VariantEnv} {rows : Matrix} {row rest : Row} {h : Head} {n : Nat}

/-! ### Matrices get smaller -/

/-- The number of columns that the rows of a matrix may be split into, besides their own. -/
def spread (env : VariantEnv) : Matrix → Nat
  | [] => 0
  | row :: rows => Case.spreadOfList env row + spread env rows

/-- What is left of a row among those for a head. -/
theorem specialize_cons :
    specialize (row :: rows) h n = specialize [row] h n ++ specialize rows h n := by
  simp [specialize, ← List.filterMap_append]

theorem spread_append (rows rows' : Matrix) :
    spread env (rows ++ rows') = spread env rows + spread env rows' := by
  induction rows with
  | nil => simp [spread]
  | cons row rows ih => simp only [List.cons_append, spread, ih, Nat.add_assoc]

theorem spread_specialize_row_le (env : VariantEnv) (row : Row) (h : Head) (n : Nat) :
    spread env (specialize [row] h n) ≤ Case.spreadOfList env row := by
  rcases row with _ | ⟨_ | ⟨h', parts⟩, rest⟩
  · simp [specialize, spread]
  · simp [specialize, spread, Case.spreadOfList, Case.spread, Case.spreadOfList_append,
      Case.spreadOfList_replicate_any]
  · by_cases hh : h' = h
    · simp [specialize, spread, hh, Case.spreadOfList, Case.spread, Case.spreadOfList_append]
    · simp [specialize, spread, hh]

theorem spread_specialize_le (env : VariantEnv) (rows : Matrix) (h : Head) (n : Nat) :
    spread env (specialize rows h n) ≤ spread env rows := by
  induction rows with
  | nil => simp [specialize, spread]
  | cons row rows ih =>
      have hrow := spread_specialize_row_le env row h n
      rw [specialize_cons, spread_append, spread]
      omega

/-- A head that some row begins with makes up for all the parts that it is given. -/
theorem spread_specialize_lt (env : VariantEnv) (n : Nat) (hmem : h ∈ firstHeads rows) :
    spread env (specialize rows h n) + h.arity env < spread env rows := by
  obtain ⟨parts, rest, hrow⟩ := mem_firstHeads.1 hmem
  clear hmem
  induction rows with
  | nil => simp at hrow
  | cons row rows ih =>
      rw [specialize_cons, spread_append, spread]
      rcases List.mem_cons.1 hrow with rfl | htail
      · have hrest := spread_specialize_le env rows h n
        have hfirst : spread env (specialize [.of h parts :: rest] h n) =
            Case.spreadOfList env parts + Case.spreadOfList env rest := by
          simp [specialize, spread, Case.spreadOfList_append]
        rw [hfirst, Case.spreadOfList, Case.spread]
        omega
      · have hrest := ih htail
        have hfirst := spread_specialize_row_le env row h n
        omega

theorem spread_defaultRows_le (env : VariantEnv) (rows : Matrix) :
    spread env (defaultRows rows) ≤ spread env rows := by
  induction rows with
  | nil => simp [defaultRows, spread]
  | cons row rows ih =>
      rcases row with _ | ⟨_ | ⟨h, parts⟩, rest⟩
      · exact ih.trans (Nat.le_add_left _ _)
      · have hcons : defaultRows ((.any :: rest) :: rows) = rest :: defaultRows rows := rfl
        rw [hcons, spread, spread, Case.spreadOfList, Case.spread]
        omega
      · exact ih.trans (Nat.le_add_left _ _)

theorem exists_of_mem_mapM {α β : Type} {f : α → Option β} {l : List α} {l' : List β} {b : β}
    (h : l.mapM f = some l') (hb : b ∈ l') : ∃ a ∈ l, f a = some b := by
  induction l generalizing l' with
  | nil =>
      obtain rfl := Option.some.inj h
      simp at hb
  | cons a l ih =>
      simp only [List.mapM_cons, Option.bind_eq_bind, Option.bind_eq_some_iff] at h
      obtain ⟨c, hc, cs, hcs, hcons⟩ := h
      obtain rfl := Option.some.inj hcons
      rcases List.mem_cons.1 hb with rfl | hb
      · exact ⟨a, List.mem_cons_self, hc⟩
      · obtain ⟨x, hx, hfx⟩ := ih hcs hb
        exact ⟨x, List.mem_cons_of_mem _ hx, hfx⟩

/-- A signature lists every head with the number of its parts. -/
theorem eq_arity_of_mem_signature {h' : Head} {sig : List (Head × Nat)} {entry : Head × Nat}
    (hsig : signature env h' = some sig) (hentry : entry ∈ sig) : entry.2 = entry.1.arity env := by
  cases h' with
  | bool b =>
      obtain rfl := Option.some.inj hsig
      rcases List.mem_pair.1 hentry with rfl | rfl <;> rfl
  | unit | tuple n =>
      obtain rfl := Option.some.inj hsig
      obtain rfl := List.mem_singleton.1 hentry
      rfl
  | nil | cons =>
      obtain rfl := Option.some.inj hsig
      rcases List.mem_pair.1 hentry with rfl | rfl <;> rfl
  | int | string => cases hsig
  | ctor name =>
      simp only [signature, Option.bind_eq_bind, Option.bind_eq_some_iff] at hsig
      obtain ⟨c, -, names, -, hmap⟩ := hsig
      obtain ⟨name', -, hname⟩ := exists_of_mem_mapM hmap hentry
      simp only [Option.bind_eq_some_iff] at hname
      obtain ⟨c', hc', hentry⟩ := hname
      obtain rfl := Option.some.inj hentry
      simp [Head.arity, hc']

/-! ### The calls of one level -/

/-- The question whether the first row is useful beside the first matrix is asked in order to answer
the same question for the second ones. -/
inductive UsefulCall (env : VariantEnv) : Matrix × Row → Matrix × Row → Prop
  | head (rows : Matrix) (h : Head) (parts : List Case) (rest : Row) :
      UsefulCall env (specialize rows h parts.length, parts ++ rest) (rows, .of h parts :: rest)
  | complete {rows : Matrix} {sig : { sig : List (Head × Nat) // ∀ e ∈ sig, e.1 ∈ firstHeads rows }}
      {entry : Head × Nat} (rest : Row) (hsig : completeSignature env (firstHeads rows) = some sig)
      (hentry : entry ∈ sig.1) :
      UsefulCall env (specialize rows entry.1 entry.2, List.replicate entry.2 .any ++ rest)
        (rows, .any :: rest)
  | incomplete {rows : Matrix} (rest : Row)
      (hsig : completeSignature env (firstHeads rows) = none) :
      UsefulCall env (defaultRows rows, rest) (rows, .any :: rest)

/-- A row as wide as the first number that the first matrix lacks is looked for in order to find one
for the second ones. -/
inductive MissingCall (env : VariantEnv) : Matrix × Nat → Matrix × Nat → Prop
  | complete {rows : Matrix} {sig : { sig : List (Head × Nat) // ∀ e ∈ sig, e.1 ∈ firstHeads rows }}
      {entry : Head × Nat} (width : Nat)
      (hsig : completeSignature env (firstHeads rows) = some sig) (hentry : entry ∈ sig.1) :
      MissingCall env (specialize rows entry.1 entry.2, entry.2 + width) (rows, width + 1)
  | incomplete {rows : Matrix} (width : Nat)
      (hsig : completeSignature env (firstHeads rows) = none) :
      MissingCall env (defaultRows rows, width) (rows, width + 1)

/-- A bound on the calls inside one another when the usefulness of a row is decided. -/
def usefulDepth (env : VariantEnv) (rows : Matrix) (row : Row) : Nat :=
  spread env rows + Case.spreadOfList env row + row.length

/-- A bound on the calls inside one another when a missing row is looked for. -/
def missingDepth (env : VariantEnv) (rows : Matrix) (width : Nat) : Nat := spread env rows + width

theorem spread_specialize_of_complete
    {sig : { sig : List (Head × Nat) // ∀ entry ∈ sig, entry.1 ∈ firstHeads rows }}
    {entry : Head × Nat} (hsig : completeSignature env (firstHeads rows) = some sig)
    (hentry : entry ∈ sig.1) :
    spread env (specialize rows entry.1 entry.2) + entry.2 < spread env rows := by
  obtain ⟨h, -, hsignature⟩ := exists_of_completeSignature hsig
  have harity := eq_arity_of_mem_signature hsignature hentry
  have hlt := spread_specialize_lt env entry.2 (sig.2 entry hentry)
  omega

theorem UsefulCall.depth_lt {callee caller : Matrix × Row} (h : UsefulCall env callee caller) :
    usefulDepth env callee.1 callee.2 < usefulDepth env caller.1 caller.2 := by
  unfold usefulDepth
  cases h with
  | head rows h parts rest =>
      have hrows := spread_specialize_le env rows h parts.length
      simp only [Case.spreadOfList_append, Case.spreadOfList, Case.spread, List.length_append,
        List.length_cons]
      omega
  | complete rest hsig hentry =>
      have hrows := spread_specialize_of_complete hsig hentry
      simp only [Case.spreadOfList_append, Case.spreadOfList_replicate_any, Case.spreadOfList,
        Case.spread, List.length_append, List.length_replicate, List.length_cons]
      omega
  | @incomplete rows rest hsig =>
      have hrows := spread_defaultRows_le env rows
      simp only [Case.spreadOfList, Case.spread, List.length_cons]
      omega

theorem MissingCall.depth_lt {callee caller : Matrix × Nat} (h : MissingCall env callee caller) :
    missingDepth env callee.1 callee.2 < missingDepth env caller.1 caller.2 := by
  unfold missingDepth
  cases h with
  | complete width hsig hentry =>
      have hrows := spread_specialize_of_complete hsig hentry
      dsimp only
      omega
  | @incomplete rows width hsig =>
      have hrows := spread_defaultRows_le env rows
      dsimp only
      omega

/-- No chain of questions about useful rows goes on for ever. -/
theorem wellFounded_usefulCall (env : VariantEnv) : WellFounded (UsefulCall env) :=
  Subrelation.wf (fun h => h.depth_lt) (measure fun p : Matrix × Row => usefulDepth env p.1 p.2).wf

/-- No chain of searches for missing rows goes on for ever. -/
theorem wellFounded_missingCall (env : VariantEnv) : WellFounded (MissingCall env) :=
  Subrelation.wf (fun h => h.depth_lt) (measure fun p : Matrix × Nat => missingDepth env p.1 p.2).wf

/-! ### As many levels as are needed -/

/-- One level of the question whether a row is useful. The questions that it leads to are put to
`call`, which may have no answer; they are put in order, and none after the first that is answered
with yes. -/
def usefulLevel (env : VariantEnv) (call : Matrix → Row → Option Bool) (rows : Matrix) :
    Row → Option Bool
  | [] => some rows.isEmpty
  | .of h parts :: rest => call (specialize rows h parts.length) (parts ++ rest)
  | .any :: rest =>
      match completeSignature env (firstHeads rows) with
      | some ⟨sig, _⟩ => sig.anyM fun entry =>
          call (specialize rows entry.1 entry.2) (List.replicate entry.2 .any ++ rest)
      | none => call (defaultRows rows) rest

/-- The answer if it takes fewer than so many levels. -/
def usefulWithin (env : VariantEnv) : Nat → Matrix → Row → Option Bool
  | 0 => fun _ _ => none
  | n + 1 => usefulLevel env (usefulWithin env n)

/-- The first `n` cases of a row and the others, if there are that many. -/
def splitAt? (n : Nat) (row : Row) : Option (Row × Row) :=
  if n ≤ row.length then some (row.splitAt n) else none

/-- One level of the search for a missing row. The searches that it leads to are left to `call`,
which may have no outcome. A row that is found is split into the parts of a head and the rest, and
there is no outcome if it is too short for that. -/
def missingLevel (env : VariantEnv) (call : Matrix → Nat → Option (Option Row)) (rows : Matrix) :
    Nat → Option (Option Row)
  | 0 => some (if rows.isEmpty then some [] else none)
  | width + 1 =>
      match completeSignature env (firstHeads rows) with
      | some ⟨sig, _⟩ => sig.findSomeM? fun entry => do
          match ← call (specialize rows entry.1 entry.2) (entry.2 + width) with
          | some row =>
              let (parts, rest) ← splitAt? entry.2 row
              return some (.of entry.1 parts :: rest)
          | none => return none
      | none => do
          let found ← call (defaultRows rows) width
          return found.map (lackingCase env (firstHeads rows) :: ·)

/-- The outcome if it takes fewer than so many levels. -/
def missingWithin (env : VariantEnv) : Nat → Matrix → Nat → Option (Option Row)
  | 0 => fun _ _ => none
  | n + 1 => missingLevel env (missingWithin env n)

theorem anyM_eq_some {α : Type} {f : α → Option Bool} {g : α → Bool} {l : List α}
    (h : ∀ a ∈ l, f a = some (g a)) : l.anyM f = some (l.any g) := by
  induction l with
  | nil => rfl
  | cons a l ih =>
      obtain ⟨ha, hl⟩ := List.forall_mem_cons.1 h
      rw [List.anyM, ha, List.any_cons, ih hl]
      cases g a <;> rfl

theorem findSomeM?_eq_some {α β : Type} {f : α → Option (Option β)} {g : α → Option β} {l : List α}
    (h : ∀ a ∈ l, f a = some (g a)) : l.findSomeM? f = some (l.findSome? g) := by
  induction l with
  | nil => rfl
  | cons a l ih =>
      obtain ⟨ha, hl⟩ := List.forall_mem_cons.1 h
      rw [List.findSomeM?, ha, List.findSome?_cons, ih hl]
      cases g a <;> rfl

/-- Where the calls of a level have the right answers, so has the level. -/
theorem usefulLevel_eq_some {call : Matrix → Row → Option Bool}
    (hcall : ∀ rows' row', UsefulCall env (rows', row') (rows, row) →
      call rows' row' = some (isUseful env rows' row')) :
    usefulLevel env call rows row = some (isUseful env rows row) := by
  match row with
  | [] => rw [usefulLevel, isUseful]
  | .of h parts :: rest =>
      rw [usefulLevel, isUseful_of_head]
      exact hcall _ _ (.head rows h parts rest)
  | .any :: rest =>
      rw [usefulLevel]
      cases hsig : completeSignature env (firstHeads rows) with
      | none =>
          rw [isUseful_of_incomplete hsig]
          exact hcall _ _ (.incomplete rest hsig)
      | some sig =>
          rw [isUseful_of_complete hsig]
          exact anyM_eq_some fun entry hentry => hcall _ _ (.complete rest hsig hentry)

/-- Where the searches of a level have the right outcomes, no row that they find is too short, and
the level has the right outcome. -/
theorem missingLevel_eq_some {call : Matrix → Nat → Option (Option Row)} {width : Nat}
    (hcall : ∀ rows' width', MissingCall env (rows', width') (rows, width) →
      call rows' width' = some (missing env rows' width')) :
    missingLevel env call rows width = some (missing env rows width) := by
  cases width with
  | zero => rw [missingLevel, missing]
  | succ width =>
      rw [missingLevel]
      cases hsig : completeSignature env (firstHeads rows) with
      | none =>
          rw [missing_of_incomplete hsig]
          simp only [hcall _ _ (.incomplete width hsig), Option.bind_eq_bind, Option.bind_some]
          rfl
      | some sig =>
          rw [missing_of_complete hsig]
          refine findSomeM?_eq_some fun entry hentry => ?_
          simp only [hcall _ _ (.complete width hsig hentry), Option.bind_eq_bind, Option.bind_some]
          cases hfound : missing env (specialize rows entry.1 entry.2) (entry.2 + width) with
          | none => rfl
          | some row =>
              have hlength : entry.2 ≤ row.length := by
                rw [length_of_missing hfound]
                exact Nat.le_add_right _ _
              simp [splitAt?, hlength, List.splitAt_eq]

theorem usefulWithin_eq_some (hn : usefulDepth env rows row < n) :
    usefulWithin env n rows row = some (isUseful env rows row) := by
  induction n generalizing rows row with
  | zero => simp at hn
  | succ n ih =>
      rw [usefulWithin]
      exact usefulLevel_eq_some fun _ _ hcall =>
        ih (hcall.depth_lt.trans_le (Nat.le_of_lt_succ hn))

theorem missingWithin_eq_some {width : Nat} (hn : missingDepth env rows width < n) :
    missingWithin env n rows width = some (missing env rows width) := by
  induction n generalizing rows width with
  | zero => simp at hn
  | succ n ih =>
      rw [missingWithin]
      exact missingLevel_eq_some fun _ _ hcall =>
        ih (hcall.depth_lt.trans_le (Nat.le_of_lt_succ hn))

/-- Both analyses end on every matrix, whatever the types declare and however the rows disagree with
them or with one another: no chain of calls goes on for ever, so many levels as there are columns to
split bring the answers, and no row that is found is too short to be split. -/
theorem analysis_ends (env : VariantEnv) :
    (WellFounded (UsefulCall env) ∧ ∀ rows row n, usefulDepth env rows row < n →
      usefulWithin env n rows row = some (isUseful env rows row)) ∧
    (WellFounded (MissingCall env) ∧ ∀ rows width n, missingDepth env rows width < n →
      missingWithin env n rows width = some (missing env rows width)) ∧
    ∀ rows width row, ∀ sig : { sig : List (Head × Nat) // ∀ e ∈ sig, e.1 ∈ firstHeads rows },
      completeSignature env (firstHeads rows) = some sig → ∀ entry ∈ sig.1,
      missing env (specialize rows entry.1 entry.2) (entry.2 + width) = some row →
      entry.2 ≤ row.length := by
  refine ⟨⟨wellFounded_usefulCall env, fun rows row n hn => usefulWithin_eq_some hn⟩,
    ⟨wellFounded_missingCall env, fun rows width n hn => missingWithin_eq_some hn⟩, ?_⟩
  intro rows width row sig hsig entry hentry hfound
  rw [length_of_missing hfound]
  exact Nat.le_add_right _ _

/-- Here the constructor of the first row has fewer parts than it should have and that of the second
one has more, and no two rows are of one length. -/
theorem analysis_ends_unevenRows :
    let rows : Matrix := [[.of .cons [.any]], [.of .nil [.any, .any], .any], []]
    usefulDepth {} rows [.any] < 8 ∧ missingDepth {} rows 1 < 8 ∧
      usefulWithin {} 8 rows [.any] = some (isUseful {} rows [.any]) ∧
      missingWithin {} 8 rows 1 = some (missing {} rows 1) := by
  intro rows
  have huseful : usefulDepth {} rows [.any] < 8 := by decide
  have hmissing : missingDepth {} rows 1 < 8 := by decide
  exact ⟨huseful, hmissing, (analysis_ends {}).1.2 rows [.any] 8 huseful,
    (analysis_ends {}).2.1.2 rows 1 8 hmissing⟩

end Coverage

end FieldML
