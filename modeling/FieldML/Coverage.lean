import FieldML.Coverage.Case
import FieldML.VariantEnv

/-!
# Coverage of matches

A row of cases is useful beside a matrix of rows if some values are in the row and in no row of the
matrix. An arm of a match is unused if it is not useful beside the arms before it, and the match is
exhaustive if a row of anything is not useful beside all its arms. Splitting the first column by a
head removes that head from some row, and dropping the column shortens the rows, so both analyses
end on every matrix.
-/

namespace FieldML.Coverage

/-- Cases for some values side by side. -/
abbrev Row := List Case

/-- Rows, each of which covers some values. -/
abbrev Matrix := List Row

/-- The heads in the first column, each once, in the order of the rows. -/
def firstHeads (rows : Matrix) : List Head :=
  (rows.filterMap fun row => match row with
    | .of h _ :: _ => some h
    | _ => none).eraseDups

/-- All heads of the type that this head belongs to, with the number of their parts, if they are
known and finitely many. -/
def signature (env : VariantEnv) : Head → Option (List (Head × Nat))
  | .bool _ => some [(.bool false, 0), (.bool true, 0)]
  | .unit => some [(.unit, 0)]
  | .nil | .cons => some [(.nil, 0), (.cons, 2)]
  | .tuple n => some [(.tuple n, n)]
  | .ctor name => do
      let ctor ← env.constructor? name
      let names ← env.variantCtors? ctor.variant
      names.mapM fun name => do
        let ctor ← env.constructor? name
        return (.ctor name, ctor.args.length)
  | .int _ | .string _ => none

/-- The signature of some heads, if all of it is among them. -/
def completeSignature (env : VariantEnv) (heads : List Head) :
    Option { sig : List (Head × Nat) // ∀ entry ∈ sig, entry.1 ∈ heads } := do
  let sig ← signature env (← heads.head?)
  if h : ∀ entry ∈ sig, entry.1 ∈ heads then return ⟨sig, h⟩ else none

/-- The rows for the parts of values with this head, which has `n` parts. -/
def specialize (rows : Matrix) (h : Head) (n : Nat) : Matrix :=
  rows.filterMap fun row => match row with
    | .any :: rest => some (List.replicate n .any ++ rest)
    | .of h' parts :: rest => if h' = h then some (parts ++ rest) else none
    | [] => none

/-- The rows that accept any first value, without their first column. -/
def defaultRows (rows : Matrix) : Matrix :=
  rows.filterMap fun row => match row with
    | .any :: rest => some rest
    | _ => none

/-- The number of heads in a matrix. -/
def heads : Matrix → Nat
  | [] => 0
  | row :: rows => Case.headsOfList row + heads rows

theorem heads_specialize_le (rows : Matrix) (h : Head) (n : Nat) :
    heads (specialize rows h n) ≤ heads rows := by
  induction rows with
  | nil => simp [specialize, heads]
  | cons row rows ih =>
      unfold specialize at ih ⊢
      rw [List.filterMap_cons]
      match row with
      | [] => simpa [heads, Case.headsOfList] using ih
      | .any :: rest =>
          simpa [heads, Case.headsOfList, Case.headsOfList_append,
            Case.headsOfList_replicate_any, Case.heads] using ih
      | .of h' parts :: rest =>
          by_cases hh : h' = h
          · simp only [hh, if_true, heads, Case.headsOfList, Case.headsOfList_append, Case.heads]
            omega
          · simp only [hh, if_false, heads]
            omega

theorem mem_firstHeads {rows : Matrix} {h : Head} :
    h ∈ firstHeads rows ↔ ∃ parts rest, .of h parts :: rest ∈ rows := by
  simp only [firstHeads, List.mem_eraseDups, List.mem_filterMap]
  constructor
  · rintro ⟨row, hrow, hmatch⟩
    match row with
    | [] | .any :: _ => simp at hmatch
    | .of h' parts :: rest =>
        obtain rfl : h' = h := by simpa using hmatch
        exact ⟨parts, rest, hrow⟩
  · rintro ⟨parts, rest, hrow⟩
    exact ⟨_, hrow, rfl⟩

theorem heads_specialize_lt {rows : Matrix} {h : Head} (n : Nat) (hmem : h ∈ firstHeads rows) :
    heads (specialize rows h n) < heads rows := by
  obtain ⟨parts, rest, hrow⟩ := mem_firstHeads.1 hmem
  induction rows with
  | nil => simp at hrow
  | cons row rows ih =>
      have hle := heads_specialize_le rows h n
      rcases List.mem_cons.1 hrow with rfl | htail
      · simp only [specialize] at hle ⊢
        rw [List.filterMap_cons]
        simp only [if_true, heads, Case.headsOfList, Case.headsOfList_append, Case.heads]
        omega
      · have hlt := ih (mem_firstHeads.2 ⟨parts, rest, htail⟩) htail
        have hrow := heads_specialize_le [row] h n
        have hsplit :
            specialize (row :: rows) h n = specialize [row] h n ++ specialize rows h n := by
          simp [specialize, ← List.filterMap_append]
        have happend : ∀ as bs : Matrix, heads (as ++ bs) = heads as + heads bs := by
          intro as bs
          induction as with
          | nil => simp [heads]
          | cons a as iha => simp [heads, iha, Nat.add_assoc]
        rw [hsplit, happend]
        simp only [heads] at hrow ⊢
        omega

theorem heads_defaultRows_le (rows : Matrix) : heads (defaultRows rows) ≤ heads rows := by
  induction rows with
  | nil => simp [defaultRows, heads]
  | cons row rows ih =>
      unfold defaultRows at ih ⊢
      rw [List.filterMap_cons]
      match row with
      | [] | .of _ _ :: _ => simp only [heads]; omega
      | .any :: rest => simpa [heads, Case.headsOfList, Case.heads] using ih

/-- Whether some values are in the row and in no row of the matrix. -/
def isUseful (env : VariantEnv) (rows : Matrix) (row : Row) : Bool :=
  match row with
  | [] => rows.isEmpty
  | .of h parts :: rest => isUseful env (specialize rows h parts.length) (parts ++ rest)
  | .any :: rest =>
      match completeSignature env (firstHeads rows) with
      | some ⟨sig, hsig⟩ =>
          sig.attach.any fun ⟨entry, hentry⟩ =>
            have := heads_specialize_lt entry.2 (hsig entry hentry)
            isUseful env (specialize rows entry.1 entry.2)
              (List.replicate entry.2 .any ++ rest)
      | none => isUseful env (defaultRows rows) rest
termination_by (Case.headsOfList row + heads rows, row.length)
decreasing_by
  · have := heads_specialize_le rows h parts.length
    apply Prod.Lex.left
    simp only [Case.headsOfList_append, Case.headsOfList, Case.heads]
    omega
  · apply Prod.Lex.left
    simp only [Case.headsOfList_append, Case.headsOfList, Case.heads,
      Case.headsOfList_replicate_any]
    omega
  · have hle := heads_defaultRows_le rows
    simp only [Case.headsOfList, Case.heads, Nat.zero_add, List.length_cons]
    rcases Nat.lt_or_eq_of_le hle with hlt | heq
    · exact Prod.Lex.left _ _ (by omega)
    · rw [heq]
      exact Prod.Lex.right _ (by omega)

/-- A head that the first column lacks, with anything as its parts; anything if no head is known to
be lacking. -/
def lackingCase (env : VariantEnv) (heads : List Head) : Case :=
  let lacking := do
    let sig ← signature env (← heads.head?)
    sig.find? fun entry => entry.1 ∉ heads
  match lacking with
  | some (h, n) => .of h (List.replicate n .any)
  | none => .any

/-- Cases of `width` values that no row covers, if there are any. -/
def missing (env : VariantEnv) (rows : Matrix) (width : Nat) : Option Row :=
  match width with
  | 0 => if rows.isEmpty then some [] else none
  | width + 1 =>
      match completeSignature env (firstHeads rows) with
      | some ⟨sig, hsig⟩ =>
          sig.attach.findSome? fun ⟨entry, hentry⟩ =>
            have := heads_specialize_lt entry.2 (hsig entry hentry)
            (missing env (specialize rows entry.1 entry.2) (entry.2 + width)).map fun row =>
              .of entry.1 (row.take entry.2) :: row.drop entry.2
      | none =>
          (missing env (defaultRows rows) width).map
            (lackingCase env (firstHeads rows) :: ·)
termination_by (heads rows, width)
decreasing_by
  · exact Prod.Lex.left _ _ this
  · have hle := heads_defaultRows_le rows
    rcases Nat.lt_or_eq_of_le hle with hlt | heq
    · exact Prod.Lex.left _ _ hlt
    · rw [heq]
      exact Prod.Lex.right _ (by omega)

/-- What is wrong with the arms of a match. -/
structure Report where
  /-- A case that no arm covers. -/
  missing : Option Case
  /-- The numbers of the arms that are never selected. -/
  unused : List Nat

/-- The analysis of the arms of a match, given their patterns. -/
def analyze (env : VariantEnv) (patterns : List CorePattern) : Report :=
  let rows : Matrix := patterns.map fun p => [Case.ofPattern p]
  let unused := rows.zipIdx.filter fun (row, i) => !isUseful env (rows.take i) row
  ⟨(missing env rows 1).bind List.head?, unused.map (·.2)⟩

end FieldML.Coverage
