import FieldML.Proofs.Coverage.Value
import Mathlib.Data.Fintype.EquivFin
import Mathlib.Logic.Relation

/-!
# What a matrix lacks

The rows of a matrix fit a list of types if every head in a column is one that values of the type of
that column may have. For such a matrix the search for a missing row is exact: if it finds nothing,
the rows cover all values of the types, and what it finds accepts values that no row covers.
-/

namespace FieldML

variable {env : VariantEnv} {Held : Ty → Value → Prop}

/-- Every constructor belongs to a variant that lists it, together with exactly those that belong to
the same variant. -/
def VariantEnv.ListsAll (env : VariantEnv) : Prop :=
  ∀ name c, env.constructor? name = some c → ∃ ctors, env.variantCtors? c.variant = some ctors ∧
    ∀ other, other ∈ ctors ↔ ∃ d, env.constructor? other = some d ∧ d.variant = c.variant

/-- Values of a bare type may have the head, and then their parts have these types. -/
inductive Head.Splits (env : VariantEnv) : Head → Ty → List Ty → Prop
  | unit (r : Range) : Splits env .unit (.base .unit r) []
  | bool (b : Bool) (r : Range) : Splits env (.bool b) (.base .bool r) []
  | int (n : Int64) (r : Range) : Splits env (.int n) (.base .int r) []
  | string (s : String) (r : Range) : Splits env (.string s) (.base .string r) []
  | nil (t : Ty) (r : Range) : Splits env .nil (.list t r) []
  | cons (t : Ty) (r : Range) : Splits env .cons (.list t r) [t, .list t r]
  | tuple {n : Nat} {ts : List Ty} (r : Range) (hn : ts.length = n) :
      Splits env (.tuple n) (.product ts r) ts
  | ctor {name variant : String} {c : Constructor} (args : List Ty) (r : Range)
      (hc : env.constructor? name = some c) (hvariant : c.variant = variant) :
      Splits env (.ctor name) (.variant variant args r) (c.partTypes args)

/-- A declared variant has as many arguments as it has parameters. -/
def Ty.Saturated (env : VariantEnv) (t : Ty) : Prop :=
  ∀ variant args r params ctors, t = .variant variant args r →
    env.definition? variant = some (.variant params ctors) → params.length = args.length

/-- Every head in the case is one that values of the type in its place may have. -/
inductive Case.Fits (env : VariantEnv) : Case → Ty → Prop
  | any (t : Ty) : Fits env .any t
  | of {h : Head} {cs : List Case} {t : Ty} {ts : List Ty} (ht : h.Splits env t ts)
      (hargs : t.Saturated env) (hcs : List.Forall₂ (Fits env) cs ts) : Fits env (.of h cs) t

/-- The second type is the first or belongs to some part of its values. -/
def Ty.Involves (env : VariantEnv) : Ty → Ty → Prop :=
  Relation.ReflTransGen fun t u => ∃ h ts, Head.Splits env h t ts ∧ u ∈ ts

/-- Every type that the type involves has a value. -/
def Ty.Populated (env : VariantEnv) (Held : Ty → Value → Prop) (t : Ty) : Prop :=
  ∀ u, t.Involves env u → ∃ v, Value.HasType env Held u v

section Heads

variable {h h' : Head} {t : Ty} {ts us : List Ty} {v : Value} {vs ws : List Value} {n : Nat}

theorem Ty.Populated.parts (ht : t.Populated env Held) (hts : h.Splits env t ts) :
    ∀ u ∈ ts, u.Populated env Held := fun _ hu w hw =>
  ht w (.head ⟨h, ts, hts, hu⟩ hw)

theorem Ty.Populated.exists_value (ht : t.Populated env Held) : ∃ v, Value.HasType env Held t v :=
  ht t .refl

theorem exists_values (hts : ∀ t ∈ ts, t.Populated env Held) :
    ∃ ws, List.Forall₂ (Value.HasType env Held) ts ws := by
  induction ts with
  | nil => exact ⟨[], .nil⟩
  | cons t ts ih =>
      obtain ⟨v, hv⟩ := (hts t List.mem_cons_self).exists_value
      obtain ⟨ws, hws⟩ := ih fun u hu => hts u (List.mem_cons_of_mem _ hu)
      exact ⟨v :: ws, .cons hv hws⟩

namespace Head

theorem Splits.unique (hts : h.Splits env t ts) (hus : h.Splits env t us) : ts = us := by
  cases hts with
  | ctor args r hc hvariant =>
      cases hus with
      | ctor _ _ hd => rw [Option.some.inj (hc.symm.trans hd)]
  | unit | bool | int | string | nil | cons | tuple => cases hus; rfl

/-- Values whose parts have the types of a head make a value with that head. -/
theorem Splits.exists_value (hts : h.Splits env t ts)
    (hws : List.Forall₂ (Value.HasType env Held) ts ws) :
    ∃ v, Value.HasType env Held t v ∧ v.open? = some (h, ws) := by
  cases hts with
  | unit r => exact ⟨.unit, .unit r, by cases hws; rfl⟩
  | bool b r => exact ⟨.bool b, .bool b r, by cases hws; rfl⟩
  | int n r => exact ⟨.int n, .int n r, by cases hws; rfl⟩
  | string s r => exact ⟨.string s, .string s r, by cases hws; rfl⟩
  | nil t r => exact ⟨.list [], .list r (by simp), by cases hws; rfl⟩
  | cons t r =>
      obtain ⟨v, l, hv, htail, rfl⟩ := List.forall₂_cons_left_iff.1 hws
      obtain ⟨w, _, hw, hnil, rfl⟩ := List.forall₂_cons_left_iff.1 htail
      obtain rfl := List.forall₂_nil_left_iff.1 hnil
      cases hw with
      | @list _ vs r hvs => exact ⟨.list (v :: vs), .list r (List.forall_mem_cons.2 ⟨hv, hvs⟩), rfl⟩
      | held ht => exact ht.elim
  | tuple r hn => exact ⟨.tuple ws, .tuple r hws, by rw [Value.open?, ← hws.length_eq, hn]⟩
  | @ctor name variant c args r hc hvariant =>
      exact ⟨.construct name ws, .construct r hc hvariant hws, rfl⟩

end Head

/-- A value of a type that has heads has one of them. -/
theorem Value.HasType.open (hv : v.HasType env Held t) (hts : h.Splits env t ts) :
    ∃ h' us ws, v.open? = some (h', ws) ∧ h'.Splits env t us ∧
      List.Forall₂ (Value.HasType env Held) us ws := by
  cases hv with
  | unit r => exact ⟨.unit, [], [], rfl, .unit r, .nil⟩
  | bool b r => exact ⟨.bool b, [], [], rfl, .bool b r, .nil⟩
  | int n r => exact ⟨.int n, [], [], rfl, .int n r, .nil⟩
  | string s r => exact ⟨.string s, [], [], rfl, .string s r, .nil⟩
  | @list t vs r hvs =>
      match vs with
      | [] => exact ⟨.nil, [], [], rfl, .nil t r, .nil⟩
      | v :: vs =>
          obtain ⟨hv, hvs⟩ := List.forall_mem_cons.1 hvs
          exact ⟨.cons, _, [v, .list vs], rfl, .cons t r, .cons hv (.cons (.list r hvs) .nil)⟩
  | @tuple ts vs r hvs =>
      exact ⟨.tuple vs.length, ts, vs, rfl, .tuple r hvs.length_eq, hvs⟩
  | construct r hc hvariant hvs => exact ⟨.ctor _, _, _, rfl, .ctor _ r hc hvariant, hvs⟩
  | held ht => cases hts <;> exact ht.elim

end Heads

namespace Case

mutual

/-- The integers that the case asks for. -/
def ints : Case → List Int64
  | .any => []
  | .of h cs => (match h with
      | .int n => [n]
      | _ => []) ++ intsOfList cs

/-- The integers that some cases ask for. -/
def intsOfList : List Case → List Int64
  | [] => []
  | c :: cs => c.ints ++ intsOfList cs

end

theorem mem_intsOfList {cs : List Case} {n : Int64} :
    n ∈ intsOfList cs ↔ ∃ c ∈ cs, n ∈ c.ints := by
  induction cs with
  | nil => simp [intsOfList]
  | cons c cs ih => simp [intsOfList, ih]

theorem intsOfList_append (cs ds : List Case) :
    intsOfList (cs ++ ds) = intsOfList cs ++ intsOfList ds := by
  induction cs with
  | nil => rfl
  | cons c cs ih => simp [intsOfList, ih]

theorem intsOfList_replicate_any (n : Nat) : intsOfList (List.replicate n .any) = [] := by
  induction n with
  | zero => rfl
  | succ n ih => simp [List.replicate_succ, intsOfList, ints, ih]

end Case

namespace Coverage

section Signature

variable {h h' : Head} {t : Ty} {ts : List Ty} {n : Nat}

theorem exists_mapM_eq_some {α β : Type} {f : α → Option β} {l : List α}
    (hf : ∀ a ∈ l, ∃ b, f a = some b) :
    ∃ l', l.mapM f = some l' ∧ ∀ b, b ∈ l' ↔ ∃ a ∈ l, f a = some b := by
  induction l with
  | nil => exact ⟨[], rfl, by simp⟩
  | cons a l ih =>
      obtain ⟨b, hb⟩ := hf a List.mem_cons_self
      obtain ⟨l', hl', hmem⟩ := ih fun c hc => hf c (List.mem_cons_of_mem _ hc)
      refine ⟨b :: l', by simp [List.mapM_cons, hb, hl'], fun c => ?_⟩
      simp [hb, hmem, eq_comm]

/-- The signature of a head lists the heads of its type with the numbers of their parts. -/
def IsSignature (env : VariantEnv) (t : Ty) (sig : List (Head × Nat)) : Prop :=
  ∀ h n, (h, n) ∈ sig ↔ ∃ ts, h.Splits env t ts ∧ ts.length = n

theorem isSignature_unit (r : Range) : IsSignature env (.base .unit r) [(.unit, 0)] := by
  intro h n
  constructor
  · intro hmem
    obtain ⟨rfl, rfl⟩ : h = .unit ∧ n = 0 := by simpa using hmem
    exact ⟨[], .unit r, rfl⟩
  · rintro ⟨ts, hts, rfl⟩
    cases hts
    simp

theorem isSignature_bool (r : Range) :
    IsSignature env (.base .bool r) [(.bool false, 0), (.bool true, 0)] := by
  intro h n
  constructor
  · intro hmem
    obtain ⟨rfl, rfl⟩ | ⟨rfl, rfl⟩ : h = .bool false ∧ n = 0 ∨ h = .bool true ∧ n = 0 := by
      simpa using hmem
    · exact ⟨[], .bool false r, rfl⟩
    · exact ⟨[], .bool true r, rfl⟩
  · rintro ⟨ts, hts, rfl⟩
    cases hts with
    | bool b => cases b <;> simp

theorem isSignature_list (t : Ty) (r : Range) :
    IsSignature env (.list t r) [(.nil, 0), (.cons, 2)] := by
  intro h n
  constructor
  · intro hmem
    obtain ⟨rfl, rfl⟩ | ⟨rfl, rfl⟩ : h = .nil ∧ n = 0 ∨ h = .cons ∧ n = 2 := by simpa using hmem
    · exact ⟨[], .nil t r, rfl⟩
    · exact ⟨_, .cons t r, rfl⟩
  · rintro ⟨ts, hts, rfl⟩
    cases hts <;> simp

theorem isSignature_product (ts : List Ty) (r : Range) :
    IsSignature env (.product ts r) [(.tuple ts.length, ts.length)] := by
  intro h n
  constructor
  · intro hmem
    obtain ⟨rfl, rfl⟩ : h = .tuple ts.length ∧ n = ts.length := by simpa using hmem
    exact ⟨ts, .tuple r rfl, rfl⟩
  · rintro ⟨us, hus, rfl⟩
    cases hus with
    | tuple _ hn => simp [hn]

theorem exists_isSignature_variant (henv : env.ListsAll) {name : String} {c : Constructor}
    (hc : env.constructor? name = some c) (args : List Ty) (r : Range) :
    ∃ sig, signature env (.ctor name) = some sig ∧
      IsSignature env (.variant c.variant args r) sig := by
  obtain ⟨ctors, hctors, hmem⟩ := henv name c hc
  obtain ⟨sig, hsig, hentries⟩ := exists_mapM_eq_some (l := ctors)
    (f := fun name => do
      let ctor ← env.constructor? name
      return (Head.ctor name, ctor.args.length))
    fun other hother => by
      obtain ⟨d, hd, -⟩ := (hmem other).1 hother
      exact ⟨_, by rw [hd]; rfl⟩
  refine ⟨sig, ?_, fun h n => ?_⟩
  · rw [← hsig]
    simp only [signature, hc, hctors, Option.bind_eq_bind, Option.bind_some]
  · rw [hentries]
    constructor
    · rintro ⟨other, hother, heq⟩
      obtain ⟨d, hd, hvariant⟩ := (hmem other).1 hother
      obtain ⟨rfl, rfl⟩ : Head.ctor other = h ∧ d.args.length = n := by simpa [hd] using heq
      exact ⟨d.partTypes args, .ctor args r hd hvariant, by simp [Constructor.partTypes]⟩
    · rintro ⟨ts, hts, rfl⟩
      cases hts with
      | @ctor other _ d _ _ hd hvariant =>
          exact ⟨other, (hmem other).2 ⟨d, hd, hvariant⟩, by simp [hd, Constructor.partTypes]⟩

/-- A head that values of the type may have has all heads of the type as its signature, unless the
type has infinitely many. -/
theorem signature_of_splits (henv : env.ListsAll) (hts : h.Splits env t ts) :
    (∃ sig, signature env h = some sig ∧ IsSignature env t sig) ∨
      signature env h = none ∧ ∃ r, t = .base .int r ∨ t = .base .string r := by
  cases hts with
  | unit r => exact Or.inl ⟨_, rfl, isSignature_unit r⟩
  | bool b r => exact Or.inl ⟨_, rfl, isSignature_bool r⟩
  | int n r => exact Or.inr ⟨rfl, r, Or.inl rfl⟩
  | string s r => exact Or.inr ⟨rfl, r, Or.inr rfl⟩
  | nil t r => exact Or.inl ⟨_, rfl, isSignature_list t r⟩
  | cons t r => exact Or.inl ⟨_, rfl, isSignature_list t r⟩
  | tuple r hn => exact Or.inl ⟨_, rfl, hn ▸ isSignature_product ts r⟩
  | ctor args r hc hvariant =>
      exact Or.inl (hvariant ▸ exists_isSignature_variant henv hc args r)

end Signature

section Rows

variable {rows : Matrix} {row : Row} {h : Head} {t : Ty} {ts us : List Ty} {v : Value}
  {vs ws : List Value} {n : Nat}

theorem forall₂_append_iff {α β : Type} {R : α → β → Prop} {as as' : List α} {bs bs' : List β}
    (hlength : as.length = bs.length) :
    List.Forall₂ R (as ++ as') (bs ++ bs') ↔ List.Forall₂ R as bs ∧ List.Forall₂ R as' bs' := by
  induction as generalizing bs with
  | nil => simp [List.length_eq_zero_iff.1 hlength.symm]
  | cons a as ih =>
      obtain ⟨b, bs, rfl⟩ := List.exists_cons_of_length_eq_add_one hlength.symm
      simp [ih (by simpa using hlength), and_assoc]

theorem mem_specialize : row ∈ specialize rows h n ↔
    (∃ rest, .any :: rest ∈ rows ∧ row = List.replicate n .any ++ rest) ∨
      ∃ parts rest, .of h parts :: rest ∈ rows ∧ row = parts ++ rest := by
  simp only [specialize, List.mem_filterMap]
  constructor
  · rintro ⟨source, hsource, heq⟩
    rcases source with _ | ⟨_ | ⟨h', parts⟩, rest⟩
    · simp at heq
    · exact Or.inl ⟨rest, hsource, by simpa [eq_comm] using heq⟩
    · obtain ⟨rfl, rfl⟩ : h' = h ∧ parts ++ rest = row := by simpa using heq
      exact Or.inr ⟨parts, rest, hsource, rfl⟩
  · rintro (⟨rest, hmem, rfl⟩ | ⟨parts, rest, hmem, rfl⟩)
    · exact ⟨_, hmem, rfl⟩
    · exact ⟨_, hmem, by simp⟩

theorem mem_defaultRows : row ∈ defaultRows rows ↔ .any :: row ∈ rows := by
  simp only [defaultRows, List.mem_filterMap]
  constructor
  · rintro ⟨source, hsource, heq⟩
    rcases source with _ | ⟨_ | ⟨h', parts⟩, rest⟩
    · simp at heq
    · obtain rfl : rest = row := by simpa using heq
      exact hsource
    · simp at heq
  · exact fun hmem => ⟨_, hmem, rfl⟩

/-- Every head in a column is one that values of the type of the column may have. -/
def RowsFit (env : VariantEnv) (rows : Matrix) (ts : List Ty) : Prop :=
  ∀ row ∈ rows, List.Forall₂ (Case.Fits env) row ts

/-- Some row accepts the values. -/
def Covers (rows : Matrix) (vs : List Value) : Prop :=
  ∃ row ∈ rows, List.Forall₂ Case.Accepts row vs

/-- No row asks for the integer. -/
def Spares (rows : Matrix) (n : Int64) : Prop := ∀ row ∈ rows, n ∉ Case.intsOfList row

theorem RowsFit.specialize (hrows : RowsFit env rows (t :: ts)) (hus : h.Splits env t us) :
    RowsFit env (specialize rows h us.length) (us ++ ts) := by
  intro row hrow
  rcases mem_specialize.1 hrow with ⟨rest, hmem, rfl⟩ | ⟨parts, rest, hmem, rfl⟩
  · refine (forall₂_append_iff (by simp)).2 ⟨?_, (List.forall₂_cons.1 (hrows _ hmem)).2⟩
    exact List.forall₂_iff_get.2 ⟨by simp, fun i _ _ => by simpa using Case.Fits.any _⟩
  · obtain ⟨hhead, hrest⟩ := List.forall₂_cons.1 (hrows _ hmem)
    cases hhead with
    | of ht _ hparts =>
        obtain rfl := ht.unique hus
        exact (forall₂_append_iff hparts.length_eq).2 ⟨hparts, hrest⟩

theorem RowsFit.defaultRows (hrows : RowsFit env rows (t :: ts)) :
    RowsFit env (defaultRows rows) ts := fun _ hrow =>
  (List.forall₂_cons.1 (hrows _ (mem_defaultRows.1 hrow))).2

theorem Spares.specialize {m : Int64} (hrows : Spares rows m) : Spares (specialize rows h n) m := by
  intro row hrow
  rcases mem_specialize.1 hrow with ⟨rest, hmem, rfl⟩ | ⟨parts, rest, hmem, rfl⟩
  · simpa [Case.intsOfList_append, Case.intsOfList_replicate_any, Case.intsOfList, Case.ints]
      using hrows _ hmem
  · have hsource := hrows _ hmem
    simp only [Case.intsOfList, Case.ints, Case.intsOfList_append, List.mem_append] at hsource ⊢
    tauto

theorem Spares.defaultRows {m : Int64} (hrows : Spares rows m) : Spares (defaultRows rows) m := by
  intro row hrow
  simpa [Case.intsOfList, Case.ints] using hrows _ (mem_defaultRows.1 hrow)

/-- Once a value is taken apart, the rows for its head cover what all rows covered before. -/
theorem covers_specialize (hrows : RowsFit env rows (t :: ts)) (hus : h.Splits env t us)
    (hv : v.open? = some (h, ws)) (hlength : us.length = ws.length) :
    Covers (specialize rows h us.length) (ws ++ vs) ↔ Covers rows (v :: vs) := by
  constructor
  · rintro ⟨row, hrow, haccepts⟩
    rcases mem_specialize.1 hrow with ⟨rest, hmem, rfl⟩ | ⟨parts, rest, hmem, rfl⟩
    · obtain ⟨-, hrest⟩ := (forall₂_append_iff (by simp [hlength])).1 haccepts
      exact ⟨_, hmem, .cons (.any v) hrest⟩
    · have hparts : parts.length = ws.length := by
        cases (List.forall₂_cons.1 (hrows _ hmem)).1 with
        | of ht _ hparts => rw [hparts.length_eq, ht.unique hus, hlength]
      obtain ⟨hhead, hrest⟩ := (forall₂_append_iff hparts).1 haccepts
      exact ⟨_, hmem, .cons (.of hv hhead) hrest⟩
  · rintro ⟨row, hrow, haccepts⟩
    obtain ⟨c, rest, hc, hrest, rfl⟩ := List.forall₂_cons_right_iff.1 haccepts
    cases hc with
    | any =>
        refine ⟨_, mem_specialize.2 (Or.inl ⟨rest, hrow, rfl⟩), ?_⟩
        rw [hlength]
        exact (forall₂_append_iff (by simp)).2 ⟨Case.forall₂_replicate_any ws, hrest⟩
    | @of h' parts _ ws' hv' hparts =>
        obtain ⟨rfl, rfl⟩ := Prod.mk.inj (Option.some.inj (hv.symm.trans hv'))
        exact ⟨_, mem_specialize.2 (Or.inr ⟨parts, rest, hrow, rfl⟩),
          (forall₂_append_iff hparts.length_eq).2 ⟨hparts, hrest⟩⟩

theorem Covers.of_defaultRows (h : Covers (defaultRows rows) vs) (v : Value) :
    Covers rows (v :: vs) := by
  obtain ⟨row, hrow, haccepts⟩ := h
  exact ⟨_, mem_defaultRows.1 hrow, .cons (.any v) haccepts⟩

/-- Only rows that accept anything cover a value whose head no row begins with. -/
theorem Covers.defaultRows (h : Covers rows (v :: vs))
    (hv : ∀ h ws, v.open? = some (h, ws) → h ∉ firstHeads rows) : Covers (defaultRows rows) vs := by
  obtain ⟨row, hrow, haccepts⟩ := h
  obtain ⟨c, rest, hc, hrest, rfl⟩ := List.forall₂_cons_right_iff.1 haccepts
  cases hc with
  | any => exact ⟨rest, mem_defaultRows.2 hrow, hrest⟩
  | of hopen _ => exact absurd (mem_firstHeads.2 ⟨_, _, hrow⟩) (hv _ _ hopen)

end Rows

section Missing

variable {rows : Matrix} {h : Head} {t : Ty} {ts : List Ty} {m : Int64}

theorem exists_splits_of_mem_firstHeads (hrows : RowsFit env rows (t :: ts))
    (hh : h ∈ firstHeads rows) : t.Saturated env ∧ ∃ us, h.Splits env t us := by
  obtain ⟨parts, rest, hmem⟩ := mem_firstHeads.1 hh
  cases (List.forall₂_cons.1 (hrows _ hmem)).1 with
  | of ht hargs _ => exact ⟨hargs, _, ht⟩

theorem exists_of_completeSignature {heads : List Head}
    {found : { sig : List (Head × Nat) // ∀ entry ∈ sig, entry.1 ∈ heads }}
    (h : completeSignature env heads = some found) :
    ∃ h ∈ heads, signature env h = some found.1 := by
  simp only [completeSignature, Option.bind_eq_bind, Option.bind_eq_some_iff] at h
  obtain ⟨head, hhead, sig, hsig, hfound⟩ := h
  split at hfound
  · obtain rfl := Option.some.inj hfound
    exact ⟨head, List.mem_of_head? hhead, hsig⟩
  · simp at hfound

theorem Spares.notMem_firstHeads (hrows : Spares rows m) : .int m ∉ firstHeads rows := by
  intro hmem
  obtain ⟨parts, rest, hrow⟩ := mem_firstHeads.1 hmem
  exact hrows _ hrow (by simp [Case.intsOfList, Case.ints])

theorem exists_string_notMem (heads : List Head) : ∃ s, .string s ∉ heads := by
  obtain ⟨s, hs⟩ := Infinite.exists_notMem_finset
    (heads.filterMap fun h => match h with
      | .string s => some s
      | _ => none).toFinset
  refine ⟨s, fun hmem => hs ?_⟩
  rw [List.mem_toFinset, List.mem_filterMap]
  exact ⟨_, hmem, rfl⟩

theorem exists_int_notMem {l : List Int64} (hl : l.length < 2 ^ 64) : ∃ m, m ∉ l := by
  by_contra hall
  push Not at hall
  let ofFin : Fin (2 ^ 64) → Int64 := fun i => .ofBitVec (.ofFin i)
  have hinj : Function.Injective ofFin := fun i j h =>
    BitVec.ofFin.inj (congrArg Int64.toBitVec h)
  have hcard : (Finset.univ.image ofFin).card ≤ l.toFinset.card :=
    Finset.card_le_card fun m _ => List.mem_toFinset.2 (hall m)
  rw [Finset.card_image_of_injective _ hinj, Finset.card_univ, Fintype.card_fin] at hcard
  exact absurd (hcard.trans l.toFinset_card_le) (Nat.not_le.2 hl)

/-- If the first column lacks a head, some value is in the case for that and in no row that begins
with a head. -/
theorem exists_lacking (henv : env.ListsAll) (hrows : RowsFit env rows (t :: ts))
    (hnone : completeSignature env (firstHeads rows) = none) (ht : t.Populated env Held)
    (hm : Spares rows m) :
    ∃ v, Value.HasType env Held t v ∧ (lackingCase env (firstHeads rows)).Accepts v ∧
      ∀ h ws, v.open? = some (h, ws) → h ∉ firstHeads rows := by
  cases hheads : (firstHeads rows).head? with
  | none =>
      obtain ⟨v, hv⟩ := ht.exists_value
      rw [List.head?_eq_none_iff] at hheads
      exact ⟨v, hv, by simpa [lackingCase, hheads] using .any v, by simp [hheads]⟩
  | some h =>
      obtain ⟨-, us, hus⟩ := exists_splits_of_mem_firstHeads hrows (List.mem_of_head? hheads)
      rcases signature_of_splits henv hus with ⟨sig, hsig, hlists⟩ | ⟨hsig, r, hinfinite⟩
      · have hlacks : (sig.find? fun entry => entry.1 ∉ firstHeads rows).isSome := by
          simpa [completeSignature, hheads, hsig] using hnone
        obtain ⟨⟨h', n⟩, hfind⟩ := Option.isSome_iff_exists.1 hlacks
        have hnot : h' ∉ firstHeads rows := by simpa using List.find?_some hfind
        obtain ⟨us', hus', rfl⟩ := (hlists h' n).1 (List.mem_of_find?_eq_some hfind)
        obtain ⟨ws, hws⟩ := exists_values (ht.parts hus')
        obtain ⟨v, hv, hopen⟩ := hus'.exists_value hws
        refine ⟨v, hv, ?_, fun h'' ws' hopen' => ?_⟩
        · rw [lackingCase]
          simp only [hheads, hsig, hfind, Option.bind_eq_bind, Option.bind_some]
          exact .of hopen (hws.length_eq ▸ Case.forall₂_replicate_any ws)
        · obtain ⟨rfl, rfl⟩ := Prod.mk.inj (Option.some.inj (hopen.symm.trans hopen'))
          exact hnot
      · -- No head is named, but there are more integers and strings than the rows ask for.
        have hany : ∀ v, (lackingCase env (firstHeads rows)).Accepts v := by
          intro v
          simpa [lackingCase, hheads, hsig] using .any v
        rcases hinfinite with rfl | rfl
        · refine ⟨.int m, .int m r, hany _, fun h' ws hopen => ?_⟩
          obtain ⟨rfl, rfl⟩ := Prod.mk.inj (Option.some.inj hopen)
          exact hm.notMem_firstHeads
        · obtain ⟨s, hs⟩ := exists_string_notMem (firstHeads rows)
          refine ⟨.string s, .string s r, hany _, fun h' ws hopen => ?_⟩
          obtain ⟨rfl, rfl⟩ := Prod.mk.inj (Option.some.inj hopen)
          exact hs

/-- The answer to whether the rows cover all values of the types is true: either they do, or the
row in the answer accepts values that they do not cover. -/
def IsVerdict (env : VariantEnv) (Held : Ty → Value → Prop) (rows : Matrix) (ts : List Ty) :
    Option Row → Prop
  | none => ∀ vs, List.Forall₂ (Value.HasType env Held) ts vs → Covers rows vs
  | some row => (∀ t ∈ ts, t.Populated env Held) → (∃ m, Spares rows m) →
      ∃ vs, List.Forall₂ (Value.HasType env Held) ts vs ∧ List.Forall₂ Case.Accepts row vs ∧
        ¬Covers rows vs

theorem isVerdict_nil (rows : Matrix) (hrows : RowsFit env rows []) :
    IsVerdict env Held rows [] (if rows.isEmpty then some [] else none) := by
  cases rows with
  | nil => exact fun _ _ => ⟨[], .nil, .nil, by simp [Covers]⟩
  | cons row rows =>
      rintro vs hvs
      obtain rfl := List.forall₂_nil_left_iff.1 hvs
      have hrow : row = [] := List.forall₂_nil_right_iff.1 (hrows row List.mem_cons_self)
      exact ⟨row, List.mem_cons_self, hrow ▸ .nil⟩

/-- If the first column lacks a head, it is enough to look at the rows that accept any value. -/
theorem IsVerdict.defaultRows {answer : Option Row} (henv : env.ListsAll)
    (hrows : RowsFit env rows (t :: ts))
    (hnone : completeSignature env (firstHeads rows) = none)
    (h : IsVerdict env Held (defaultRows rows) ts answer) :
    IsVerdict env Held rows (t :: ts) (answer.map (lackingCase env (firstHeads rows) :: ·)) := by
  cases answer with
  | none =>
      intro vs hvs
      obtain ⟨v, vs, hv, hrest, rfl⟩ := List.forall₂_cons_left_iff.1 hvs
      exact (h vs hrest).of_defaultRows v
  | some row =>
      rintro hts ⟨m, hm⟩
      obtain ⟨ht, hts⟩ := List.forall_mem_cons.1 hts
      obtain ⟨vs, hvs, haccepts, hnot⟩ := h hts ⟨m, hm.defaultRows⟩
      obtain ⟨v, hv, hcase, hhead⟩ := exists_lacking henv hrows hnone ht hm
      exact ⟨v :: vs, .cons hv hvs, .cons hcase haccepts, fun hcovers =>
        hnot (hcovers.defaultRows hhead)⟩

/-- A matrix may be split by the heads of its first column. -/
theorem IsVerdict.specialize {sig : List (Head × Nat)} {us : List Ty}
    (answer : Head × Nat → Option Row) (hrows : RowsFit env rows (t :: ts))
    (hus : h.Splits env t us)
    (hsig : IsSignature env t sig)
    (hparts : ∀ h us, h.Splits env t us → IsVerdict env Held (specialize rows h us.length)
      (us ++ ts) (answer (h, us.length))) :
    IsVerdict env Held rows (t :: ts) (sig.findSome? fun entry =>
      (answer entry).map fun row => .of entry.1 (row.take entry.2) :: row.drop entry.2) := by
  cases hfind : sig.findSome? fun entry =>
      (answer entry).map fun row => .of entry.1 (row.take entry.2) :: row.drop entry.2 with
  | none =>
      intro vs hvs
      obtain ⟨v, vs, hv, hrest, rfl⟩ := List.forall₂_cons_left_iff.1 hvs
      obtain ⟨h', us', ws, hopen, hus', hws⟩ := hv.open hus
      have hanswer : answer (h', us'.length) = none := by
        simpa using List.findSome?_eq_none_iff.1 hfind _ ((hsig h' us'.length).2 ⟨us', hus', rfl⟩)
      have hverdict := hparts h' us' hus'
      rw [hanswer] at hverdict
      exact (covers_specialize hrows hus' hopen hws.length_eq).1
        (hverdict (ws ++ vs) (List.rel_append hws hrest))
  | some row =>
      rintro hts ⟨m, hm⟩
      obtain ⟨ht, hts⟩ := List.forall_mem_cons.1 hts
      obtain ⟨⟨h', n⟩, hmem, hmap⟩ := List.exists_of_findSome?_eq_some hfind
      obtain ⟨us', hus', rfl⟩ := (hsig h' n).1 hmem
      obtain ⟨row', hanswer, rfl⟩ := Option.map_eq_some_iff.1 hmap
      have hverdict := hparts h' us' hus'
      rw [hanswer] at hverdict
      obtain ⟨vs, hvs, haccepts, hnot⟩ := hverdict
        (List.forall_mem_append.2 ⟨ht.parts hus', hts⟩) ⟨m, hm.specialize⟩
      -- The values that are not covered are the parts of one value and the values beside it.
      have hws : List.Forall₂ (Value.HasType env Held) us' (vs.take us'.length) := by
        simpa using List.forall₂_take us'.length hvs
      have hrest : List.Forall₂ (Value.HasType env Held) ts (vs.drop us'.length) := by
        simpa using List.forall₂_drop us'.length hvs
      obtain ⟨v, hv, hopen⟩ := hus'.exists_value hws
      refine ⟨v :: vs.drop us'.length, .cons hv hrest,
        .cons (.of hopen (List.forall₂_take _ haccepts)) (List.forall₂_drop _ haccepts),
        fun hcovers => hnot ?_⟩
      have hsplit := (covers_specialize hrows hus' hopen hws.length_eq).2 hcovers
      rwa [List.take_append_drop] at hsplit

theorem missing_of_complete {width : Nat}
    {sig : { sig : List (Head × Nat) // ∀ entry ∈ sig, entry.1 ∈ firstHeads rows }}
    (h : completeSignature env (firstHeads rows) = some sig) :
    missing env rows (width + 1) = sig.1.findSome? fun entry =>
      (missing env (specialize rows entry.1 entry.2) (entry.2 + width)).map fun row =>
        .of entry.1 (row.take entry.2) :: row.drop entry.2 := by
  obtain ⟨sig, hsig⟩ := sig
  have hattach : ∀ f : Head × Nat → Option Row,
      (sig.attach.findSome? fun entry => f entry.1) = sig.findSome? f := by simp
  rw [missing, h, ← hattach]

theorem missing_of_incomplete {width : Nat} (h : completeSignature env (firstHeads rows) = none) :
    missing env rows (width + 1) =
      (missing env (defaultRows rows) width).map (lackingCase env (firstHeads rows) :: ·) := by
  rw [missing, h]

/-- All heads of the type of a column are among those that the column begins with. -/
theorem isSignature_of_complete (henv : env.ListsAll) (hrows : RowsFit env rows (t :: ts))
    {found : { sig : List (Head × Nat) // ∀ entry ∈ sig, entry.1 ∈ firstHeads rows }}
    (hcomplete : completeSignature env (firstHeads rows) = some found) :
    IsSignature env t found.1 ∧ ∃ h us, Head.Splits env h t us := by
  obtain ⟨h, hh, hsignature⟩ := exists_of_completeSignature hcomplete
  obtain ⟨-, us, hus⟩ := exists_splits_of_mem_firstHeads hrows hh
  refine ⟨?_, h, us, hus⟩
  rcases signature_of_splits henv hus with ⟨sig, hsig, hlists⟩ | ⟨hnone, -⟩
  · obtain rfl : found.1 = sig := Option.some.inj (hsignature.symm.trans hsig)
    exact hlists
  · rw [hnone] at hsignature
    cases hsignature

/-- The search for a missing row is exact on every matrix that fits. -/
theorem isVerdict_missing (henv : env.ListsAll) {width : Nat} (hrows : RowsFit env rows ts)
    (hwidth : ts.length = width) : IsVerdict env Held rows ts (missing env rows width) := by
  induction rows, width using missing.induct env generalizing ts with
  | case1 rows hempty | case2 rows hempty =>
      obtain rfl := List.length_eq_zero_iff.1 hwidth
      rw [missing]
      exact isVerdict_nil rows hrows
  | case3 rows width sig hsig hcomplete ih =>
      obtain ⟨t, ts, rfl⟩ := List.exists_cons_of_length_eq_add_one hwidth
      obtain rfl : ts.length = width := by simpa using hwidth
      obtain ⟨hlists, h, us, hus⟩ := isSignature_of_complete henv hrows hcomplete
      have hverdict := IsVerdict.specialize (fun entry =>
          missing env (specialize rows entry.1 entry.2) (entry.2 + ts.length))
        hrows hus hlists fun h' us' hus' =>
          ih (h', us'.length) ((hlists h' us'.length).2 ⟨us', hus', rfl⟩)
            (hrows.specialize hus') (by simp)
      rw [missing_of_complete hcomplete]
      exact hverdict
  | case4 rows width hcomplete ih =>
      obtain ⟨t, ts, rfl⟩ := List.exists_cons_of_length_eq_add_one hwidth
      rw [missing_of_incomplete hcomplete]
      exact (ih hrows.defaultRows (by simpa using hwidth)).defaultRows henv hrows hcomplete

theorem length_of_missing {width : Nat} {row : Row} (h : missing env rows width = some row) :
    row.length = width := by
  induction rows, width using missing.induct env generalizing row with
  | case1 rows hempty =>
      rw [missing, if_pos hempty] at h
      exact Option.some.inj h ▸ rfl
  | case2 rows hempty =>
      rw [missing, if_neg hempty] at h
      simp at h
  | case3 rows width sig hsig hcomplete ih =>
      rw [missing_of_complete hcomplete] at h
      obtain ⟨entry, hentry, hmap⟩ := List.exists_of_findSome?_eq_some h
      obtain ⟨row', hrow', rfl⟩ := Option.map_eq_some_iff.1 hmap
      simp [ih entry hentry hrow']
  | case4 rows width hcomplete ih =>
      rw [missing_of_incomplete hcomplete] at h
      obtain ⟨row', hrow', rfl⟩ := Option.map_eq_some_iff.1 h
      simp [ih hrow']

end Missing

section Patterns

variable {patterns : List CorePattern} {t : Ty} {c : Case} {v : Value}

theorem rowsFit_patterns (hfit : ∀ p ∈ patterns, (Case.ofPattern p).Fits env t) :
    RowsFit env (patterns.map fun p => [Case.ofPattern p]) [t] := by
  intro row hrow
  obtain ⟨p, hp, rfl⟩ := List.mem_map.1 hrow
  exact .cons (hfit p hp) .nil

theorem isVerdict_patterns (Held : Ty → Value → Prop) (henv : env.ListsAll)
    (hfit : ∀ p ∈ patterns, (Case.ofPattern p).Fits env t) :
    IsVerdict env Held (patterns.map fun p => [Case.ofPattern p]) [t]
      (missing env (patterns.map fun p => [Case.ofPattern p]) 1) :=
  isVerdict_missing henv (rowsFit_patterns hfit) rfl

theorem spares_patterns {m : Int64} (hm : m ∉ Case.intsOfList (Case.ofPatterns patterns)) :
    Spares (patterns.map fun p => [Case.ofPattern p]) m := by
  intro row hrow hmem
  obtain ⟨p, hp, rfl⟩ := List.mem_map.1 hrow
  rw [Case.ofPatterns_eq_map, Case.mem_intsOfList] at hm
  exact hm ⟨_, List.mem_map_of_mem hp, by simpa [Case.intsOfList] using hmem⟩

theorem covers_patterns : Covers (patterns.map fun p => [Case.ofPattern p]) [v] ↔
    ∃ p ∈ patterns, (Case.ofPattern p).Accepts v := by
  simp [Covers]

/-- If the analysis finds no missing case, every value of the type is accepted. -/
theorem exists_accepts_of_analyze (henv : env.ListsAll)
    (hfit : ∀ p ∈ patterns, (Case.ofPattern p).Fits env t)
    (hnone : (analyze env patterns).missing = none) (hv : v.HasType env Held t) :
    ∃ p ∈ patterns, (Case.ofPattern p).Accepts v := by
  have hverdict := isVerdict_patterns Held henv hfit
  cases hmissing : missing env (patterns.map fun p => [Case.ofPattern p]) 1 with
  | none =>
      rw [hmissing] at hverdict
      exact covers_patterns.1 (hverdict [v] (.cons hv .nil))
  | some row =>
      obtain ⟨c, rfl⟩ := List.length_eq_one_iff.1 (length_of_missing hmissing)
      simp [analyze, hmissing] at hnone

/-- If it finds one, some value in that case is not accepted. -/
theorem exists_not_accepts_of_analyze (henv : env.ListsAll)
    (hfit : ∀ p ∈ patterns, (Case.ofPattern p).Fits env t)
    (hsome : (analyze env patterns).missing = some c) (ht : t.Populated env Held)
    (hints : (Case.intsOfList (Case.ofPatterns patterns)).length < 2 ^ 64) :
    ∃ v, v.HasType env Held t ∧ c.Accepts v ∧ ∀ p ∈ patterns, ¬(Case.ofPattern p).Accepts v := by
  have hverdict := isVerdict_patterns Held henv hfit
  obtain ⟨row, hmissing, hhead⟩ := Option.bind_eq_some_iff.1 hsome
  obtain ⟨c', rfl⟩ := List.length_eq_one_iff.1 (length_of_missing hmissing)
  obtain rfl : c' = c := Option.some.inj hhead
  rw [hmissing] at hverdict
  obtain ⟨m, hm⟩ := exists_int_notMem hints
  obtain ⟨vs, hvs, haccepts, hnot⟩ := hverdict (by simpa using ht) ⟨m, spares_patterns hm⟩
  obtain ⟨v, _, hv, hnil, rfl⟩ := List.forall₂_cons_left_iff.1 hvs
  obtain rfl := List.forall₂_nil_left_iff.1 hnil
  exact ⟨v, hv, (List.forall₂_cons.1 haccepts).1, fun p hp hacc =>
    hnot (covers_patterns.2 ⟨p, hp, hacc⟩)⟩

end Patterns

end Coverage

end FieldML
