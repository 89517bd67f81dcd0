import FieldML.Proofs.Check.PatternType
import FieldML.Proofs.Check.Register
import FieldML.Proofs.Layout.Variants
import FieldML.Proofs.Reading.TypeText
import FieldML.Proofs.Script.Fresh

/-!
# A type that is read means the type that was printed

An annotation gives a variable to every name it meets, in the order in which the printer named the
variables of the type. So the type it means is the printed one with other variables.
-/

open FieldML.Check

namespace FieldML

variable {syn : Prop} {ρ : TypeVar → TypeVar} {params : List TypeVar} {args ts : List Ty} {t : Ty}
  {v : TypeVar}

theorem lookup_zip_map (f : Ty → Ty) (params : List TypeVar) (args : List Ty) (v : TypeVar) :
    (params.zip (args.map f)).lookup v = ((params.zip args).lookup v).map f := by
  induction params generalizing args with
  | nil => rfl
  | cons p params ih =>
      cases args with
      | nil => rfl
      | cons u args =>
          simp only [List.map_cons, List.zip_cons_cons, List.lookup_cons, ih]
          split <;> rfl

/-- Arguments are renamed where they stand, as all variables of the type are parameters. -/
theorem Ty.Simple.rename_instantiateAll (ht : t.Simple syn) (hvars : ∀ v ∈ t.freeVars, v ∈ params)
    (hlength : params.length = args.length) :
    (t.instantiateAll params args).rename ρ = t.instantiateAll params (args.map (Ty.rename ρ)) := by
  refine ht.mapVars_mapVars.trans (ht.mapVars_congr fun v hv r => ?_)
  have hmem : v ∈ (params.zip args).map Prod.fst := by
    rw [List.map_fst_zip hlength.le]
    exact hvars v hv
  rw [if_neg List.not_mem_nil, if_neg List.not_mem_nil, lookup_zip_map]
  cases hlookup : (params.zip args).lookup v with
  | some u => rfl
  | none =>
      obtain ⟨p, hp, rfl⟩ := List.mem_map.1 hmem
      simpa using List.lookup_eq_none_iff.1 hlookup p hp

theorem VariantEnv.resolve_eq_ok {env : VariantEnv} {name : String} {r : Range}
    (h : env.resolve name args r = .ok t) : ∃ d, env.definition? name = some d ∧
      d.params.length = args.length ∧ ∀ args' : List Ty, args'.length = args.length → ∀ r',
        env.resolve name args' r' = .ok (match d with
          | .variant _ _ => .variant name args' r'
          | .synonym params body => .synonym name args' (body.instantiateParams params args') r') := by
  unfold resolve at h
  split at h
  · cases h
  · next d hd =>
      split at h
      · cases h
      · next hlength =>
          refine ⟨d, hd, not_not.1 hlength, fun args' hargs' r' => ?_⟩
          rw [resolve, hd, hargs']
          simp only [if_neg hlength]
          cases d <;> rfl

namespace Ty.Readable

variable {env : VariantEnv}

theorem simple (henv : env.Wf) (ht : t.Readable env) : t.Simple True := by
  induction ht with
  | base b r => exact .base b r
  | var v r => exact .var v r
  | func r hp hq ihp ihq => exact .func r ihp ihq
  | list r ht ih => exact .list r ih
  | product r hlength hts ih => exact .product r ih
  | @variant ts n r hname hresolve hts ih => exact .variant n r ih
  | @synonym ts n t r hname hresolve hapart hts ih =>
      exact (henv.resolve (V := fun _ => True) (fun u hu => ⟨ih u hu, fun _ _ => trivial⟩) hresolve).1
  | record r hsorted hnames hfs ih => exact .record r hsorted ih

end Ty.Readable

/-! ### Names in an annotation -/

namespace TypeScope

/-- The scope knows these of all names, by the variables that are handed out for them from `base`
on, and no others. -/
structure Knows (scope : TypeScope) (all names : TypeNames) (base : TypeVar) : Prop where
  isOpen : scope.isOpen = true
  known : ∀ v ∈ names, ∃ r,
    Fields.get? scope.names (all.labelOf v) = some (.var (base + all.idxOf v) r)
  unknown : ∀ v ∈ all, v ∉ names → Fields.get? scope.names (all.labelOf v) = none

variable {scope : TypeScope} {all names : TypeNames} {base : TypeVar}

theorem Knows.insert (h : scope.Knows all names base) (hv : v ∈ all) (r : Range) :
    TypeScope.Knows { scope with
      names := Fields.insert (all.labelOf v) (.var (base + all.idxOf v) r) scope.names }
      all (names ++ [v]) base where
  isOpen := h.isOpen
  known w hw := by
    dsimp only
    rw [Fields.get?_insert]
    split
    · next heq =>
        obtain rfl := (TypeNames.labelOf_inj hv).1 heq
        exact ⟨r, rfl⟩
    · next hne =>
        refine h.known w ((List.mem_append.1 hw).resolve_right ?_)
        rintro hmem
        obtain rfl := List.mem_singleton.1 hmem
        exact hne rfl
  unknown w hw hnot := by
    dsimp only
    rw [Fields.get?_insert, if_neg, h.unknown w hw fun hmem => hnot (List.mem_append_left _ hmem)]
    intro heq
    obtain rfl := (TypeNames.labelOf_inj hv).1 heq
    exact hnot (List.mem_append_right _ (List.mem_singleton_self _))

end TypeScope

namespace Check

variable {s : CheckState} {o : CheckOptions} {all names : TypeNames} {scope : TypeScope}
  {es : List TypeExpr} {fs before : List (String × Ty)} {gs : List (Ident × TypeExpr)}

/-- Every variable of the type stands for the one that is handed out for its name. -/
def renamed (s : CheckState) (all : TypeNames) (t : Ty) :
    Ty := t.rename fun v => s.next + all.idxOf v

/-- After these names have been met the written type means the type with other variables. -/
def MeansType (s : CheckState) (o : CheckOptions) (all : TypeNames) (t : Ty) (e : TypeExpr) :
    Prop :=
  ∀ names scope, names.addAll t.freeVars <+: all → scope.Knows all names s.next →
    ∃ u scope', typeExpr scope e o (s.skip names.length) =
        (.ok (u, scope'), s.skip (names.addAll t.freeVars).length) ∧
      scope'.Knows all (names.addAll t.freeVars) s.next ∧ u.erase = (renamed s all t).erase

theorem typeVariable_apply {name : Ident} (hname : name.text = all.labelOf v)
    (hall : names.add v <+: all) (hscope : scope.Knows all names s.next) :
    ∃ r scope', typeVariable name scope o (s.skip names.length) =
        (.ok (.var (s.next + all.idxOf v) r, scope'), s.skip (names.add v).length) ∧
      scope'.Knows all (names.add v) s.next := by
  unfold typeVariable
  rw [hname]
  by_cases hv : v ∈ names
  · obtain ⟨r, hr⟩ := hscope.known v hv
    rw [hr, TypeNames.add, if_pos hv]
    exact ⟨name.range, scope, rfl, hscope⟩
  · have hmem : v ∈ all := hall.subset (names.mem_add v)
    have hindex : all.idxOf v = names.length := TypeNames.idxOf_of_notMem hv hall
    rw [hscope.unknown v hmem hv, TypeNames.add, if_neg hv, List.length_append]
    refine ⟨name.range, _, ?_, hscope.insert hmem name.range⟩
    simp only [hscope.isOpen, if_true, bind_apply, fresh_apply, pure_apply]
    rw [hindex]
    rfl

theorem typeExprs_apply (h : List.Forall₂ (MeansType s o all) ts es)
    (hall : names.addAll (Ty.freeVarsOfList [] ts) <+: all)
    (hscope : scope.Knows all names s.next) :
    ∃ us scope', typeExprs scope es o (s.skip names.length) =
        (.ok (us, scope'), s.skip (names.addAll (Ty.freeVarsOfList [] ts)).length) ∧
      scope'.Knows all (names.addAll (Ty.freeVarsOfList [] ts)) s.next ∧
      us.map Ty.erase = (ts.map (renamed s all)).map Ty.erase := by
  induction h generalizing names scope with
  | nil => exact ⟨[], scope, rfl, hscope, rfl⟩
  | @cons t e ts es he _ ih =>
      rw [Ty.freeVarsOfList_cons, TypeNames.addAll_append] at hall ⊢
      obtain ⟨u, scope₁, hrun, hscope₁, hu⟩ :=
        he names scope ((TypeNames.prefix_addAll _ _).trans hall) hscope
      obtain ⟨us, scope₂, hruns, hscope₂, hus⟩ := ih hall hscope₁
      refine ⟨u :: us, scope₂, ?_, hscope₂, congrArg₂ List.cons hu hus⟩
      rw [typeExprs, bind_apply, hrun]
      simp only [bind_apply, hruns, pure_apply]

/-- A field with a name after all others stands last. -/
theorem Fields.insert_last {α : Type} {fs : List (String × α)} {n : String}
    (h : ∀ m ∈ Fields.names fs, m < n) (a : α) : Fields.insert n a fs = fs ++ [(n, a)] := by
  induction fs with
  | nil => rfl
  | cons f fs ih =>
      obtain ⟨m, b⟩ := f
      obtain ⟨hm, hfs⟩ := List.forall_mem_cons.1 h
      rw [Fields.insert, if_neg (String.lt_asymm hm), if_neg (ne_of_gt hm), ih hfs]
      rfl

theorem typeExprFields_apply (hnames : List.Forall₂ (fun f g => g.1.text = f.1) fs gs)
    (h : List.Forall₂ (MeansType s o all) (fs.map Prod.snd) (gs.map Prod.snd))
    (hsorted : (Fields.names before ++ Fields.names fs).Pairwise (· < ·))
    (hall : names.addAll (Ty.freeVarsOfFields [] fs) <+: all)
    (hscope : scope.Knows all names s.next) :
    ∃ us scope', typeExprFields scope before gs o (s.skip names.length) =
        (.ok (before ++ us, scope'), s.skip (names.addAll (Ty.freeVarsOfFields [] fs)).length) ∧
      scope'.Knows all (names.addAll (Ty.freeVarsOfFields [] fs)) s.next ∧
      us.map (fun p => (p.1, p.2.erase)) = fs.map fun p => (p.1, (renamed s all p.2).erase) := by
  induction hnames generalizing names scope before with
  | nil => exact ⟨[], scope, by rw [List.append_nil]; rfl, hscope, rfl⟩
  | @cons f g fs gs hname _ ih =>
      obtain ⟨n, t⟩ := f
      obtain ⟨name, e⟩ := g
      obtain rfl : name.text = n := hname
      cases h with
      | cons he h =>
          rw [Ty.freeVarsOfFields_cons, TypeNames.addAll_append] at hall ⊢
          obtain ⟨u, scope₁, hrun, hscope₁, hu⟩ :=
            he names scope ((TypeNames.prefix_addAll _ _).trans hall) hscope
          have hlast : ∀ m ∈ Fields.names before, m < name.text := fun m hm =>
            (List.pairwise_append.1 hsorted).2.2 m hm _ List.mem_cons_self
          have hnew : Fields.get? before name.text = none :=
            Fields.get?_eq_none.2 fun hmem => lt_irrefl _ (hlast _ hmem)
          have hsorted' : (Fields.names (before ++ [(name.text, u)]) ++ Fields.names fs).Pairwise
              (· < ·) := by
            simpa [Fields.names] using hsorted
          obtain ⟨us, scope₂, hruns, hscope₂, hus⟩ := ih h hsorted' hall hscope₁
          refine ⟨(name.text, u) :: us, scope₂, ?_, hscope₂,
            congrArg₂ List.cons (congrArg (Prod.mk _) hu) hus⟩
          rw [typeExprFields, bind_apply, hrun]
          simp only [hnew, Option.isSome_none, Bool.false_eq_true, if_false, Fields.insert_last hlast,
            hruns, List.append_assoc, List.singleton_append]

/-! ### Declared types -/

/-- No declared type has the name of one that needs no declaration. -/
theorem namedType_apply (hreg : s.variants.Registered) {name : Ident} {r : Range}
    {d : TypeDefinition} (hd : s.variants.definition? name.text = some d)
    (hresolve : s.variants.resolve name.text args r = .ok t) :
    namedType name args r o s = (.ok t, s) := by
  have hnot : name.text ∉ VariantEnv.builtinNames := fun hmem => by
    rw [hreg.reserves _ hmem] at hd
    cases hd
  unfold namedType
  simp only [baseType?_eq_none hnot, unaryType?_eq_none hnot, bind_apply, get_apply, hresolve]
  rfl

/-- The type that a synonym stands for, with the new variables in its arguments. -/
theorem instantiateParams_renamed (hs : s.Ready []) {name : String} {body : Ty}
    (hd : s.variants.definition? name = some (.synonym params body))
    (hlength : params.length = ts.length) (hts : ∀ t ∈ ts, t.Simple True)
    (hapart : ApartFrom params ts) :
    body.instantiateParams params (ts.map (renamed s all)) =
      renamed s all (body.instantiateParams params ts) := by
  obtain ⟨hbody, hvars⟩ := hs.wf.variants.synonyms name params body hd
  have hparams : ∀ v ∈ params, v < s.next := fun v hv => by
    refine hs.declared v (List.mem_append_left _ (List.mem_append_left _ ?_))
    exact List.mem_flatMap.2 ⟨_, Fields.mem_of_get? hd, List.mem_append_left _ hv⟩
  have hsimple : ∀ t ∈ ts.map (renamed s all), t.Simple True := by
    intro _ hmem
    obtain ⟨t, ht, rfl⟩ := List.mem_map.1 hmem
    exact (hts t ht).rename _
  have hnew : ApartFrom params (ts.map (renamed s all)) := by
    intro _ hu v hv hmem
    obtain ⟨t, ht, rfl⟩ := List.mem_map.1 hu
    have hfree := ((hts t ht).rename _).mem_allVars.1 hmem
    obtain ⟨w, -, rfl⟩ := (hts t ht).exists_of_mem_freeVars_rename hfree
    exact absurd (hparams _ hv) (Nat.not_lt.2 (Nat.le_add_right _ _))
  rw [hbody.instantiateParams_eq hsimple hnew, hbody.instantiateParams_eq hts hapart]
  exact (hbody.rename_instantiateAll hvars hlength).symm

/-- A name with renamed arguments is the renamed type. -/
theorem resolve_renamed (hs : s.Ready []) {name : String} {r : Range}
    (hresolve : s.variants.resolve name ts r = .ok t) (hts : ∀ t ∈ ts, t.Simple True)
    (hapart : ∀ params body, s.variants.definition? name = some (.synonym params body) →
      ApartFrom params ts) :
    s.variants.resolve name (ts.map (renamed s all)) r = .ok (renamed s all t) := by
  obtain ⟨d, hd, hlength, hother⟩ := VariantEnv.resolve_eq_ok hresolve
  rw [hother _ (List.length_map _) r]
  obtain rfl := Except.ok.inj (hresolve.symm.trans (hother ts rfl r))
  cases d with
  | variant params ctors =>
      simp only [renamed, Ty.rename, Ty.mapVars_variant]
      rfl
  | «synonym» params body =>
      dsimp only
      rw [instantiateParams_renamed hs hd hlength hts (hapart params body hd)]
      simp only [renamed, Ty.rename, Ty.mapVars_synonym]
      rfl

/-- A declared type means the declared type with the new variables in its arguments. -/
theorem typeExpr_named_apply (hs : s.Ready []) (hreg : s.variants.Registered) {n : Ident}
    {r q : Range} (hresolve : s.variants.resolve n.text ts r = .ok t) (hts : ∀ t ∈ ts, t.Simple True)
    (hapart : ∀ params body, s.variants.definition? n.text = some (.synonym params body) →
      ApartFrom params ts) (h : List.Forall₂ (MeansType s o all) ts es)
    (hall : names.addAll (Ty.freeVarsOfList [] ts) <+: all)
    (hscope : scope.Knows all names s.next) :
    ∃ u scope', typeExpr scope (.named es n q) o (s.skip names.length) =
        (.ok (u, scope'), s.skip (names.addAll (Ty.freeVarsOfList [] ts)).length) ∧
      scope'.Knows all (names.addAll (Ty.freeVarsOfList [] ts)) s.next ∧
      u.erase = (renamed s all t).erase := by
  obtain ⟨us, scope', hus, hscope', heq⟩ := typeExprs_apply h hall hscope
  obtain ⟨d, hd, -, hother⟩ := VariantEnv.resolve_eq_ok hresolve
  have hlength : us.length = ts.length := by simpa using congrArg List.length heq
  obtain ⟨u, hu⟩ : ∃ u, s.variants.resolve n.text us q = .ok u := ⟨_, hother us hlength q⟩
  refine ⟨u, scope', ?_, hscope', ?_⟩
  · rw [typeExpr, bind_apply, hus]
    simp only [bind_apply, namedType_apply (s := s.skip _) hreg hd hu, pure_apply]
  · have hread := s.variants.resolve_erase n.text us q
    have hprinted := s.variants.resolve_erase n.text (ts.map (renamed s all)) r
    rw [hu, Ty.eraseList_eq_map, heq] at hread
    rw [resolve_renamed hs hresolve hts hapart, Ty.eraseList_eq_map] at hprinted
    exact Except.ok.inj (hread.symm.trans hprinted)

end Check

theorem forall₂_of_mem {α β : Type} {R S : α → β → Prop} {l : List α} {l' : List β}
    (h : List.Forall₂ R l l') (hRS : ∀ a ∈ l, ∀ b, R a b → S a b) : List.Forall₂ S l l' :=
  ((List.forall₂_and_left l l').2 ⟨hRS, h⟩).imp fun _ b h => h.1 b h.2

/-- Where no names are known yet, and later, the written type means the printed one with the
variables that are handed out for the names. -/
theorem Ty.Readable.meansType {s : CheckState} {o : CheckOptions} {all : TypeNames}
    (hs : s.Ready [])
    (hreg : s.variants.Registered) (ht : t.Readable s.variants) {e : TypeExpr}
    (he : t.Written all.labelOf e) : MeansType s o all t e := by
  induction ht generalizing e with
  | base b r =>
      cases he with
      | @base _ _ q n hn =>
          intro names scope _ hscope
          have hbase : baseType? n.text = some b := by
            rw [hn]
            cases b <;> rfl
          refine ⟨.base b q, scope, ?_, hscope, rfl⟩
          simp only [typeExpr, typeExprs, namedType, hbase, bind_apply, pure_apply]
          rfl
  | var v r =>
      cases he with
      | var hn =>
          intro names scope hall hscope
          obtain ⟨q, scope', hrun, hscope'⟩ := typeVariable_apply hn hall hscope
          exact ⟨_, scope', hrun, hscope', rfl⟩
  | @func p q r _ _ ihp ihq =>
      cases he with
      | @func _ _ _ _ _ place hp hq =>
          intro names scope hall hscope
          have hvars : (Ty.func p q r).freeVars = p.freeVars ++ q.freeVars := rfl
          rw [hvars, TypeNames.addAll_append] at hall ⊢
          obtain ⟨u, scope₁, hu, hscope₁, hup⟩ :=
            ihp hp names scope ((TypeNames.prefix_addAll _ _).trans hall) hscope
          obtain ⟨w, scope₂, hw, hscope₂, hwq⟩ := ihq hq _ scope₁ hall hscope₁
          refine ⟨.func u w place, scope₂, ?_, hscope₂, congrArg₂ (Ty.func · · .erased) hup hwq⟩
          simp only [typeExpr, bind_apply, hu, hw, pure_apply]
  | @list t r _ ih =>
      cases he with
      | @list _ _ _ place n hn hwritten =>
          intro names scope hall hscope
          obtain ⟨u, scope₁, hu, hscope₁, hut⟩ := ih hwritten names scope hall hscope
          refine ⟨.list u place, scope₁, ?_, hscope₁, congrArg (Ty.list · .erased) hut⟩
          have hunary : unaryType? n.text = some .list := hn ▸ rfl
          have hbase : baseType? n.text = none := hn ▸ rfl
          simp only [typeExpr, typeExprs, namedType, hbase, hunary, bind_apply, hu, pure_apply]
          rfl
  | @product ts r _ _ ih =>
      cases he with
      | @product _ _ _ place hwritten =>
          intro names scope hall hscope
          have heach := forall₂_of_mem hwritten fun t ht e => ih t ht
          obtain ⟨us, scope₁, hus, hscope₁, heq⟩ := typeExprs_apply heach hall hscope
          refine ⟨.product us place, scope₁, ?_, hscope₁, ?_⟩
          · simp only [typeExpr, bind_apply, hus, pure_apply]
            rfl
          · simp only [renamed, rename, mapVars_product, erase, eraseList_eq_map]
            exact congrArg (Ty.product · .erased) heq
  | @variant ts n r _ hresolve hts ih =>
      cases he with
      | variant hn hwritten =>
          subst hn
          intro names scope hall hscope
          refine typeExpr_named_apply hs hreg hresolve
            (fun u hu => (hts u hu).simple hs.wf.variants.toWf) (fun params body hd => ?_)
            (forall₂_of_mem hwritten fun t ht e => ih t ht) hall hscope
          obtain ⟨d, hd', -, hother⟩ := VariantEnv.resolve_eq_ok hresolve
          obtain rfl := Option.some.inj (hd.symm.trans hd')
          cases hresolve.symm.trans (hother ts rfl r)
  | synonym _ hresolve hapart hts ih =>
      cases he with
      | «synonym» hn hwritten =>
          subst hn
          intro names scope hall hscope
          exact typeExpr_named_apply hs hreg hresolve
            (fun u hu => (hts u hu).simple hs.wf.variants.toWf) hapart
            (forall₂_of_mem hwritten fun t ht e => ih t ht) hall hscope
  | @record fs r hsorted _ _ ih =>
      cases he with
      | @record _ gs _ place hnames hwritten =>
          intro names scope hall hscope
          have heach : List.Forall₂ (MeansType s o all) (fs.map Prod.snd) (gs.map Prod.snd) := by
            refine forall₂_of_mem hwritten fun t ht e he => ?_
            obtain ⟨p, hp, rfl⟩ := List.mem_map.1 ht
            exact ih p hp he
          have hfirst : (Fields.names ([] : List (String × Ty)) ++ Fields.names fs).Pairwise
              (· < ·) := hsorted
          obtain ⟨us, scope₁, hus, hscope₁, heq⟩ :=
            typeExprFields_apply hnames heach hfirst hall hscope
          refine ⟨.record us place, scope₁, ?_, hscope₁, ?_⟩
          · simp only [typeExpr, bind_apply, hus, pure_apply]
            rfl
          · simp only [renamed, rename, mapVars_record, erase, eraseFields_eq_map, List.map_map]
            exact congrArg (Ty.record · .erased) heq

end FieldML
