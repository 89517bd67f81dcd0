import FieldML.Proofs.Layout.Ty
import FieldML.Proofs.Typing.Complete
import FieldML.Proofs.Typing.Signature

/-!
# Principal types of programs

A program without record operations, synonyms and annotations checks if and only if it has a type by
the rules. Its types are then exactly the instances of the one that is found.
-/

namespace FieldML

open Check

variable {syn : Prop} {sig : VariantEnv} {n : TypeVar} {t : Ty} {o : CheckOptions} {p : Program}
  {s s' : CheckState} {σ : Instantiation} {τ : MonoTy} {vars : List TypeVar} {r : Range}

/-- The types of the names that every program can use. -/
def initialContext : Context := initialTypeEnv.map fun p => (p.1, p.2.poly)

/-- Whether the program declares no synonyms, and has no field access, no record update and no type
annotation. -/
def Program.isPlain (p : Program) : Bool :=
  p.groups.all (·.all TypeDecl.isVariant) && p.body.isPlain

/-- The declarations of the program are in order, and its expression has the type where they are
known. -/
def Program.HasType (p : Program) (τ : MonoTy) : Prop :=
  ∃ sig, p.signature? = some sig ∧ FieldML.HasType sig initialContext p.body τ

namespace Ty

namespace Simple

protected theorem erase (ht : t.Simple False) : t.erase.Simple False := by
  induction ht with
  | base b r => exact .base b .erased
  | var v r => exact .var v .erased
  | func r hp hq ihp ihq => exact .func .erased ihp ihq
  | list r ht ih => exact .list .erased ih
  | ref r ht ih => exact .ref .erased ih
  | product r hts ih =>
      rw [Ty.erase, eraseList_eq_map]
      exact .product .erased (List.forall_mem_map.2 ih)
  | variant n r hts ih =>
      rw [Ty.erase, eraseList_eq_map]
      exact .variant n .erased (List.forall_mem_map.2 ih)
  | synonym n r hsyn => exact hsyn.elim
  | record r hsorted hfs ih =>
      rw [Ty.erase, eraseFields_eq_map]
      exact .record .erased ((Fields.sorted_congr (Fields.names_map _ _)).2 hsorted)
        (List.forall_mem_map.2 ih)

/-- A quantified type stands for itself. -/
theorem poly_forAll (ht : t.Simple syn) : (forAll r vars t).poly = ⟨vars, t.mono .var⟩ := by
  induction vars with
  | nil => cases ht <;> rfl
  | cons v vars ih =>
      rw [show forAll r (v :: vars) t = .all v .universal (forAll r vars t) r from rfl, poly, ih]

end Simple

theorem Poly.hasInstance_iff (ht : t.Poly (fun _ => False) n) :
    t.HasInstance σ τ ↔ t.poly.HasInstance τ := by
  cases ht with
  | @mk vars t r _ _ ht hclosed =>
      have hfree : ∀ v ∈ t.freeVars, v ∈ vars := fun v hv => by
        by_contra hnot
        exact (hclosed v hv hnot).1
      -- Only what the quantified variables stand for matters.
      have hmono : ∀ {ρ ρ' : Instantiation}, (∀ v ∈ vars, ρ v = ρ' v) → t.mono ρ = t.mono ρ' :=
        fun h => ht.mono_congr fun v hv => h v (hfree v hv)
      rw [hasInstance_quantifyWith ht, ht.poly_forAll, PolyTy.HasInstance]
      constructor
      · rintro ⟨ρ, -, rfl⟩
        refine ⟨fun v => if v ∈ vars then ρ v else .var v, fun v hv => if_neg hv, ?_⟩
        rw [← ht.mono_eq_subst]
        exact hmono fun v hv => (if_pos hv).symm
      · rintro ⟨δ, -, rfl⟩
        refine ⟨fun v => if v ∈ vars then δ v else σ v, fun v hv => if_neg hv, ?_⟩
        rw [← ht.mono_eq_subst]
        exact hmono fun v hv => (if_pos hv).symm

end Ty

namespace Primitive

theorem live_arrow {V : TypeVar → Prop} {params : List Ty} {result : Ty}
    (hparams : ∀ t ∈ params, t.Live V n) (hresult : result.Live V n) :
    (arrow params result).Live V n := by
  unfold arrow
  induction params with
  | nil => exact hresult
  | cons t ts ih =>
      exact (hparams t List.mem_cons_self).func
        (ih fun u hu => hparams u (List.mem_cons_of_mem _ hu)) range

theorem poly_polymorphic {v : TypeVar} {body : Ty → Ty} (hv : v < n)
    (hbody : (body (.var v range)).Live (· = v) n) :
    (polymorphic v body).Poly (fun _ => False) n :=
  @Ty.Poly.mk _ _ [v] _ range (List.nodup_singleton v)
    (fun _ hw => ⟨id, List.mem_singleton.1 hw ▸ hv⟩) hbody.simple
    fun w hw hnot => absurd (List.mem_singleton.2 (hbody.inside w hw).1) hnot

/-- The types of primitives have no open variables. -/
theorem poly_type (p : Primitive) : p.type.Poly (fun _ => False) 4 := by
  have hbase : ∀ {V : TypeVar → Prop} b, (base b).Live V 4 := fun b => .base b range
  have hvar : ∀ v < 4, (Ty.var v range).Live (· = v) 4 := fun v hv =>
    .var (V := (· = v)) rfl hv range
  cases p
  case eq | ne =>
    rw [type]
    refine poly_polymorphic (by decide) (live_arrow (fun t ht => ?_) (hbase _))
    simp only [List.mem_cons, List.not_mem_nil, or_false, or_self] at ht
    exact ht ▸ hvar _ (by decide)
  case cons =>
    have hlist := (hvar 2 (by decide)).list range
    rw [type]
    refine poly_polymorphic (by decide) (live_arrow (fun t ht => ?_) hlist)
    simp only [List.mem_cons, List.not_mem_nil, or_false] at ht
    rcases ht with rfl | rfl
    · exact hvar 2 (by decide)
    · exact hlist
  case listLength =>
    rw [type]
    refine poly_polymorphic (by decide) (live_arrow (fun t ht => ?_) (hbase _))
    exact List.mem_singleton.1 ht ▸ (hvar 3 (by decide)).list range
  all_goals exact .of_live (live_arrow (by simp [hbase]) (hbase _))

end Primitive

theorem poly_initialTypeEnv : ∀ p ∈ initialTypeEnv, p.2.Poly (fun _ => False) 4 := by
  rintro ⟨name, t⟩ hp
  obtain ⟨q, -, heq⟩ := List.mem_map.1 (Fields.mem_of_mem_ofList hp)
  obtain ⟨-, rfl⟩ := Prod.mk.inj heq
  exact q.poly_type

theorem atMost_initialContext (σ : Instantiation) :
    TypeEnv.AtMost σ initialTypeEnv initialContext :=
  .map_right fun p hp _ => (poly_initialTypeEnv p hp).hasInstance_iff.1

theorem atLeast_initialContext (σ : Instantiation) :
    TypeEnv.AtLeast σ initialTypeEnv initialContext :=
  .map_right fun p hp _ => (poly_initialTypeEnv p hp).hasInstance_iff.2

namespace Check

/-- The state after the declarations of a program without synonyms. -/
structure Ready (s : CheckState) : Prop where
  flat : s.variants.Flat
  live : s.Live s.variants (s.next ≤ ·)
  unbound : ∀ v, s.solver.subst.find? v = none
  env : TypeEnv.Live (s.next ≤ ·) s.next initialTypeEnv

theorem ready_of_declared (hp : ∀ group ∈ p.groups, ∀ decl ∈ group, decl.isVariant = true)
    (hrun : declared initialEnvironments o p = (.ok (), s)) : Ready s := by
  obtain ⟨hfree, hsolver, -⟩ := Declaring.forM (fun group hgroup =>
    declaring_declareGroup (hp group hgroup)) o _ _ s synonymFree_initialVariantEnv hrun
  have hdeclares := declares_declared (o := o) (p := p) (.start wf_initialEnvironments)
  unfold declared at hrun
  unfold Declares at hdeclares
  rw [hrun] at hdeclares
  obtain ⟨hdecl, hwf, -⟩ := hdeclares
  have hfind : ∀ v, s.solver.subst.find? v = none := fun v => by
    rw [hsolver]
    simp [start, Substitution.find?]
  have hkind : s.solver.Plain := fun v => by
    rw [hsolver]
    simp [start, initialEnvironments, KindEnv.empty, Solver.kindOf, KindEnv.kindOf]
  have hnext : 4 ≤ s.next := Nat.le_trans (by decide +kernel) hdecl.next
  refine ⟨hfree.flat, ⟨hwf, ?_, hkind, ⟨fun v t _ hv => ?_, fun v _ q hq => ?_⟩,
    fun v hv => hv, rfl⟩, hfind, fun q hq => ?_⟩
  · exact ⟨fun v t hv => by simp [hfind] at hv, fun _ => 0, fun v t hv => by simp [hfind] at hv⟩
  · simp [hfind] at hv
  · rw [hkind v] at hq
    simp [Kind.fields] at hq
  · exact (poly_initialTypeEnv q hq).of_closed hnext fun v hv => Nat.not_le.2 (hv.trans_le hnext)

namespace Ready

variable {e : Expr} {core : Core}

/-- All instances of the type that is found are types by the rules. -/
theorem hasType (h : Ready s) (he : e.isPlain = true)
    (hrun : infer initialTypeEnv e o s = (.ok (core, t), s')) (δ : Instantiation) :
    HasType s.variants.signature initialContext e ((s'.solver.subst.apply t).mono δ) := by
  obtain ⟨hgrows, ht, hder⟩ := infers_infer h.flat h.live h.env e he _ _ hrun
  have htriangular := hgrows.live.triangular
  rw [htriangular.mono_apply ht.simple]
  exact hder.elim (htriangular.agreesWith_apply δ) (atMost_initialContext _)

/-- If the expression has a type by the rules, one is found of which it is an instance. -/
theorem exists_infer (h : Ready s) (hwarn : o.exhaustiveness = .warn) (he : e.isPlain = true)
    (hτ : HasType s.variants.signature initialContext e τ) :
    ∃ core t s' δ, infer initialTypeEnv e o s = (.ok (core, t), s') ∧
      τ = (s'.solver.subst.apply t).mono δ := by
  have hσ : s.solver.subst.AgreesWith .var := fun v t hv => by simp [h.unbound] at hv
  obtain ⟨⟨core, t⟩, s', σ, hrun, hσ', -, hmono⟩ := achieves_infer h.flat hwarn h.live h.env hσ
    (atLeast_initialContext _) e he hτ
  obtain ⟨hgrows, ht, -⟩ := infers_infer h.flat h.live h.env e he _ _ hrun
  exact ⟨core, t, s', σ, hrun, hmono.symm.trans
    (hσ'.mono_apply hgrows.live.triangular.simple ht.simple).symm⟩

end Ready

/-- What a check of a program amounts to once its types are declared. -/
theorem program_of_declared (hrun : declared initialEnvironments o p = (.ok (), s)) :
    (program initialEnvironments o p).1 = match infer initialTypeEnv p.body o s with
      | (.ok (core, t), s') => .ok (finish s' core t)
      | (.error e, _) => .error e := by
  have houtcome : outcome initialEnvironments o p = infer initialTypeEnv p.body o s := by
    rw [outcome_eq, hrun]
    rfl
  rw [program, houtcome]
  rcases infer initialTypeEnv p.body o s with ⟨e | ⟨core, t⟩, s'⟩ <;> rfl

theorem exists_declared {checked : Checked}
    (h : (program initialEnvironments o p).1 = .ok checked) :
    ∃ s, declared initialEnvironments o p = (.ok (), s) := by
  rcases hrun : declared initialEnvironments o p with ⟨e | _, s⟩
  · rw [program, outcome_eq, hrun] at h
    cases h
  · exact ⟨s, rfl⟩

end Check

/-- A program checks if and only if it has a type by the rules, where a match without an arm for
some value is remarked on only. The type that is found is monomorphic and principal: the types of
the program are its instances. -/
theorem program_principal (hwarn : o.exhaustiveness = .warn) (hplain : p.isPlain = true) :
    ((∃ checked, (Check.program initialEnvironments o p).1 = .ok checked) ↔
      ∃ τ, p.HasType τ) ∧
    ∀ checked, (Check.program initialEnvironments o p).1 = .ok checked →
      checked.type.Simple False ∧ p.HasType (checked.type.mono .var) ∧
        ∀ τ, p.HasType τ ↔ ∃ δ, τ = (checked.type.mono .var).subst δ := by
  obtain ⟨hgroups, hbody⟩ := Bool.and_eq_true_iff.1 hplain
  have hgroups : ∀ group ∈ p.groups, ∀ decl ∈ group, decl.isVariant = true := by
    simpa using hgroups
  have hfound : ∀ checked, (Check.program initialEnvironments o p).1 = .ok checked →
      checked.type.Simple False ∧
        ∀ τ, p.HasType τ ↔ ∃ δ, τ = (checked.type.mono .var).subst δ := by
    intro checked hchecked
    obtain ⟨s, hdeclared⟩ := exists_declared hchecked
    have hready := ready_of_declared hgroups hdeclared
    rw [program_of_declared hdeclared] at hchecked
    rcases hrun : infer initialTypeEnv p.body o s with ⟨e | ⟨core, t⟩, s'⟩
    · rw [hrun] at hchecked
      cases hchecked
    rw [hrun] at hchecked
    obtain rfl := Except.ok.inj hchecked
    obtain ⟨hgrows, ht, -⟩ := infers_infer hready.flat hready.live hready.env p.body hbody _ _ hrun
    have hsimple := (hgrows.live.apply ht).simple
    have hmono : ∀ δ, ((finish s' core t).type.mono .var).subst δ =
        (s'.solver.subst.apply t).mono δ := fun δ =>
      hsimple.erase.mono_eq_subst.symm.trans hsimple.mono_erase
    refine ⟨hsimple.erase, fun τ => ⟨?_, ?_⟩⟩
    · rintro ⟨sig, hsig, hτ⟩
      obtain ⟨s₁, hs₁, rfl⟩ := (signature?_eq_some_iff hgroups).1 hsig
      obtain rfl : s = s₁ := congrArg Prod.snd (hdeclared.symm.trans hs₁)
      obtain ⟨core', t', s'', δ, hrun', rfl⟩ := hready.exists_infer hwarn hbody hτ
      rw [hrun] at hrun'
      cases hrun'
      exact ⟨δ, (hmono δ).symm⟩
    · rintro ⟨δ, rfl⟩
      rw [hmono]
      exact ⟨_, (signature?_eq_some_iff hgroups).2 ⟨s, hdeclared, rfl⟩,
        hready.hasType hbody hrun δ⟩
  refine ⟨⟨fun ⟨checked, hchecked⟩ => ?_, fun ⟨τ, sig, hsig, hτ⟩ => ?_⟩,
    fun checked hchecked => ?_⟩
  · exact ⟨_, ((hfound checked hchecked).2 _).2 ⟨.var, (MonoTy.subst_var _).symm⟩⟩
  · obtain ⟨s, hdeclared, rfl⟩ := (signature?_eq_some_iff (o := o) hgroups).1 hsig
    obtain ⟨core, t, s', δ, hrun, -⟩ :=
      (ready_of_declared hgroups hdeclared).exists_infer hwarn hbody hτ
    exact ⟨finish s' core t, by rw [program_of_declared hdeclared, hrun]⟩
  · obtain ⟨hsimple, hinstances⟩ := hfound checked hchecked
    exact ⟨hsimple, (hinstances _).2 ⟨.var, (MonoTy.subst_var _).symm⟩, hinstances⟩

/-- The identity, which is bound by a `let` and used at two types, once on a part of a pair whose type
is declared. -/
def identityTwice : Program where
  groups := [[.variant [⟨"a", .erased⟩] ⟨"pair", .erased⟩ [⟨⟨"Pair", .erased⟩,
    [.var ⟨"a", .erased⟩, .var ⟨"a", .erased⟩], .erased⟩] .erased]]
  body := .letIn ⟨"id", .erased⟩ (.lambda ⟨"x", .erased⟩ (.var ⟨"x", .erased⟩) .erased)
    (.caseOf (.construct ⟨"Pair", .erased⟩ (some (.tuple
      [.literal (.int 1) .erased, .literal (.int 2) .erased] .erased)) .erased)
      [⟨.construct ⟨"Pair", .erased⟩ (some (.tuple
          [.var ⟨"y", .erased⟩, .wildcard .erased] .erased)) .erased,
        .tuple [.apply (.var ⟨"id", .erased⟩) (.var ⟨"y", .erased⟩) .erased,
          .apply (.var ⟨"id", .erased⟩) (.literal (.bool true) .erased) .erased] .erased,
        .erased⟩] .erased) .erased

theorem freeVars_initialContext : initialContext.freeVars = [] := by decide +kernel

/-- The type of pairs has one parameter, which both parts are of. -/
theorem signature?_identityTwice : ∃ sig, identityTwice.signature? = some sig ∧
    sig.ctor? "Pair" = some ⟨"pair", 1, [.var 0, .var 0]⟩ :=
  ⟨_, rfl, rfl⟩

theorem hasType_identityTwice : identityTwice.HasType (.product [.base .int, .base .bool]) := by
  obtain ⟨sig, hsig, hpair⟩ := signature?_identityTwice
  refine ⟨sig, hsig, ?_⟩
  let π := initialContext.letType (.lambda ⟨"x", .erased⟩ (.var ⟨"x", .erased⟩) .erased)
    (.func (.var 0) (.var 0))
  have hinstance : ∀ τ, π.HasInstance (.func τ τ) := by
    refine fun τ => ⟨Function.update .var 0 τ, fun v hv => Function.update_of_ne ?_ _ _, ?_⟩
    · rintro rfl
      exact hv (by simp [π, Context.letType, Context.generalize, Expr.isValue, MonoTy.vars,
        freeVars_initialContext])
    · simp [π, Context.letType, Context.generalize, Expr.isValue]
  have hvalue : HasType sig initialContext
      (.lambda ⟨"x", .erased⟩ (.var ⟨"x", .erased⟩) .erased) (.func (.var 0) (.var 0)) := by
    refine .lambda .erased (.var (π := .ofMono (.var 0)) ?_ ⟨.var, fun _ _ => rfl, rfl⟩)
    rw [Fields.get?_insert, if_pos rfl]
  have hscrutinee : ∀ Γ, HasType sig Γ (.construct ⟨"Pair", .erased⟩ (some (.tuple
      [.literal (.int 1) .erased, .literal (.int 2) .erased] .erased)) .erased)
      (.variant "pair" [.base .int]) := fun Γ =>
    .construct (c := ⟨"pair", 1, [.var 0, .var 0]⟩) .erased hpair rfl rfl
      (.cons (.literal Γ (.int 1) .erased) (.cons (.literal Γ (.int 2) .erased) (.nil Γ)))
  have hpattern : HasPattern sig (.construct ⟨"Pair", .erased⟩ (some (.tuple
      [.var ⟨"y", .erased⟩, .wildcard .erased] .erased)) .erased) (.variant "pair" [.base .int])
      [("y", .base .int)] :=
    .construct (c := ⟨"pair", 1, [.var 0, .var 0]⟩) .erased hpair rfl rfl
      (.cons (.var ⟨"y", .erased⟩ (.base .int)) (.cons (.wildcard .erased (.base .int)) .nil))
  -- In the arm, `id` is polymorphic and the name of the part is not.
  let Γ : Context := Fields.insert "y" (.ofMono (.base .int)) (Fields.insert "id" π initialContext)
  have hid : ∀ τ, HasType sig Γ (.var ⟨"id", .erased⟩) (.func τ τ) := by
    refine fun τ => .var (π := π) ?_ (hinstance τ)
    rw [Fields.get?_insert, if_neg (by decide), Fields.get?_insert, if_pos rfl]
  have hy : HasType sig Γ (.var ⟨"y", .erased⟩) (.base .int) := by
    refine .var (π := .ofMono (.base .int)) ?_ ⟨.var, fun _ _ => rfl, rfl⟩
    rw [Fields.get?_insert, if_pos rfl]
  have hbody : HasType sig Γ (.tuple [.apply (.var ⟨"id", .erased⟩) (.var ⟨"y", .erased⟩) .erased,
      .apply (.var ⟨"id", .erased⟩) (.literal (.bool true) .erased) .erased] .erased)
      (.product [.base .int, .base .bool]) :=
    .tuple .erased (.cons (.apply .erased (hid _) hy)
      (.cons (.apply .erased (hid _) (.literal Γ (.bool true) .erased)) (.nil Γ)))
  exact .letIn .erased hvalue (.caseOf .erased (hscrutinee _)
    (.cons hpattern (List.nodup_singleton _) hbody (.nil _ _ _)))

/-- The identity has a principal type after a `let`, though it is used at two types. -/
theorem program_principal_identityTwice :
    ∃ checked, (Check.program initialEnvironments { exhaustiveness := .warn } identityTwice).1 =
        .ok checked ∧
      ∀ τ, identityTwice.HasType τ ↔ ∃ δ, τ = (checked.type.mono .var).subst δ := by
  obtain ⟨hchecks, hprincipal⟩ := program_principal (o := { exhaustiveness := .warn })
    (p := identityTwice) rfl rfl
  obtain ⟨checked, hchecked⟩ := hchecks.2 ⟨_, hasType_identityTwice⟩
  exact ⟨checked, hchecked, (hprincipal checked hchecked).2.2⟩

end FieldML
