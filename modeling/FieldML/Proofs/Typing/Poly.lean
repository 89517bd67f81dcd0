import FieldML.Proofs.Binders
import FieldML.Proofs.Typing.Live

/-!
# Quantified types in use

The types of names in scope are quantified over variables that are no longer live. So following
their variables never runs into a quantifier, and an environment mentions exactly what its open
variables stand for.
-/

namespace FieldML

open Check

variable {syn : Prop} {sig : VariantEnv} {V W : TypeVar → Prop} {n m : TypeVar} {t u : Ty}
  {s s' : CheckState} {σ σ' : Instantiation} {v w : TypeVar} {r : Range} {τ : MonoTy}
  {vars bound : List TypeVar} {f : Replacement} {env : TypeEnv}

namespace Ty

theorem Simple.mem_freeVarsUnder_iff (ht : t.Simple False) :
    v ∈ t.freeVarsUnder bound ↔ v ∈ t.freeVars ∧ v ∉ bound := by
  refine ⟨ht.of_mem_freeVarsUnder, ?_⟩
  rintro ⟨hv, hbound⟩
  induction ht with
  | base b r => simp at hv
  | var w r =>
      obtain rfl := mem_freeVars_var.1 hv
      simp [freeVarsUnder, hbound]
  | func r hp hq ihp ihq => exact List.mem_append.2 ((mem_freeVars_func.1 hv).imp ihp ihq)
  | list r ht ih => exact ih hv
  | ref r ht ih => exact ih hv
  | product r hts ih =>
      obtain ⟨t, ht, hv⟩ := mem_freeVars_product.1 hv
      exact mem_freeVarsOfList.2 ⟨t, ht, ih t ht hv⟩
  | variant n r hts ih =>
      obtain ⟨t, ht, hv⟩ := mem_freeVars_variant.1 hv
      exact mem_freeVarsOfList.2 ⟨t, ht, ih t ht hv⟩
  | synonym n r hsyn => exact hsyn.elim
  | record r hsorted hfs ih =>
      obtain ⟨p, hp, hv⟩ := mem_freeVars_record.1 hv
      exact mem_freeVarsOfFields.2 ⟨p, hp, ih p hp hv⟩

/-- The type with quantifiers of the universal kind. -/
abbrev forAll (r : Range) (vars : List TypeVar) (t : Ty) : Ty :=
  quantifyWith (fun _ => .universal) r vars t

theorem mapVars_forAll (r : Range) (vars : List TypeVar) (t : Ty) :
    (forAll r vars t).mapVars f bound = forAll r vars (t.mapVars f (vars.reverse ++ bound)) := by
  induction vars generalizing bound with
  | nil => rfl
  | cons v vars ih =>
      rw [List.reverse_cons, List.append_assoc]
      exact congrArg (Ty.all v .universal · r) ih

theorem freeVarsUnder_forAll (r : Range) (vars : List TypeVar) (t : Ty) :
    (forAll r vars t).freeVarsUnder bound = t.freeVarsUnder (vars.reverse ++ bound) := by
  induction vars generalizing bound with
  | nil => rfl
  | cons v vars ih =>
      rw [List.reverse_cons, List.append_assoc]
      exact ih

theorem mem_openVars_forAll (ht : t.Simple syn) :
    v ∈ (forAll r vars t).openVars ↔ v ∈ t.freeVars ∧ v ∉ vars := by
  induction vars with
  | nil => simp [quantifyWith, ht.openVars_eq]
  | cons w vars ih =>
      have hcons : v ∈ (forAll r (w :: vars) t).openVars ↔
          v ∈ (forAll r vars t).openVars ∧ v ≠ w := by
        simp [quantifyWith, openVars, Kind.freeVars, Kind.freeVarsUnder]
      rw [hcons, ih, and_assoc, List.mem_cons, not_or, and_comm (a := v ∉ vars)]

/-- A type that is quantified over variables that are not live, and has live open variables. -/
inductive Poly (V : TypeVar → Prop) (n : TypeVar) : Ty → Prop
  | mk {vars : List TypeVar} {t : Ty} (r : Range) (hnodup : vars.Nodup)
      (hvars : ∀ v ∈ vars, ¬V v ∧ v < n) (ht : t.Simple False)
      (hlive : ∀ v ∈ t.freeVars, v ∉ vars → V v ∧ v < n) : Poly V n (forAll r vars t)

namespace Poly

theorem of_live (ht : t.Live V n) : t.Poly V n :=
  @mk _ _ [] t .erased List.nodup_nil (by simp) ht.simple fun v hv _ => ht.inside v hv

theorem mono (ht : t.Poly V n) (hnm : n ≤ m) : t.Poly V m := by
  cases ht with
  | mk r hnodup hvars ht hlive =>
      exact .mk r hnodup (fun v hv => ⟨(hvars v hv).1, (hvars v hv).2.trans_le hnm⟩) ht
        fun v hv hnot => ⟨(hlive v hv hnot).1, (hlive v hv hnot).2.trans_le hnm⟩

/-- A type without open variables may be used where its quantified ones are not live. -/
theorem of_closed (ht : t.Poly (fun _ => False) n) (hnm : n ≤ m) (hV : ∀ v < n, ¬V v) :
    t.Poly V m := by
  cases ht with
  | mk r hnodup hvars ht hlive =>
      exact .mk r hnodup (fun v hv => ⟨hV v (hvars v hv).2, (hvars v hv).2.trans_le hnm⟩) ht
        fun v hv hnot => (hlive v hv hnot).1.elim

/-- The region may shrink as long as it keeps the open variables. -/
theorem shrink (ht : t.Poly V n) (hWV : ∀ v, W v → V v) (hopen : ∀ v ∈ t.openVars, W v) :
    t.Poly W n := by
  cases ht with
  | mk r hnodup hvars ht hlive =>
      exact .mk r hnodup (fun v hv => ⟨mt (hWV v) (hvars v hv).1, (hvars v hv).2⟩) ht
        fun v hv hnot => ⟨hopen v ((mem_openVars_forAll ht).2 ⟨hv, hnot⟩), (hlive v hv hnot).2⟩

theorem open_live (ht : t.Poly V n) (hv : v ∈ t.openVars) : V v ∧ v < n := by
  cases ht with
  | mk r hnodup hvars ht hlive =>
      obtain ⟨hv, hnot⟩ := (mem_openVars_forAll ht).1 hv
      exact hlive v hv hnot

/-- Which instances a type has is decided by the types for its open variables. -/
theorem hasInstance_congr (ht : t.Poly V n) (h : ∀ v ∈ t.openVars, σ' v = σ v)
    (hτ : t.HasInstance σ τ) : t.HasInstance σ' τ := by
  cases ht with
  | @mk vars t r hnodup hvars ht hlive =>
      obtain ⟨ρ, hρ, rfl⟩ := (hasInstance_quantifyWith ht).1 hτ
      refine (hasInstance_quantifyWith ht).2
        ⟨fun v => if v ∈ vars then ρ v else σ' v, fun v hv => if_neg hv,
          ht.mono_congr fun v hv => ?_⟩
      split
      · rfl
      · next hnot => rw [hρ v hnot, h v ((mem_openVars_forAll ht).2 ⟨hv, hnot⟩)]

end Poly

end Ty

/-- Following a live variable never leads to one that is not live. -/
theorem Solver.Closed.follow_eq {s : Solver} (hs : s.Closed V) (hsimple : s.subst.Simple syn)
    (hbound : ∀ v ∈ bound, ¬V v) (i : Nat) (hv : V v) (r : Range) :
    s.subst.follow i bound v r = s.subst.follow i [] v r := by
  induction i generalizing v r with
  | zero => rfl
  | succ i ih =>
      have hnot : v ∉ bound := fun hmem => hbound v hmem hv
      cases hfind : s.subst.find? v with
      | none => simp [Substitution.follow, hnot, hfind]
      | some t =>
          simp only [Substitution.follow, hnot, hfind, if_false, List.not_mem_nil]
          exact (hsimple v t hfind).mapVars_congr fun w hw r' =>
            ih (hs.binding v t hv hfind w hw) r'

namespace CheckState

/-- An applied quantified type mentions what its open variables stand for. -/
theorem Live.mem_freeVars_apply_poly (hs : s.Live sig V) (ht : t.Poly V n) :
    w ∈ (s.solver.subst.apply t).freeVars ↔
      ∃ v ∈ t.openVars, w ∈ (s.solver.subst.apply (.var v .erased)).freeVars := by
  have hsimple := hs.triangular.simple
  cases ht with
  | @mk vars t r hnodup hvars ht hlive =>
      have happly : (s.solver.subst.apply (.forAll r vars t)).freeVars =
          (t.mapVars (s.solver.subst.follow s.solver.subst.size) vars.reverse).freeVarsUnder
            vars.reverse := by
        unfold Substitution.apply Ty.freeVars
        rw [Ty.mapVars_forAll, Ty.freeVarsUnder_forAll, List.append_nil]
      have hmap := ht.mapVars (f := s.solver.subst.follow s.solver.subst.size)
        (fun v _ r => hsimple.follow vars.reverse _ v r)
        fun _ r r' _ => Substitution.mem_freeVars_follow _ r r'
      have hdead : ∀ v ∈ vars.reverse, ¬V v := fun v hv => (hvars v (List.mem_reverse.1 hv)).1
      have hfollow : ∀ v ∈ t.freeVars, v ∉ vars → ∀ r,
          s.solver.subst.follow s.solver.subst.size vars.reverse v r =
            s.solver.subst.apply (.var v r) := fun v hv hnot r =>
        hs.closed.follow_eq hsimple hdead _ (hlive v hv hnot).1 r
      simp only [happly, hmap.mem_freeVarsUnder_iff, Ty.mem_openVars_forAll ht, List.mem_reverse]
      constructor
      · rintro ⟨hw, hnot⟩
        obtain ⟨v, hv, r', hw⟩ := ht.exists_of_mem_freeVars_mapVars hw
        by_cases hvar : v ∈ vars
        · -- A quantified variable stays, so it is not free.
          obtain rfl : w = v := by
            cases hsize : s.solver.subst.size <;>
              simpa [hsize, Substitution.follow, hvar] using hw
          exact absurd hvar hnot
        · rw [hfollow v hv hvar] at hw
          exact ⟨v, ⟨hv, hvar⟩, Substitution.mem_freeVars_follow _ r' .erased hw⟩
      · rintro ⟨v, ⟨hv, hvar⟩, hw⟩
        refine ⟨ht.mem_freeVars_mapVars hv fun r' => ?_, fun hmem => ?_⟩
        · rw [hfollow v hv hvar]
          exact Substitution.mem_freeVars_follow _ .erased r' hw
        · exact (hvars w hmem).1 (hs.closed.apply hsimple (.var v .erased)
            (fun x hx => Ty.mem_freeVars_var.1 hx ▸ (hlive v hv hvar).1) w hw)

/-- Without record kinds nothing is reached through kinds. -/
theorem Live.mem_closedUnderKinds (hs : s.Live sig V) (hvars : ∀ v ∈ vars, v < s.next) :
    v ∈ closedUnderKinds s vars ↔ v ∈ vars := by
  have hkinds : ∀ u x, x ∉ kindVars s u := by
    intro u x hx
    obtain ⟨p, hp, -⟩ := mem_kindVars.1 hx
    rw [kind, hs.plain u, Substitution.applyKind_universal] at hp
    exact List.not_mem_nil hp
  refine ⟨fun hv => ?_, fun hv => (hs.wf.closedUnderKinds hvars).1 hv⟩
  rcases TypeVar.exists_of_mem_reach hv with hv | ⟨u, hu, hchain⟩
  · simp at hv
  · rcases Relation.ReflTransGen.cases_tail hchain with rfl | ⟨x, -, hstep⟩
    · exact hu
    · exact absurd hstep (hkinds x v)

end CheckState

/-- The types of all names are quantified over variables that are not live. -/
def TypeEnv.Live (V : TypeVar → Prop) (n : TypeVar) (env : TypeEnv) : Prop :=
  ∀ p ∈ env, p.2.Poly V n

namespace TypeEnv.Live

theorem mono (h : TypeEnv.Live V n env) (hnm : n ≤ m) : TypeEnv.Live V m env :=
  fun p hp => (h p hp).mono hnm

theorem insert (h : TypeEnv.Live V n env) (ht : t.Poly V n) (name : String) :
    TypeEnv.Live V n (Fields.insert name t env) := by
  rintro ⟨other, u⟩ hp
  rcases Fields.mem_insert hp with heq | hp
  · obtain ⟨-, rfl⟩ := Prod.mk.inj heq
    exact ht
  · exact h _ hp

theorem extend {names : List (String × Ty)} (h : TypeEnv.Live V n env)
    (hnames : ∀ p ∈ names, p.2.Poly V n) : TypeEnv.Live V n (extendEnv env names) := by
  unfold extendEnv
  induction names generalizing env with
  | nil => exact h
  | cons p names ih =>
      exact ih (h.insert (hnames p List.mem_cons_self) p.1)
        fun q hq => hnames q (List.mem_cons_of_mem _ hq)

end TypeEnv.Live

namespace CheckState

/-- An environment mentions what the open variables of its types stand for. -/
theorem Live.mem_envVars (hs : s.Live sig V) (henv : TypeEnv.Live V s.next env) :
    w ∈ envVars s env ↔
      ∃ p ∈ env, ∃ v ∈ p.2.openVars, w ∈ (s.solver.subst.apply (.var v .erased)).freeVars := by
  have hmem : ∀ x, x ∈ env.flatMap (fun p => (s.solver.subst.apply p.2).freeVars) ↔
      ∃ p ∈ env, ∃ v ∈ p.2.openVars, x ∈ (s.solver.subst.apply (.var v .erased)).freeVars := by
    intro x
    rw [List.mem_flatMap]
    exact exists_congr fun p => and_congr_right fun hp => hs.mem_freeVars_apply_poly (henv p hp)
  unfold Check.envVars
  rw [hs.mem_closedUnderKinds fun v hv => ?_, hmem]
  obtain ⟨p, hp, u, hu, hv⟩ := (hmem v).1 hv
  obtain ⟨hlive, hlt⟩ := (henv p hp).open_live hu
  exact ((hs.apply (.var hlive hlt .erased)).inside v hv).2

/-- The live variables after generalizing: those that lead into the environment only, and those that
are not handed out yet. -/
def within (s : CheckState) (V : TypeVar → Prop) (env : TypeEnv) : TypeVar → Prop := fun v =>
  V v ∧ (s.next ≤ v ∨ ∀ w ∈ (s.solver.subst.apply (.var v .erased)).freeVars, w ∈ envVars s env)

namespace Live

theorem live_within (hs : s.Live sig V) (env : TypeEnv) : s.Live sig (s.within V env) where
  wf := hs.wf
  triangular := hs.triangular
  plain := hs.plain
  closed := by
    refine ⟨fun v t hv ht w hw => ?_, fun v _ p hp => ?_⟩
    · have hlt : v < s.next := by
        by_contra hge
        rw [hs.find?_of_le (Nat.le_of_not_lt hge)] at ht
        simp at ht
      refine ⟨hs.closed.binding v t hv.1 ht w hw, Or.inr fun x hx => ?_⟩
      refine hv.2.resolve_left (Nat.not_le.2 hlt) x ?_
      rw [hs.triangular.apply_var_of_some ht]
      exact (Substitution.mem_freeVars_apply (hs.triangular.simple v t ht)).2 ⟨w, hw, hx⟩
    · rw [hs.plain v] at hp
      simp [Kind.fields] at hp
  later v hv := ⟨hs.later v hv, Or.inl hv⟩
  variants := hs.variants

theorem env_within (hs : s.Live sig V) (henv : TypeEnv.Live V s.next env) :
    TypeEnv.Live (s.within V env) s.next env := fun p hp =>
  (henv p hp).shrink (fun _ hv => hv.1) fun v hv =>
    ⟨((henv p hp).open_live hv).1, Or.inr fun _ hw => (hs.mem_envVars henv).2 ⟨p, hp, v, hv, hw⟩⟩

theorem mem_quantified (hs : s.Live sig V) (ht : t.Live V s.next) :
    v ∈ s.quantified env t ↔ v ∈ (s.solver.subst.apply t).freeVars ∧ v ∉ envVars s env := by
  rw [CheckState.mem_quantified, hs.mem_closedUnderKinds (hs.wf.apply ht.known).below]

theorem scheme_eq (hs : s.Live sig V) (env : TypeEnv) (t : Ty) :
    s.scheme env t = .forAll (s.solver.subst.apply t).range
      (TypeVar.orderBy (kindVars s) (s.quantified env t)) (s.solver.subst.apply t) := by
  have hkind : s.kind = fun _ => .universal := by
    funext v
    rw [kind, hs.plain v, Substitution.applyKind_universal]
  rw [scheme, quantify_eq, hkind]

/-- A generalized type is quantified over variables that are not live any more. -/
theorem poly_scheme (hs : s.Live sig V) (ht : t.Live V s.next) :
    (s.scheme env t).Poly (s.within V env) s.next := by
  have ht' := hs.apply ht
  have hfree : ∀ v ∈ (s.solver.subst.apply t).freeVars,
      (s.solver.subst.apply (.var v .erased)).freeVars = [v] := by
    intro v hv
    have hnone := hs.triangular.find?_of_mem_freeVars_apply ht.simple hv
    rw [Substitution.apply_var_of_none hnone]
    simp [Ty.freeVars, Ty.freeVarsUnder]
  rw [hs.scheme_eq]
  refine .mk _ (TypeVar.nodup_orderBy _ _) (fun v hv => ?_) ht'.simple fun v hv hnot => ?_
  · obtain ⟨hv, hnot⟩ := (hs.mem_quantified ht).1 (TypeVar.mem_orderBy.1 hv)
    have hlt := (ht'.inside v hv).2
    refine ⟨fun hwithin => hnot ?_, hlt⟩
    exact hwithin.2.resolve_left (Nat.not_le.2 hlt) v (by simp [hfree v hv])
  · rw [TypeVar.mem_orderBy, hs.mem_quantified ht] at hnot
    have henv : v ∈ envVars s env := by
      by_contra hmem
      exact hnot ⟨hv, hmem⟩
    refine ⟨⟨(ht'.inside v hv).1, Or.inr fun w hw => ?_⟩, (ht'.inside v hv).2⟩
    obtain rfl : w = v := by simpa [hfree v hv] using hw
    exact henv

end Live

end CheckState

end FieldML
