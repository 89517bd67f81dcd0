import FieldML.Proofs.Typing.Poly
import FieldML.Proofs.Typing.Rules

/-!
# Contexts, generalizing and instantiating

A generalized type has at least the instances that the rules ask for, and no more than they allow:
the variables that are quantified are those that are not free in the context, as soon as types that
belong to no name stand for them.
-/

/-! ## Contexts and environments

An environment of the checker stands for a context of the typing rules once types are given to its
open variables. The instances of its types may be compared with those of the context in either
direction. -/

namespace FieldML

open Check

variable {syn : Prop} {sig : VariantEnv} {V : TypeVar → Prop} {n : TypeVar} {t : Ty}
  {o : CheckOptions} {s s' : CheckState} {σ σ' : Instantiation} {τ : MonoTy} {π : PolyTy}
  {env : TypeEnv} {Γ : Context} {range : Range}

/-- Every instance of the type is one of the quantified type. -/
def Ty.AtMost (σ : Instantiation) (t : Ty) (π : PolyTy) : Prop :=
  ∀ τ, t.HasInstance σ τ → π.HasInstance τ

/-- Every instance of the quantified type is one of the type. -/
def Ty.AtLeast (σ : Instantiation) (t : Ty) (π : PolyTy) : Prop :=
  ∀ τ, π.HasInstance τ → t.HasInstance σ τ

theorem PolyTy.hasInstance_ofMono {τ' : MonoTy} : (PolyTy.ofMono τ).HasInstance τ' ↔ τ' = τ := by
  constructor
  · rintro ⟨δ, hδ, rfl⟩
    exact MonoTy.subst_eq_self fun v _ => hδ v List.not_mem_nil
  · rintro rfl
    exact ⟨.var, fun _ _ => rfl, (MonoTy.subst_var _).symm⟩

namespace Ty

theorem Simple.atMost_ofMono (ht : t.Simple syn) : t.AtMost σ (.ofMono (t.mono σ)) := fun _ hτ =>
  PolyTy.hasInstance_ofMono.2 (ht.hasInstance_iff.1 hτ)

theorem Simple.atLeast_ofMono (ht : t.Simple syn) : t.AtLeast σ (.ofMono (t.mono σ)) := fun _ hτ =>
  ht.hasInstance_iff.2 (PolyTy.hasInstance_ofMono.1 hτ)

/-- What the open variables of a type mean is free in every quantified type with no more
instances. -/
theorem Poly.mem_freeVars (ht : t.Poly V n) (h : t.AtLeast σ π) {u x : TypeVar}
    (hu : u ∈ t.openVars) (hx : x ∈ (σ u).vars) : x ∈ π.freeVars := by
  cases ht with
  | @mk vars t r hnodup hvars ht hlive =>
      obtain ⟨hu, hnot⟩ := (mem_openVars_forAll ht).1 hu
      obtain ⟨ρ, hρ, hbody⟩ := (hasInstance_quantifyWith ht).1
        (h π.body ⟨.var, fun _ _ => rfl, (MonoTy.subst_var _).symm⟩)
      have hxbody : x ∈ π.body.vars := by
        rw [hbody, ht.mem_vars_mono]
        exact ⟨u, hu, by rwa [hρ u hnot]⟩
      by_contra hfree
      have hxvars : x ∈ π.vars := by
        by_contra hmem
        exact hfree (List.mem_filter.2 ⟨hxbody, by simpa using hmem⟩)
      -- A quantified variable may be replaced, but what the open variable means stays.
      let δ : Instantiation := Function.update .var x (.base .unit)
      have hδ : ∀ v ∉ π.vars, δ v = .var v := fun v hv =>
        Function.update_of_ne (fun he : v = x => hv (he ▸ hxvars)) _ _
      obtain ⟨ρ', hρ', hbody'⟩ := (hasInstance_quantifyWith ht).1
        (h (π.body.subst δ) ⟨δ, hδ, rfl⟩)
      rw [hbody, ht.subst_mono] at hbody'
      have hsame := ht.mono_eq_mono_iff.1 hbody' u hu
      rw [hρ u hnot, hρ' u hnot, ← (σ u).subst_var, MonoTy.subst_subst] at hsame
      have := MonoTy.subst_eq_subst_iff.1 hsame x hx
      simp [δ] at this

end Ty

/-- All names have types with no more instances than in the context. -/
abbrev TypeEnv.AtMost (σ : Instantiation) : TypeEnv → Context → Prop :=
  Fields.Related (Ty.AtMost σ)

/-- All names have types with no fewer instances than in the context. -/
abbrev TypeEnv.AtLeast (σ : Instantiation) : TypeEnv → Context → Prop :=
  Fields.Related (Ty.AtLeast σ)

namespace TypeEnv

variable {names : List (String × Ty)}

theorem AtMost.extendMono (h : env.AtMost σ Γ) (hnames : ∀ p ∈ names, p.2.Simple syn) :
    AtMost σ (extendEnv env names) (Γ.extendMono (names.map fun p => (p.1, p.2.mono σ))) := by
  have hmap : Fields.Related (Ty.AtMost σ) names
      (names.map fun p => (p.1, PolyTy.ofMono (p.2.mono σ))) :=
    .map_right (f := fun t => PolyTy.ofMono (t.mono σ)) fun p hp => (hnames p hp).atMost_ofMono
  rw [Context.extendMono, List.map_map]
  exact h.foldl_insert hmap

theorem AtLeast.extendMono (h : env.AtLeast σ Γ) (hnames : ∀ p ∈ names, p.2.Simple syn) :
    AtLeast σ (extendEnv env names) (Γ.extendMono (names.map fun p => (p.1, p.2.mono σ))) := by
  have hmap : Fields.Related (Ty.AtLeast σ) names
      (names.map fun p => (p.1, PolyTy.ofMono (p.2.mono σ))) :=
    .map_right (f := fun t => PolyTy.ofMono (t.mono σ)) fun p hp => (hnames p hp).atLeast_ofMono
  rw [Context.extendMono, List.map_map]
  exact h.foldl_insert hmap

end TypeEnv

namespace TypeEnv.Live

theorem atMost_congr (henv : TypeEnv.Live V n env) (hΓ : env.AtMost σ Γ)
    (h : ∀ p ∈ env, ∀ v ∈ p.2.openVars, σ' v = σ v) : env.AtMost σ' Γ :=
  hΓ.imp fun p hp _ hπ τ hτ =>
    hπ τ ((henv p hp).hasInstance_congr (fun v hv => (h p hp v hv).symm) hτ)

theorem atLeast_congr (henv : TypeEnv.Live V n env) (hΓ : env.AtLeast σ Γ)
    (h : ∀ v < n, σ' v = σ v) : env.AtLeast σ' Γ :=
  hΓ.imp fun p hp _ hπ τ hτ =>
    (henv p hp).hasInstance_congr (fun v hv => h v ((henv p hp).open_live hv).2) (hπ τ hτ)

/-- What the open variables of an environment mean is free in every context with no more
instances. -/
theorem mem_freeVars (henv : TypeEnv.Live V n env) (hΓ : env.AtLeast σ Γ) {p : String × Ty}
    (hp : p ∈ env) {u x : TypeVar} (hu : u ∈ p.2.openVars) (hx : x ∈ (σ u).vars) :
    x ∈ Γ.freeVars := by
  obtain ⟨q, hq, hpq⟩ := Fields.Related.exists_of_mem hΓ hp
  exact List.mem_flatMap.2 ⟨q, hq, (henv p hp).mem_freeVars hpq hu hx⟩

end TypeEnv.Live

end FieldML

/-! ## Generalizing and instantiating -/

namespace FieldML

open Check

variable {sig : VariantEnv} {V : TypeVar → Prop} {n : TypeVar} {t : Ty} {o : CheckOptions}
  {s s' : CheckState} {σ σ' : Instantiation} {τ : MonoTy} {env : TypeEnv} {Γ : Context}
  {range : Range}

namespace CheckState

variable {vars : List TypeVar} {ρ : TypeVar → TypeVar}

/-- Copies of universally quantified variables are plain new variables. -/
theorem Live.of_copied (hs : s.Live sig V)
    (hcopied : Copied vars (fun _ => .universal) ρ range s s') (hlead : s.Leads s')
    (hs' : s'.Wf) : s.Grows sig V s' := by
  have hplain : s'.solver.Plain := by
    intro v
    by_cases hlt : v < s.next
    · rw [hcopied.older v hlt, hs.plain v]
    · by_cases hlt' : v < s'.next
      · obtain ⟨w, hw, rfl⟩ := hcopied.onto v (Nat.le_of_not_lt hlt) hlt'
        rw [hcopied.kind w hw]
        rfl
      · exact kindOf_of_none (hs'.fresh v (Nat.le_of_not_lt hlt')).2
  refine ⟨hlead.next, ⟨hs', ?_, hplain, ⟨fun v t hv ht => ?_, fun v _ p hp => ?_⟩,
    fun v hv => hs.later v (hlead.next.trans hv), hlead.variants.trans hs.variants⟩, ?_,
    fun v _ => by rw [hcopied.subst]⟩
  · rw [hcopied.subst]
    exact hs.triangular
  · rw [hcopied.subst] at ht
    exact hs.closed.binding v t hv ht
  · rw [hplain v] at hp
    simp [Kind.fields] at hp
  · rw [hcopied.subst]
    exact .refl _

end CheckState

namespace Check

/-- Opening a quantified type replaces its variables by new ones. -/
theorem exists_instantiate (o : CheckOptions) (range : Range) (hs : s.Live sig V)
    (ht : t.Poly V s.next) :
    ∃ u s', instantiate t range o s = (.ok u, s') ∧ s.Grows sig V s' ∧ u.Live V s'.next ∧
      s'.solver.subst = s.solver.subst ∧ (∀ σ, t.HasInstance σ (u.mono σ)) ∧
      ∀ σ τ, t.HasInstance σ τ → ∃ σ', (∀ v < s.next, σ' v = σ v) ∧ u.mono σ' = τ := by
  cases ht with
  | @mk vars t r hnodup hvars ht hlive =>
      have hknown : t.Known s.next := by
        refine ⟨ht.weaken, fun v hv => ?_⟩
        by_cases hmem : v ∈ vars
        · exact (hvars v hmem).2
        · exact (hlive v hv hmem).2
      have huniversal : ∀ v ∈ vars, Kind.universal.Known s.next := fun _ _ => Kind.known_universal
      obtain ⟨ρ, s', hopen, hcopied, hlead, hs'⟩ := openQuantifiers_copies o range (r := r) hs.wf
        hnodup (fun v hv => (hvars v hv).2) huniversal hknown
        (by simp [Kind.freeVars, Kind.freeVarsUnder])
      have hgrows := hs.of_copied hcopied hlead hs'
      have hmono : ∀ σ, (t.mapVars (.renaming vars ρ range) []).mono σ =
          t.mono fun v => if v ∈ vars then σ (ρ v) else σ v := fun σ =>
        ht.mono_mapVars fun v _ r => by
          by_cases hv : v ∈ vars <;> simp [Replacement.renaming, hv]
      refine ⟨(t.mapVars (.renaming vars ρ range) []).withRange range, s', ?_, hgrows,
        Ty.Live.withRange ⟨?_, fun w hw => ?_⟩ range, hcopied.subst, fun σ => ?_, fun σ τ hτ => ?_⟩
      · rw [instantiate, quantifiers_quantifyWith ht, bind_apply, hopen]
        rfl
      · refine ht.mapVars (fun v _ r => ?_) fun v r r' w hw => ?_
        · by_cases hv : v ∈ vars <;> simp [Replacement.renaming, hv, Ty.Simple.var]
        · by_cases hv : v ∈ vars <;> simpa [Replacement.renaming, hv] using hw
      · obtain ⟨v, hv, r', hw⟩ := ht.exists_of_mem_freeVars_mapVars hw
        by_cases hmem : v ∈ vars
        · obtain rfl : w = ρ v := by simpa [Replacement.renaming, hmem] using hw
          obtain ⟨hle, hlt⟩ := hcopied.fresh v hmem
          exact ⟨hs.later _ hle, hlt⟩
        · obtain rfl : w = v := by simpa [Replacement.renaming, hmem] using hw
          exact ⟨(hlive w hv hmem).1, (hlive w hv hmem).2.trans_le hlead.next⟩
      · rw [Ty.mono_withRange, hmono]
        exact (Ty.hasInstance_quantifyWith ht).2 ⟨_, fun v hv => if_neg hv, rfl⟩
      · obtain ⟨σ₁, hσ₁, rfl⟩ := (Ty.hasInstance_quantifyWith ht).1 hτ
        -- Each new variable stands for what the variable that it copies stands for.
        classical
        let σ' : Instantiation := fun w =>
          if h : ∃ v ∈ vars, ρ v = w then σ₁ h.choose else σ w
        have hnew : ∀ v ∈ vars, σ' (ρ v) = σ₁ v := by
          intro v hv
          have h : ∃ x ∈ vars, ρ x = ρ v := ⟨v, hv, rfl⟩
          have heq : h.choose = v :=
            hcopied.injective _ h.choose_spec.1 v hv h.choose_spec.2
          simp only [σ', dif_pos h, heq]
        have hold : ∀ w < s.next, σ' w = σ w := by
          intro w hw
          refine dif_neg ?_
          rintro ⟨v, hv, rfl⟩
          exact absurd hw (Nat.not_lt.2 (hcopied.fresh v hv).1)
        refine ⟨σ', hold, ?_⟩
        rw [Ty.mono_withRange, hmono]
        refine ht.mono_congr fun v hv => ?_
        split
        · next hmem => exact hnew v hmem
        · next hmem => rw [hold v (hlive v hv hmem).2, hσ₁ v hmem]

theorem infers_instantiate (hs : s.Live sig V) (ht : t.Poly V s.next) (range : Range) :
    Infers sig V (instantiate t range) o s fun u s' =>
      u.Live V s'.next ∧ ∀ σ, t.HasInstance σ (u.mono σ) := by
  obtain ⟨u, s', hrun, hgrows, hu, -, hinstance, -⟩ := exists_instantiate o range hs ht
  intro a s₁ hrun₁
  obtain ⟨ha, rfl⟩ := Prod.mk.inj (hrun.symm.trans hrun₁)
  obtain rfl := Except.ok.inj ha
  exact ⟨hgrows, hu, hinstance⟩

theorem achieves_instantiate (hs : s.Live sig V) (ht : t.Poly V s.next)
    (hσ : s.solver.subst.AgreesWith σ) (hτ : t.HasInstance σ τ) (range : Range) :
    Achieves (instantiate t range) o s σ fun u _ σ' => u.mono σ' = τ := by
  obtain ⟨u, s', hrun, -, -, hsubst, -, hchoose⟩ := exists_instantiate o range hs ht
  obtain ⟨σ', hsame, hmono⟩ := hchoose σ τ hτ
  refine ⟨u, s', σ', hrun, ?_, hsame, hmono⟩
  rw [hsubst]
  exact hs.agreesWith_of_eq hσ hsame

end Check

theorem TypeVar.lt_above {vars : List TypeVar} {v : TypeVar} (hv : v ∈ vars) :
    v < TypeVar.above vars := by
  unfold TypeVar.above
  suffices h : ∀ next, (v < next ∨ v ∈ vars) →
      v < vars.foldl (fun next v => max next (v + 1)) next from h 0 (Or.inr hv)
  clear hv
  induction vars with
  | nil => exact fun next h => h.resolve_right List.not_mem_nil
  | cons w vars ih =>
      refine fun next h => ih _ ?_
      rcases h with h | h
      · exact Or.inl (h.trans_le (Nat.le_max_left _ _))
      · rcases List.mem_cons.1 h with rfl | h
        · exact Or.inl (Nat.lt_of_lt_of_le (Nat.lt_succ_self v) (Nat.le_max_right _ _))
        · exact Or.inr h

namespace CheckState

/-- The variables of the environment stand for what they stand for, and all others for variables
from `N` on. -/
def refresh (s : CheckState) (env : TypeEnv) (σ : Instantiation) (N : TypeVar) : Instantiation :=
  fun v => (s.solver.subst.apply (.var v .erased)).mono fun w =>
    if w ∈ envVars s env then σ w else .var (N + w)

/-- No variable from `N` on occurs in the context or in what the environment stands for. -/
structure Beyond (s : CheckState) (env : TypeEnv) (σ : Instantiation) (Γ : Context)
    (N : TypeVar) : Prop where
  context : ∀ x ∈ Γ.freeVars, x < N
  env : ∀ w ∈ envVars s env, ∀ x ∈ (σ w).vars, x < N

theorem exists_beyond (s : CheckState) (env : TypeEnv) (σ : Instantiation) (Γ : Context) :
    ∃ N, s.Beyond env σ Γ N :=
  ⟨TypeVar.above (Γ.freeVars ++ (envVars s env).flatMap fun w => (σ w).vars),
    fun _ hx => TypeVar.lt_above (List.mem_append_left _ hx),
    fun w hw _ hx => TypeVar.lt_above (List.mem_append_right _ (List.mem_flatMap.2 ⟨w, hw, hx⟩))⟩

namespace Live

theorem agreesWith_refresh (hs : s.Live sig V) (env : TypeEnv) (σ : Instantiation) (N : TypeVar) :
    s.solver.subst.AgreesWith (s.refresh env σ N) := hs.triangular.agreesWith_apply _

theorem atMost_refresh (hs : s.Live sig V) (henv : TypeEnv.Live V s.next env)
    (hσ : s.solver.subst.AgreesWith σ) (hΓ : env.AtMost σ Γ) (N : TypeVar) :
    env.AtMost (s.refresh env σ N) Γ := by
  refine henv.atMost_congr hΓ fun p hp v hv => ?_
  have happly := hs.triangular.simple.apply (.var v .erased)
  calc
    s.refresh env σ N v = (s.solver.subst.apply (.var v .erased)).mono σ :=
      happly.mono_congr fun w hw => if_pos ((hs.mem_envVars henv).2 ⟨p, hp, v, hv, hw⟩)
    _ = σ v := hσ.mono_apply hs.triangular.simple (.var v .erased)

/-- The rules allow all instances of a generalized type, as soon as new variables stand for the
quantified ones. -/
theorem atMost_scheme (hs : s.Live sig V) (ht : t.Live V s.next) {N : TypeVar}
    (hN : s.Beyond env σ Γ N) :
    (s.scheme env t).AtMost σ (Γ.generalize (t.mono (s.refresh env σ N))) := by
  have ht' := (hs.apply ht).simple
  let order := TypeVar.orderBy (kindVars s) (s.quantified env t)
  have hmem : ∀ v, v ∈ order ↔ v ∈ (s.solver.subst.apply t).freeVars ∧ v ∉ envVars s env :=
    fun v => TypeVar.mem_orderBy.trans (hs.mem_quantified ht)
  intro τ hτ
  rw [hs.scheme_eq] at hτ
  obtain ⟨ρ, hρ, rfl⟩ := (Ty.hasInstance_quantifyWith ht').1 hτ
  have hrefresh : t.mono (s.refresh env σ N) = (s.solver.subst.apply t).mono fun w =>
      if w ∈ envVars s env then σ w else .var (N + w) := (hs.triangular.mono_apply ht.simple).symm
  rw [hrefresh]
  refine ⟨fun x => if N ≤ x ∧ x - N ∈ order then ρ (x - N) else .var x, fun x hx => ?_, ?_⟩
  · refine if_neg fun ⟨hle, hx'⟩ => hx (List.mem_filter.2 ⟨?_, ?_⟩)
    · obtain ⟨hfree, hnot⟩ := (hmem _).1 hx'
      refine ht'.mem_vars_mono.2 ⟨x - N, hfree, ?_⟩
      simp [hnot, Nat.add_sub_cancel' hle]
    · simpa using fun hΓ => absurd (hN.context x hΓ) (Nat.not_lt.2 hle)
  · dsimp only [Context.generalize]
    rw [ht'.subst_mono]
    refine ht'.mono_congr fun w hw => ?_
    by_cases henv : w ∈ envVars s env
    · have hnot : w ∉ order := fun h => ((hmem w).1 h).2 henv
      simp only [henv, if_true]
      rw [hρ w hnot, MonoTy.subst_eq_self fun x hx => if_neg fun h =>
        absurd (hN.env w henv x hx) (Nat.not_lt.2 h.1)]
    · have horder : w ∈ order := (hmem w).2 ⟨hw, henv⟩
      simp [henv, horder]

/-- A generalized type has all instances that the rules ask for. -/
theorem atLeast_scheme (hs : s.Live sig V) (henv : TypeEnv.Live V s.next env)
    (hσ : s.solver.subst.AgreesWith σ) (hΓ : env.AtLeast σ Γ) (ht : t.Live V s.next) :
    (s.scheme env t).AtLeast σ (Γ.generalize (t.mono σ)) := by
  have ht' := (hs.apply ht).simple
  have hsimple := hs.triangular.simple
  let order := TypeVar.orderBy (kindVars s) (s.quantified env t)
  have hmem : ∀ v, v ∈ order ↔ v ∈ (s.solver.subst.apply t).freeVars ∧ v ∉ envVars s env :=
    fun v => TypeVar.mem_orderBy.trans (hs.mem_quantified ht)
  -- What the variables of the environment stand for is free in the context.
  have hfree : ∀ w ∈ envVars s env, ∀ x ∈ (σ w).vars, x ∈ Γ.freeVars := by
    intro w hw x hx
    obtain ⟨p, hp, u, hu, hw⟩ := (hs.mem_envVars henv).1 hw
    refine henv.mem_freeVars hΓ hp hu ?_
    have hu' : (s.solver.subst.apply (.var u .erased)).mono σ = σ u :=
      hσ.mono_apply hsimple (.var u .erased)
    rw [← hu', (hsimple.apply (.var u .erased)).mem_vars_mono]
    exact ⟨w, hw, hx⟩
  rintro τ ⟨δ, hδ, rfl⟩
  rw [hs.scheme_eq]
  refine (Ty.hasInstance_quantifyWith ht').2
    ⟨fun w => if w ∈ order then (σ w).subst δ else σ w, fun w hw => if_neg hw, ?_⟩
  dsimp only [Context.generalize]
  rw [← hσ.mono_apply hsimple ht.simple, ht'.subst_mono]
  refine ht'.mono_congr fun w hw => ?_
  by_cases horder : w ∈ order
  · simp [horder]
  · have hw' : w ∈ envVars s env := by
      by_contra hnot
      exact horder ((hmem w).2 ⟨hw, hnot⟩)
    simp only [horder, if_false]
    refine MonoTy.subst_eq_self fun x hx => hδ x fun hgen => ?_
    simpa [hfree w hw' x hx] using (List.mem_filter.1 hgen).2

end Live

end CheckState

end FieldML
