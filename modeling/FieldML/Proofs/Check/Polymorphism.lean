import FieldML.Proofs.Check.Infer
import FieldML.Proofs.Check.Basic

/-!
# Generalizing and instantiating

A generalized type is closed, and every use of it is a copy with new variables, exactly where no
quantified variable leads back to itself through kinds. The check does not rule such variables out:
it refuses a kind that mentions its own variable, but not two kinds that mention each other's.
-/

namespace FieldML

open Check

variable {o : CheckOptions} {s s₁ s₂ s₃ s₄ : CheckState} {env : TypeEnv} {t t₁ t₂ : Ty}
  {range : Range} {v : TypeVar}

namespace CheckState

/-- The type is a copy of a resolved type: its quantified variables, and those in their kinds, gave
way to variables handed out from one state to the other. -/
def Instance (s : CheckState) (env : TypeEnv) (t : Ty) (range : Range) (t₁ : Ty)
    (s₁ s₂ : CheckState) : Prop :=
  ∃ ρ, t₁ = ((s.solver.subst.apply t).mapVars
      (.renaming (s.quantified env t) ρ range) []).withRange range ∧
    Copied (s.quantified env t) s.kind ρ range s₁ s₂

/-- The variable occurs in the type, or in the kind of a variable handed out from one state to the
other. -/
def Occurs (t₁ : Ty) (s₁ s₂ : CheckState) (v : TypeVar) : Prop :=
  v ∈ t₁.freeVars ∨ ∃ w, s₁.next ≤ w ∧ w < s₂.next ∧ v ∈ (s₂.solver.kindOf w).freeVars

/-- Every use of a scheme is a copy of the type that was generalized. -/
theorem instantiate_scheme (o : CheckOptions) (range : Range) (hs : s.Wf) (ht : t.Known s.next)
    (hacyclic : s.Acyclic (s.quantified env t)) (hs₁ : s₁.Wf) (hle : s.next ≤ s₁.next) :
    ∃ t₁ s₂, instantiate (s.scheme env t) range o s₁ = (.ok t₁, s₂) ∧
      s.Instance env t range t₁ s₁ s₂ ∧ s₁.Leads s₂ ∧ s₂.Wf := by
  let order := TypeVar.orderBy (kindVars s) (s.quantified env t)
  have hmem : ∀ v, v ∈ order ↔ v ∈ s.quantified env t := fun v => TypeVar.mem_orderBy
  have hlt : ∀ v ∈ order, v < s.next := fun v hv => quantified_lt hs ht ((hmem v).1 hv)
  have hsettled : ∀ before v after, order = before ++ v :: after →
      ∀ w ∈ (s.kind v).freeVars, w ∉ v :: after := by
    intro before v after heq w hw hafter
    have hworder : w ∈ order := heq ▸ List.mem_append_right _ hafter
    have hstep : w ∈ kindVars s v := mem_kindVars.2 (Kind.mem_freeVars.1 hw)
    have hbefore := TypeVar.settled_orderBy hacyclic before v after heq w hstep ((hmem w).1 hworder)
    have hnodup : (before ++ v :: after).Nodup := heq ▸ TypeVar.nodup_orderBy _ _
    exact List.disjoint_of_nodup_append hnodup hbefore hafter
  have ht' := hs.apply ht
  obtain ⟨ρ, s₂, hopen, hcopied, hlead, hs₂⟩ := openQuantifiers_copies o range
    (r := (s.solver.subst.apply t).range) hs₁ (TypeVar.nodup_orderBy _ _)
    (fun v hv => (hlt v hv).trans_le hle) (fun v hv => (hs.applyKind (hlt v hv)).mono hle)
    (ht'.mono hle) hsettled
  have hrenaming : Replacement.renaming order ρ range =
      .renaming (s.quantified env t) ρ range := by
    funext _ v r
    simp only [Replacement.renaming, hmem]
  rw [hrenaming] at hopen
  refine ⟨_, s₂, ?_, ⟨ρ, rfl, ?_⟩, hlead, hs₂⟩
  · rw [instantiate, bind_apply, scheme, quantify_eq, quantifiers_quantifyWith ht'.simple]
    have hopen' : openQuantifiers range order.length (quantifyWith s.kind
        (s.solver.subst.apply t).range order (s.solver.subst.apply t)) o s₁ = _ := hopen
    rw [hopen']
    rfl
  · exact ⟨fun v hv w hw => hcopied.injective v ((hmem v).2 hv) w ((hmem w).2 hw),
      fun v hv => hcopied.fresh v ((hmem v).2 hv),
      fun w hw hw' => (hcopied.onto w hw hw').imp fun v hv => ⟨(hmem v).1 hv.1, hv.2⟩,
      fun v hv => hrenaming ▸ hcopied.kind v ((hmem v).2 hv), hcopied.older, hcopied.subst⟩

/-- What occurs in a copy is new or belongs to the environment. -/
theorem Instance.occurs (hs : s.Wf) (ht : t.Known s.next)
    (hcopy : s.Instance env t range t₁ s₁ s₂) (hv : Occurs t₁ s₁ s₂ v) :
    s₁.next ≤ v ∧ v < s₂.next ∨ v ∈ envVars s env := by
  obtain ⟨ρ, rfl, hcopied⟩ := hcopy
  have hclosed := hs.closedUnderKinds (hs.apply ht).below
  have hrenamed : ∀ u, ∀ r : Range, u ∈ closedUnderKinds s (s.solver.subst.apply t).freeVars →
      v ∈ (Replacement.renaming (s.quantified env t) ρ range [] u r).freeVars →
      s₁.next ≤ v ∧ v < s₂.next ∨ v ∈ envVars s env := by
    intro u r hu hv
    unfold Replacement.renaming at hv
    split at hv
    · next hq =>
        obtain rfl := Ty.mem_freeVars_var.1 hv
        exact Or.inl (hcopied.fresh u hq)
    · next hq =>
        obtain rfl := Ty.mem_freeVars_var.1 hv
        refine Or.inr (by_contra fun hnot => ?_)
        exact hq (mem_quantified.2 ⟨hu, hnot⟩)
  rcases hv with hv | ⟨w, hge, hlt, hv⟩
  · rw [Ty.freeVars_withRange] at hv
    obtain ⟨u, hu, r, hv⟩ := (hs.apply ht).simple.exists_of_mem_freeVars_mapVars hv
    exact hrenamed u r (hclosed.1 hu) hv
  · obtain ⟨q, hq, rfl⟩ := hcopied.onto w hge hlt
    rw [hcopied.kind q hq] at hv
    obtain ⟨p, hp, hv⟩ := Kind.mem_freeVars.1 hv
    rw [Kind.fields_mapVars] at hp
    obtain ⟨x, hx, rfl⟩ := List.mem_map.1 hp
    have hkind := hs.applyKind (quantified_lt hs ht hq)
    obtain ⟨u, hu, r, hv⟩ := (hkind.simple.2 x hx).exists_of_mem_freeVars_mapVars hv
    exact hrenamed u r (hclosed.2 q (mem_quantified.1 hq).1 u (mem_kindVars.2 ⟨x, hx, hu⟩)) hv

end CheckState

namespace Check

/-- Generalizing a type yields a scheme, which is closed exactly if no quantified variable leads back
to itself through kinds. Then using the scheme yields copies of the type and of the kinds of its
variables, and two copies have no variables in common but those of the environment. -/
theorem generalize_closed_and_copied (hs : s.Wf) (henv : TypeEnv.Known s.next env)
    (ht : t.Known s.next) :
    ∃ scheme events, generalize t env o s = (.ok scheme, { s with events := events }) ∧
      ((∀ v ∈ scheme.openVars, v ∈ envVars s env) ↔ s.Acyclic (s.quantified env t)) ∧
      (s.Acyclic (s.quantified env t) → ∀ o₁ range₁ s₁, s₁.Wf → s.next ≤ s₁.next →
        ∃ t₁ s₂, instantiate scheme range₁ o₁ s₁ = (.ok t₁, s₂) ∧
          s.Instance env t range₁ t₁ s₁ s₂ ∧
          ∀ o₃ range₃ s₃, s₃.Wf → s₂.next ≤ s₃.next →
            ∃ t₃ s₄, instantiate scheme range₃ o₃ s₃ = (.ok t₃, s₄) ∧
              s.Instance env t range₃ t₃ s₃ s₄ ∧
              ∀ v, CheckState.Occurs t₁ s₁ s₂ v → CheckState.Occurs t₃ s₃ s₄ v →
                v ∈ envVars s env) := by
  obtain ⟨events, hgen⟩ := CheckState.generalize_apply t env o s
  refine ⟨s.scheme env t, events, hgen, hs.openVars_scheme_iff henv ht, ?_⟩
  intro hacyclic o₁ range₁ s₁ hs₁ hle
  obtain ⟨t₁, s₂, hinst, hcopy, hlead, -⟩ :=
    CheckState.instantiate_scheme o₁ range₁ hs ht hacyclic hs₁ hle
  refine ⟨t₁, s₂, hinst, hcopy, ?_⟩
  intro o₃ range₃ s₃ hs₃ hle₃
  obtain ⟨t₃, s₄, hinst₃, hcopy₃, -, -⟩ :=
    CheckState.instantiate_scheme o₃ range₃ hs ht hacyclic hs₃
      ((hle.trans hlead.next).trans hle₃)
  refine ⟨t₃, s₄, hinst₃, hcopy₃, fun v hv hv₃ => ?_⟩
  rcases hcopy.occurs hs ht hv with ⟨-, hlt⟩ | henv
  · rcases hcopy₃.occurs hs ht hv₃ with ⟨hge, -⟩ | henv
    · exact absurd (hlt.trans_le hle₃) (Nat.not_lt.2 hge)
    · exact henv
  · exact henv

/-- What can be computed about the state after an expression, where that is known to be in order. -/
theorem exists_infer_of_computed (e : Expr) (P : Ty → CheckState → Bool)
    (h : (match infer initialTypeEnv e {} (start initialVariantEnv .empty initialTypeEnv) with
      | (.ok (_, t), s) => P t s
      | (.error _, _) => false) = true) :
    ∃ core t s,
      infer initialTypeEnv e {} (start initialVariantEnv .empty initialTypeEnv) =
        (.ok (core, t), s) ∧
      P t s = true ∧ s.Wf ∧ TypeEnv.Known s.next initialTypeEnv ∧ t.Known s.next := by
  have hkeeps : Keeps (infer initialTypeEnv e) {} (start initialVariantEnv .empty initialTypeEnv)
      fun r s' => r.2.Known s'.next :=
    keeps_infer (CheckState.Wf.start wf_initialEnvironments) wf_initialEnvironments.types e
  unfold Keeps at hkeeps
  rcases hinfer : infer initialTypeEnv e {} (start initialVariantEnv .empty initialTypeEnv) with
    ⟨_ | ⟨core, t⟩, s⟩
  · rw [hinfer] at h
    simp at h
  · rw [hinfer] at h hkeeps
    obtain ⟨hlead, hwf, ht⟩ := hkeeps
    exact ⟨core, t, s, rfl, h, hwf, wf_initialEnvironments.types.mono hlead.next, ht⟩

/-- The function that yields the field `f` of its argument. -/
def fieldOf : Expr :=
  let here := Range.label "here"
  .lambda ⟨"x", here⟩ (.field (.var ⟨"x", here⟩) ⟨"f", here⟩ here) here

theorem generalize_closed_and_copied_fieldOf :
    ∃ core t s, infer initialTypeEnv fieldOf {}
        (start initialVariantEnv .empty initialTypeEnv) = (.ok (core, t), s) ∧
      ∃ scheme events, generalize t initialTypeEnv {} s = (.ok scheme, { s with events := events }) ∧
        (∀ v ∈ scheme.openVars, v ∈ envVars s initialTypeEnv) ∧
        ∃ t₁ s₂, instantiate scheme (.label "there") {} s = (.ok t₁, s₂) ∧
          s.Instance initialTypeEnv t (.label "there") t₁ s s₂ := by
  obtain ⟨core, t, s, hinfer, hkinds, hs, henv, ht⟩ := exists_infer_of_computed fieldOf
    (fun _ s => (s.next == 8) && (s.kind 6).freeVars.isEmpty &&
      (List.range 8).all fun v => (s.kind v).freeVars.all (· == 6)) (by decide +kernel)
  simp only [Bool.and_eq_true, beq_iff_eq, List.isEmpty_iff, List.all_eq_true, List.mem_range]
    at hkinds
  obtain ⟨⟨hnext, hsix⟩, hkinds⟩ := hkinds
  have hstep : ∀ v w, s.KindStep v w → v < 8 → w = 6 := fun v w hstep hv =>
    hkinds v hv w (Kind.mem_freeVars.2 (CheckState.mem_kindVars.1 hstep))
  have hacyclic : s.Acyclic (s.quantified initialTypeEnv t) := by
    intro v hv hcycle
    have hlt : v < 8 := hnext ▸ CheckState.quantified_lt hs ht hv
    have hreach : ∀ w, Relation.TransGen s.KindStep v w → w = 6 := by
      intro w hchain
      induction hchain with
      | single hvw => exact hstep v _ hvw hlt
      | tail _ hlast ih => exact hstep _ _ hlast (ih ▸ by decide)
    obtain ⟨w, hvw, -⟩ := Relation.TransGen.head'_iff.1 hcycle
    rw [hreach v hcycle] at hvw
    have hmem := Kind.mem_freeVars.2 (CheckState.mem_kindVars.1 hvw)
    simp [hsix] at hmem
  obtain ⟨scheme, events, hgen, hclosed, hcopy⟩ := generalize_closed_and_copied (o := {}) hs henv ht
  obtain ⟨t₁, s₂, hinst, hcopy, -⟩ := hcopy hacyclic {} (.label "there") s hs (Nat.le_refl _)
  exact ⟨core, t, s, hinfer, scheme, events, hgen, hclosed.2 hacyclic, t₁, s₂, hinst, hcopy⟩

/-- The function that yields the field `g` of the field `f` of its argument, or the argument. -/
def nestedFieldOrSelf : Expr :=
  let here := Range.label "here"
  let x := Expr.var ⟨"x", here⟩
  .lambda ⟨"x", here⟩
    (.ifElse (.literal (.bool true) here) (.field (.field x ⟨"f", here⟩ here) ⟨"g", here⟩ here) x
      here) here

/-- The kinds of the argument and of its field mention each other, so neither can be quantified
inside the other's quantifier. -/
theorem generalize_leaks_nestedFieldOrSelf :
    ∃ core t s, infer initialTypeEnv nestedFieldOrSelf {}
        (start initialVariantEnv .empty initialTypeEnv) = (.ok (core, t), s) ∧
      ∃ scheme events, generalize t initialTypeEnv {} s = (.ok scheme, { s with events := events }) ∧
        ∃ v ∈ scheme.openVars, v ∉ envVars s initialTypeEnv := by
  obtain ⟨core, t, s, hinfer, hkinds, hs, henv, ht⟩ := exists_infer_of_computed nestedFieldOrSelf
    (fun t s => (s.solver.subst.apply t).freeVars.contains 5 && (s.kind 5).freeVars.contains 6 &&
      (s.kind 6).freeVars.contains 5 &&
      (initialTypeEnv.flatMap fun entry => (s.solver.subst.apply entry.2).freeVars).isEmpty)
    (by decide +kernel)
  simp only [Bool.and_eq_true, List.contains_iff_mem, List.isEmpty_iff] at hkinds
  obtain ⟨⟨⟨hfree, hfive⟩, hsix⟩, hempty⟩ := hkinds
  obtain ⟨events, hgen⟩ := CheckState.generalize_apply t initialTypeEnv {} s
  have henvVars : envVars s initialTypeEnv = [] := by
    change closedUnderKinds s
      (initialTypeEnv.flatMap fun entry => (s.solver.subst.apply entry.2).freeVars) = []
    rw [hempty, closedUnderKinds, TypeVar.reach]
  have hquantified : 5 ∈ s.quantified initialTypeEnv t := by
    rw [CheckState.mem_quantified, henvVars]
    exact ⟨(hs.closedUnderKinds (hs.apply ht).below).1 hfree, List.not_mem_nil⟩
  have hcycle : Relation.TransGen s.KindStep 5 5 :=
    .tail (.single (CheckState.mem_kindVars.2 (Kind.mem_freeVars.1 hfive)))
      (CheckState.mem_kindVars.2 (Kind.mem_freeVars.1 hsix))
  obtain ⟨w, hw, -⟩ := hs.exists_mem_openVars henv ht hquantified hcycle
  exact ⟨core, t, s, hinfer, _, events, hgen, w, hw, by simp [henvVars]⟩

end Check

end FieldML
