import FieldML.Proofs.Check.PatternType
import FieldML.Proofs.Check.Register
import FieldML.Proofs.Check.Basic

/-!
# Matches without a missing case

If the coverage analysis of a match finds no missing case, the match selects an arm for every value
of its type. If it finds one, the match fails on some value in that case.
-/

namespace FieldML.Check

/-- Patterns that are accepted against a type one after the other, where the check may go on in
between, from the first state to the second. -/
inductive Accepted (o : CheckOptions) (t : Ty) : CheckState → List CorePattern → CheckState → Prop
  | nil {s s' : CheckState} (hlater : s.Later s') : Accepted o t s [] s'
  | cons {s s₁ s₂ s' : CheckState} {p : Pattern} {core : CorePattern} {cores : List CorePattern}
      {bindings : PatternBindings} (hrun : pattern t [] p o s = (.ok (core, bindings), s₁))
      (hlater : s₁.Later s₂) (hrest : Accepted o t s₂ cores s') :
      Accepted o t s (core :: cores) s'

variable {o : CheckOptions} {s s' : CheckState} {t : Ty} {cores : List CorePattern}

theorem Accepted.suit (h : Accepted o t s cores s') (hs : s.Wf)
    (htri : s.solver.subst.Triangular True) (ht : t.Known s.next) :
    s.Later s' ∧ ∀ core ∈ cores, Suit [Case.ofPattern core] [t] s.variants s' := by
  induction h with
  | nil hlater => exact ⟨hlater, by simp⟩
  | cons hrun hlater hrest ih =>
      obtain ⟨h₁, hsuit⟩ := finds_pattern hs htri ht [] _ _ _ hrun
      have h₂ := h₁.trans hlater
      obtain ⟨h₃, hcores⟩ := ih hlater.wf hlater.triangular (ht.mono h₂.next)
      refine ⟨h₂.trans h₃, List.forall_mem_cons.2 ⟨hsuit.later (hlater.trans h₃), ?_⟩⟩
      rw [← h₂.variants]
      exact hcores

theorem Accepted.fits (h : Accepted o t s cores s') (hs : s.Wf)
    (htri : s.solver.subst.Triangular True) (ht : t.Known s.next) :
    ∀ core ∈ cores, (Case.ofPattern core).Fits s.variants (s'.solver.subst.bare t) := by
  obtain ⟨hlater, hsuit⟩ := h.suit hs htri ht
  intro core hcore
  exact (List.forall₂_cons.1 (hsuit core hcore _ hlater.triangular (.refl _))).1

/-- The verdict on a match is exact. If it finds no missing case, then on every value of the type
the first arm is selected that accepts it; otherwise the match fails on a value in that case. -/
theorem missing_case_exact {alternatives : List (CoreArm Core)} (henv : s.variants.Registered)
    (hs : s.Wf) (htri : s.solver.subst.Triangular True) (ht : t.Known s.next)
    (harms : Accepted o t s (alternatives.map (·.pattern)) s') (Held : Ty → Value → Prop) :
    let missing := (Coverage.analyze s.variants (alternatives.map (·.pattern))).missing
    let type := s'.solver.subst.bare t
    (missing = none → ∀ v, v.HasType s.variants Held type →
      ∃ before arm bound rest, alternatives = before ++ arm :: rest ∧
        arm.pattern.bindings? v [] = some bound ∧
        ∀ ev scope i, Eval.arms ev scope v i alternatives = (do
          Eval.reportArm (i + before.length) v
          ev (← Eval.enter scope bound.reverse) arm.body)) ∧
    ∀ witness, missing = some witness → type.Populated s.variants Held →
      (Case.intsOfList (Case.ofPatterns (alternatives.map (·.pattern)))).length < 2 ^ 64 →
      ∃ v, v.HasType s.variants Held type ∧ witness.Accepts v ∧
        (∀ arm ∈ alternatives, arm.pattern.bindings? v [] = none) ∧
        ∀ ev scope i, Eval.arms ev scope v i alternatives = Eval.failOn .noMatchingPattern v := by
  intro missing type
  have hlists := henv.listsAll hs.variants.toWf
  have hfit := harms.fits hs htri ht
  constructor
  · intro hnone v hv
    obtain ⟨p, hp, haccepts⟩ := Coverage.exists_accepts_of_analyze hlists hfit hnone hv
    obtain ⟨arm, harm, rfl⟩ := List.mem_map.1 hp
    exact Eval.arms_of_accepts ⟨arm, harm, haccepts⟩
  · intro witness hsome hpopulated hints
    obtain ⟨v, hv, haccepts, hnot⟩ :=
      Coverage.exists_not_accepts_of_analyze hlists hfit hsome hpopulated hints
    have hnone : ∀ arm ∈ alternatives, ¬(Case.ofPattern arm.pattern).Accepts v :=
      fun arm harm => hnot arm.pattern (List.mem_map_of_mem harm)
    refine ⟨v, hv, haccepts, fun arm harm => ?_, Eval.arms_of_not_accepts hnone⟩
    have hbound := hnone arm harm
    rw [← CorePattern.isSome_bindings? _ _ []] at hbound
    simpa using hbound

def optionalBool : Ty := .variant "option" [.base .bool .erased] .erased

/-- The state in which the patterns below are checked. -/
def optionStart : CheckState := start initialVariantEnv .empty initialTypeEnv

def nonePattern : Pattern := .construct ⟨"None", .erased⟩ none .erased

def somePattern : Pattern :=
  .construct ⟨"Some", .erased⟩ (some (.literal (.bool true) .erased)) .erased

/-- Arms for all but one of the optional truth values. -/
def optionArms : List (CoreArm Core) :=
  [⟨.construct "None" [], .literal .unit⟩,
    ⟨.construct "Some" [.literal (.bool true)], .literal .unit⟩]

def optionEnd : CheckState :=
  (pattern optionalBool [] somePattern {} (pattern optionalBool [] nonePattern {} optionStart).2).2

theorem wf_optionStart : optionStart.Wf := CheckState.Wf.start wf_initialEnvironments

theorem triangular_optionStart : optionStart.solver.subst.Triangular True where
  simple v _ hv := by simp [optionStart, start, Substitution.find?] at hv
  ordered := ⟨fun _ => 0, fun v _ hv => by simp [optionStart, start, Substitution.find?] at hv⟩

theorem known_optionalBool (n : TypeVar) : optionalBool.Known n :=
  .variant (fun _ ht => List.mem_singleton.1 ht ▸ .base .bool .erased) "option" .erased

theorem accepted_optionArms :
    Accepted {} optionalBool optionStart (optionArms.map (·.pattern)) optionEnd := by
  have hnone : pattern optionalBool [] nonePattern {} optionStart =
      (.ok (.construct "None" [], []), (pattern optionalBool [] nonePattern {} optionStart).2) := by
    rfl
  have hsome : pattern optionalBool [] somePattern {}
        (pattern optionalBool [] nonePattern {} optionStart).2 =
      (.ok (.construct "Some" [.literal (.bool true)], []), optionEnd) := by
    rfl
  obtain ⟨h₁, -⟩ := finds_pattern wf_optionStart triangular_optionStart (known_optionalBool _) []
    nonePattern _ _ hnone
  obtain ⟨h₂, -⟩ := finds_pattern h₁.wf h₁.triangular (known_optionalBool _) []
    somePattern _ _ hsome
  have hrefl := CheckState.Later.refl h₂.wf h₂.triangular
  exact .cons hnone (.refl h₁.wf h₁.triangular) (.cons hsome hrefl (.nil hrefl))

theorem populated_optionalBool :
    optionalBool.Populated initialVariantEnv fun _ _ => False := by
  -- Nothing but the type and its argument is involved.
  have hinvolved : ∀ u, optionalBool.Involves initialVariantEnv u →
      u = optionalBool ∨ u = .base .bool .erased := by
    intro u hu
    induction hu with
    | refl => exact Or.inl rfl
    | tail _ hstep ih =>
        obtain ⟨h, ts, hts, hmem⟩ := hstep
        rcases ih with rfl | rfl
        · cases hts with
          | @ctor name _ c args r hc _ =>
              have hctor : (name, c) ∈ initialVariantEnv.constructors := Fields.mem_of_get? hc
              simp only [initialVariantEnv, List.mem_cons, List.not_mem_nil, or_false,
                Prod.mk.injEq] at hctor
              rcases hctor with ⟨-, rfl⟩ | ⟨-, rfl⟩
              · exact absurd hmem List.not_mem_nil
              · exact Or.inr (List.mem_singleton.1 hmem)
        · cases hts
          exact absurd hmem List.not_mem_nil
  intro u hu
  rcases hinvolved u hu with rfl | rfl
  · exact ⟨.construct "None" [], .construct .erased rfl rfl .nil⟩
  · exact ⟨.bool true, .bool true .erased⟩

theorem missing_optionArms :
    (Coverage.analyze initialVariantEnv (optionArms.map (·.pattern))).missing =
      some (.of (.ctor "Some") [.of (.bool false) []]) := by
  let rows : Coverage.Matrix :=
    [[.of (.ctor "None") []], [.of (.ctor "Some") [.of (.bool true) []]]]
  have hcomplete : Coverage.completeSignature initialVariantEnv (Coverage.firstHeads rows) =
      some ⟨[(.ctor "None", 0), (.ctor "Some", 1)], by decide⟩ := rfl
  have hnone : Coverage.missing initialVariantEnv [[]] 0 = none := by
    rw [Coverage.missing]
    rfl
  have hsome : Coverage.missing initialVariantEnv [[.of (.bool true) []]] 1 =
      some [.of (.bool false) []] := by
    rw [Coverage.missing_of_incomplete rfl, Coverage.missing]
    rfl
  change (Coverage.missing initialVariantEnv rows 1).bind List.head? = _
  rw [Coverage.missing_of_complete hcomplete]
  simp [rows, List.findSome?, Coverage.specialize, hnone, hsome]

/-- The case that is missing is found, and the match fails on its value. -/
theorem missing_case_exact_optionArms :
    Accepted {} optionalBool optionStart (optionArms.map (·.pattern)) optionEnd ∧
      (Coverage.analyze initialVariantEnv (optionArms.map (·.pattern))).missing =
        some (.of (.ctor "Some") [.of (.bool false) []]) ∧
      ∃ v, v.HasType initialVariantEnv (fun _ _ => False) optionalBool ∧
        (Case.of (.ctor "Some") [.of (.bool false) []]).Accepts v ∧
        ∀ ev scope i, Eval.arms ev scope v i optionArms = Eval.failOn .noMatchingPattern v := by
  obtain ⟨v, hv, haccepts, -, heval⟩ := (missing_case_exact (s := optionStart) .initial
    wf_optionStart triangular_optionStart (known_optionalBool _) accepted_optionArms
    fun _ _ => False).2 _ missing_optionArms populated_optionalBool (by decide)
  exact ⟨accepted_optionArms, missing_optionArms, v, hv, haccepts, heval⟩

end FieldML.Check
