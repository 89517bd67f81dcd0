import FieldML.Proofs.Check.Coverage
import FieldML.Proofs.Coverage.Useful

/-!
# Arms that are never selected

The coverage analysis reports an arm of a match exactly if every value of the type that it accepts is
accepted by an earlier arm. A reported arm is never selected, and every other arm is.
-/

namespace FieldML

/-- The number of the arm that a match selects for a value. -/
def Eval.selected? (alternatives : List (CoreArm Core)) (v : Value) : Option Nat :=
  alternatives.findIdx? fun arm => (arm.pattern.bindings? v []).isSome

namespace Eval

variable {alternatives : List (CoreArm Core)} {v : Value} {i : Nat}

theorem selected?_eq_some : selected? alternatives v = some i ↔
    ∃ arm, alternatives[i]? = some arm ∧ (Case.ofPattern arm.pattern).Accepts v ∧
      ∀ p ∈ (alternatives.map (·.pattern)).take i, ¬(Case.ofPattern p).Accepts v := by
  unfold selected?
  rw [List.findIdx?_eq_some_iff_getElem]
  simp only [CorePattern.isSome_bindings?]
  constructor
  · rintro ⟨hi, haccepts, hearlier⟩
    refine ⟨alternatives[i], List.getElem?_eq_getElem hi, haccepts, fun p hp => ?_⟩
    obtain ⟨j, hj, rfl⟩ := List.mem_take_iff_getElem.1 hp
    rw [List.getElem_map]
    exact hearlier j (by omega)
  · rintro ⟨arm, harm, haccepts, hearlier⟩
    obtain ⟨hi, rfl⟩ := List.getElem?_eq_some_iff.1 harm
    refine ⟨hi, haccepts, fun j hj => hearlier _ ?_⟩
    exact List.mem_take_iff_getElem.2 ⟨j, by simp; omega, by simp⟩

/-- The body of the selected arm is what a match evaluates. -/
theorem arms_of_selected (h : selected? alternatives v = some i) :
    ∃ arm bound, alternatives[i]? = some arm ∧ arm.pattern.bindings? v [] = some bound ∧
      ∀ ev scope n, arms ev scope v n alternatives = (do
        reportArm (n + i) v
        ev (← enter scope bound.reverse) arm.body) := by
  induction alternatives generalizing i with
  | nil => simp [selected?] at h
  | cons arm rest ih =>
      unfold selected? at h
      rw [List.findIdx?_cons] at h
      cases hbound : arm.pattern.bindings? v [] with
      | some bound =>
          obtain rfl : 0 = i := by simpa [hbound] using h
          exact ⟨arm, bound, rfl, hbound, fun ev scope n => by simp [arms, hbound]⟩
      | none =>
          obtain ⟨j, hj, rfl⟩ : ∃ j, selected? rest v = some j ∧ j + 1 = i := by
            simpa [hbound, selected?] using h
          obtain ⟨selected, bound, hselected, haccepts, heval⟩ := ih hj
          refine ⟨selected, bound, hselected, haccepts, fun ev scope n => ?_⟩
          rw [arms, hbound]
          simpa [Nat.add_assoc, Nat.add_comm 1] using heval ev scope (n + 1)

end Eval

namespace Check

variable {o : CheckOptions} {s s' : CheckState} {t : Ty}

/-- The report of unused arms is exact. It has the number of an arm if and only if every value of the
type that the arm accepts is accepted by an earlier one. An arm in the report is selected for no value
of the type, and every other arm is selected for some. -/
theorem unused_arms_exact {alternatives : List (CoreArm Core)} (henv : s.variants.Registered)
    (hs : s.Wf) (htri : s.solver.subst.Triangular True) (ht : t.Known s.next)
    (harms : Accepted o t s (alternatives.map (·.pattern)) s') (Held : Ty → Value → Prop)
    (hpopulated : (s'.solver.subst.bare t).Populated s.variants Held)
    (hints :
      (Case.intsOfList (Case.ofPatterns (alternatives.map (·.pattern)))).length < 2 ^ 64) :
    let unused := (Coverage.analyze s.variants (alternatives.map (·.pattern))).unused
    let type := s'.solver.subst.bare t
    (∀ i, i ∈ unused ↔ ∃ arm, alternatives[i]? = some arm ∧
      ∀ v, v.HasType s.variants Held type → (arm.pattern.bindings? v []).isSome →
        ∃ j < i, ∃ earlier, alternatives[j]? = some earlier ∧
          (earlier.pattern.bindings? v []).isSome) ∧
    (∀ i ∈ unused, ∀ v, v.HasType s.variants Held type →
      Eval.selected? alternatives v ≠ some i) ∧
    ∀ i arm, alternatives[i]? = some arm → i ∉ unused →
      ∃ (v : Value) (bound : List (String × Value)), v.HasType s.variants Held type ∧
        Eval.selected? alternatives v = some i ∧
        ∀ ev scope n, Eval.arms ev scope v n alternatives = (do
          Eval.reportArm (n + i) v
          ev (← Eval.enter scope bound.reverse) arm.body) := by
  intro unused type
  have hlists := henv.listsAll hs.variants.toWf
  have hfit := harms.fits hs htri ht
  have hpattern : ∀ {i : Nat} {arm : CoreArm Core}, alternatives[i]? = some arm →
      (alternatives.map (·.pattern))[i]? = some arm.pattern := fun h => by simp [h]
  have hearlier : ∀ {i : Nat} {v : Value}, i ∈ unused → v.HasType s.variants Held type →
      ∀ arm, alternatives[i]? = some arm → (Case.ofPattern arm.pattern).Accepts v →
        ∃ p ∈ (alternatives.map (·.pattern)).take i, (Case.ofPattern p).Accepts v :=
    fun hunused hv _ harm => Coverage.exists_earlier_of_mem_unused hlists hfit hunused
      (hpattern harm) hv
  have hnew : ∀ {i : Nat} {arm : CoreArm Core}, alternatives[i]? = some arm → i ∉ unused →
      ∃ v, v.HasType s.variants Held type ∧ (Case.ofPattern arm.pattern).Accepts v ∧
        ∀ p ∈ (alternatives.map (·.pattern)).take i, ¬(Case.ofPattern p).Accepts v :=
    fun harm hused => Coverage.exists_new_of_notMem_unused hlists hfit hused (hpattern harm)
      hpopulated hints
  refine ⟨fun i => ⟨fun hunused => ?_, ?_⟩, fun i hunused v hv hselected => ?_,
    fun i arm harm hused => ?_⟩
  · obtain ⟨p, hp, -⟩ := Coverage.mem_unused.1 hunused
    obtain ⟨arm, harm, -⟩ := Option.map_eq_some_iff.1 (List.getElem?_map ▸ hp)
    refine ⟨arm, harm, fun v hv haccepts => ?_⟩
    obtain ⟨q, hq, haccepts⟩ :=
      hearlier hunused hv arm harm ((CorePattern.isSome_bindings? _ _ _).1 haccepts)
    obtain ⟨j, hj, rfl⟩ := List.mem_take_iff_getElem.1 hq
    rw [List.length_map] at hj
    refine ⟨j, by omega, alternatives[j], List.getElem?_eq_getElem (by omega), ?_⟩
    rw [List.getElem_map] at haccepts
    exact (CorePattern.isSome_bindings? _ _ _).2 haccepts
  · rintro ⟨arm, harm, hall⟩
    by_contra hused
    obtain ⟨v, hv, haccepts, hnot⟩ := hnew harm hused
    obtain ⟨j, hj, earlier, hfind, hbound⟩ :=
      hall v hv ((CorePattern.isSome_bindings? _ _ _).2 haccepts)
    obtain ⟨hlt, rfl⟩ := List.getElem?_eq_some_iff.1 hfind
    refine hnot _ ?_ ((CorePattern.isSome_bindings? _ _ _).1 hbound)
    exact List.mem_take_iff_getElem.2 ⟨j, by simp; omega, by simp⟩
  · obtain ⟨arm, harm, haccepts, hnot⟩ := Eval.selected?_eq_some.1 hselected
    obtain ⟨p, hp, hacc⟩ := hearlier hunused hv arm harm haccepts
    exact hnot p hp hacc
  · obtain ⟨v, hv, haccepts, hnot⟩ := hnew harm hused
    have hselected := Eval.selected?_eq_some.2 ⟨arm, harm, haccepts, hnot⟩
    obtain ⟨selected, bound, hfind, -, heval⟩ := Eval.arms_of_selected hselected
    obtain rfl := Option.some.inj (hfind.symm.trans harm)
    exact ⟨v, bound, hv, hselected, heval⟩

/-- Arms of which the last repeats the one before it. -/
def repeatedArms : List (CoreArm Core) :=
  optionArms ++ [⟨.construct "Some" [.literal (.bool true)], .literal .unit⟩]

def repeatedEnd : CheckState :=
  (pattern optionalBool [] somePattern {} optionEnd).2

theorem accepted_repeatedArms :
    Accepted {} optionalBool optionStart (repeatedArms.map (·.pattern)) repeatedEnd := by
  have hnone : pattern optionalBool [] nonePattern {} optionStart =
      (.ok (.construct "None" [], []), (pattern optionalBool [] nonePattern {} optionStart).2) := by
    rfl
  have hsome : pattern optionalBool [] somePattern {}
        (pattern optionalBool [] nonePattern {} optionStart).2 =
      (.ok (.construct "Some" [.literal (.bool true)], []), optionEnd) := by
    rfl
  have hagain : pattern optionalBool [] somePattern {} optionEnd =
      (.ok (.construct "Some" [.literal (.bool true)], []), repeatedEnd) := by
    rfl
  have hknown := known_optionalBool
  obtain ⟨h₁, -⟩ := finds_pattern wf_optionStart triangular_optionStart (hknown _) [] _ _ _ hnone
  obtain ⟨h₂, -⟩ := finds_pattern h₁.wf h₁.triangular (hknown _) [] _ _ _ hsome
  obtain ⟨h₃, -⟩ := finds_pattern h₂.wf h₂.triangular (hknown _) [] _ _ _ hagain
  have hend := CheckState.Later.refl h₃.wf h₃.triangular
  exact .cons hnone (.refl h₁.wf h₁.triangular) (.cons hsome (.refl h₂.wf h₂.triangular)
    (.cons hagain hend (.nil hend)))

/-- The repeated arm is reported and never selected, the arm before it is selected. -/
theorem unused_arms_exact_repeatedArms :
    let unused := (Coverage.analyze initialVariantEnv (repeatedArms.map (·.pattern))).unused
    Accepted {} optionalBool optionStart (repeatedArms.map (·.pattern)) repeatedEnd ∧
      2 ∈ unused ∧ 1 ∉ unused ∧
      (∀ v, v.HasType initialVariantEnv (fun _ _ => False) optionalBool →
        Eval.selected? repeatedArms v ≠ some 2) ∧
      ∃ v, v.HasType initialVariantEnv (fun _ _ => False) optionalBool ∧
        Eval.selected? repeatedArms v = some 1 := by
  intro unused
  obtain ⟨hexact, hnever, hselected⟩ := unused_arms_exact (s := optionStart) .initial
    wf_optionStart triangular_optionStart (known_optionalBool _) accepted_repeatedArms
    (fun _ _ => False) populated_optionalBool (by decide)
  have hlast : 2 ∈ unused :=
    (hexact 2).2 ⟨_, rfl, fun v _ hbound => ⟨1, by decide, _, rfl, hbound⟩⟩
  have hused : 1 ∉ unused := by
    intro hunused
    obtain ⟨arm, harm, hall⟩ := (hexact 1).1 hunused
    obtain rfl := Option.some.inj harm
    have htrue : (Value.construct "Some" [.bool true]).HasType initialVariantEnv
        (fun _ _ => False) optionalBool :=
      .construct .erased rfl rfl (.cons (.bool true .erased) .nil)
    obtain ⟨j, hj, earlier, hfind, hbound⟩ := hall _ htrue rfl
    obtain rfl : j = 0 := by omega
    obtain rfl := Option.some.inj hfind
    exact absurd hbound (by decide)
  obtain ⟨v, -, hv, hv₁, -⟩ := hselected 1 _ rfl hused
  exact ⟨accepted_repeatedArms, hlast, hused, hnever 2 hlast, v, hv, hv₁⟩

end Check

end FieldML
