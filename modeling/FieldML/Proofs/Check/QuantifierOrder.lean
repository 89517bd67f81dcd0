import FieldML.Proofs.Check.Generalize

/-!
# The order of quantifiers

The variables that are quantified are put into an order by a search in depth through their kinds.
The search is limited to those variables, so kinds of other variables do not count, and it never
goes deeper than there are variables. If the variables do not refer to one another in a cycle, each
comes after all those that its kind mentions.
-/

namespace FieldML

namespace TypeVar

variable {next : TypeVar → List TypeVar} {among vars : List TypeVar} {s : Search} {v w : TypeVar}
  {m n : Nat}

/-- The second variable is one of the given ones and the first one leads to it. -/
def StepAmong (next : TypeVar → List TypeVar) (among : List TypeVar) (v w : TypeVar) : Prop :=
  w ∈ among ∧ w ∈ next v

/-- A search among some variables takes no step to other ones. -/
theorem visit_filter : visit (fun v => (next v).filter (· ∈ among)) among n v s =
    visit next among n v s := by
  induction n generalizing v s with
  | zero => rfl
  | succ n ih =>
      rw [visit, visit]
      simp only [List.foldl_filter, ih]
      have hstep : ∀ (s : Search) (w : TypeVar),
          (if decide (w ∈ among) then if w ∈ among then visit next among n w s else s else s) =
            if w ∈ among then visit next among n w s else s := by
        intro s w
        by_cases hw : w ∈ among <;> simp [hw]
      simp only [hstep]

/-- If the searches from single variables find nothing else at a greater depth, neither does the
search from some variables in turn. -/
theorem visitAll_more (vars : List TypeVar)
    (hmore : ∀ w ∈ among, ∀ s : Search, s.Wf among → s.unmet among < n →
      visit next among m w s = visit next among n w s)
    (hs : s.Wf among) (hn : s.unmet among < n) :
    visitAll next among m vars s = visitAll next among n vars s := by
  induction vars generalizing s with
  | nil => rfl
  | cons w vars ih =>
      rw [visitAll, visitAll, List.foldl_cons, List.foldl_cons]
      by_cases hw : w ∈ among
      · obtain ⟨hwf, hext, -⟩ := visit_spec next hw hs hn
        rw [if_pos hw, if_pos hw, hmore w hw s hs hn]
        exact ih hwf (hext.unmet_le.trans_lt hn)
      · rw [if_neg hw, if_neg hw]
        exact ih hs hn

/-- A search never goes deeper than there are variables that it may still meet. -/
theorem visit_more (hv : v ∈ among) (hs : s.Wf among) (hn : s.unmet among < n) (hle : n ≤ m) :
    visit next among m v s = visit next among n v s := by
  induction n generalizing m v s with
  | zero => simp at hn
  | succ n ih =>
      obtain ⟨m, rfl⟩ : ∃ k, m = k + 1 := ⟨m - 1, by omega⟩
      by_cases hmet : v ∈ s.met
      · rw [visit, visit, if_pos hmet, if_pos hmet]
      · have hmeet : ({ s with met := v :: s.met } : Search).Wf among :=
          ⟨hs.nodup, fun x hx => List.mem_cons_of_mem _ (hs.met hx),
            List.cons_subset.2 ⟨hv, hs.among⟩⟩
        rw [visit_succ hmet, visit_succ hmet, visitAll_more (next v)
          (fun w hw s hs hn => ih hw hs hn (Nat.le_of_succ_le_succ hle)) hmeet
          (unmet_meet_lt hv hmet hn)]

/-- The order is the one that a search of any greater depth finds. -/
theorem orderBy_more (next : TypeVar → List TypeVar) (hm : vars.length < m) :
    (vars.foldl (fun s v => visit next vars m v s) {}).order = orderBy next vars := by
  suffices h : ∀ rest ⊆ vars, ∀ s : Search, s.Wf vars →
      rest.foldl (fun s v => visit next vars m v s) s =
        rest.foldl (fun s v => visit next vars (vars.length + 1) v s) s by
    rw [h vars (List.Subset.refl _) {} ⟨List.nodup_nil, by simp, by simp⟩, orderBy]
  intro rest
  induction rest with
  | nil => exact fun _ s _ => rfl
  | cons v rest ih =>
      intro hsub s hs
      obtain ⟨hv, hrest⟩ := List.cons_subset.1 hsub
      have hn : s.unmet vars < vars.length + 1 := Nat.lt_succ_of_le List.countP_le_length
      rw [List.foldl_cons, List.foldl_cons, visit_more hv hs hn hm]
      exact ih hrest _ (visit_spec next hv hs hn).1

/-- Unless variables among the given ones lead to one another in a cycle, each comes after those of
them that it leads to. -/
theorem idxOf_orderBy_lt
    (hacyclic : ∀ u ∈ vars, ¬Relation.TransGen (StepAmong next vars) u u)
    (hv : v ∈ vars) (hw : w ∈ vars) (hstep : w ∈ next v) :
    (orderBy next vars).idxOf w < (orderBy next vars).idxOf v := by
  have hsettled : Settled (fun v => (next v).filter (· ∈ vars)) vars (orderBy next vars) := by
    have heq : orderBy (fun v => (next v).filter (· ∈ vars)) vars = orderBy next vars := by
      simp only [orderBy, visit_filter]
    rw [← heq]
    refine settled_orderBy fun u hu hcycle => hacyclic u hu
      (Relation.TransGen.mono (fun x y hxy => ?_) u u hcycle)
    exact (List.mem_filter.1 hxy).symm.imp_left of_decide_eq_true
  have hmem : v ∈ orderBy next vars := mem_orderBy.2 hv
  obtain ⟨before, after, heq⟩ := List.append_of_mem hmem
  have hbefore : w ∈ before :=
    hsettled before v after heq w (List.mem_filter.2 ⟨hstep, decide_eq_true hw⟩) hw
  have hnot : v ∉ before := by
    have hnodup := nodup_orderBy next vars
    rw [heq] at hnodup
    exact fun hmem => (List.nodup_append.1 hnodup).2.2 v hmem v List.mem_cons_self rfl
  rw [heq, List.idxOf_append_of_mem hbefore, List.idxOf_append_of_notMem hnot,
    List.idxOf_cons_self, Nat.add_zero]
  exact List.idxOf_lt_length_iff.2 hbefore

end TypeVar

namespace CheckState

open Check

/-- None of the variables leads back to itself through kinds of the variables themselves. -/
def AcyclicAmong (s : CheckState) (vars : List TypeVar) : Prop :=
  ∀ v ∈ vars, ¬Relation.TransGen (fun v w => w ∈ vars ∧ w ∈ (s.kind v).freeVars) v v

theorem mem_kindVars_iff {s : CheckState} {v w : TypeVar} :
    w ∈ kindVars s v ↔ w ∈ (s.kind v).freeVars :=
  TypeVar.mem_ascending

/-- Generalizing a type quantifies the variables in an order in which each of them stands once, and
unless their kinds refer to one another in a cycle, each stands after those that its kind mentions.
Whatever the variables are, the search for the order ends by itself before it is as deep as there
are variables. -/
theorem quantifiers_sorted (s : CheckState) :
    (∀ t env o, ∃ events, generalize t env o s =
      (.ok (quantify s (TypeVar.orderBy (kindVars s) (s.quantified env t))
        (s.solver.subst.apply t)), { s with events := events })) ∧
    ∀ vars, (TypeVar.orderBy (kindVars s) vars).Nodup ∧
      (∀ v, v ∈ TypeVar.orderBy (kindVars s) vars ↔ v ∈ vars) ∧
      (s.AcyclicAmong vars → ∀ v ∈ vars, ∀ w ∈ vars, w ∈ (s.kind v).freeVars →
        (TypeVar.orderBy (kindVars s) vars).idxOf w <
          (TypeVar.orderBy (kindVars s) vars).idxOf v) ∧
      ∀ depth > vars.length,
        (vars.foldl (fun found v => TypeVar.visit (kindVars s) vars depth v found) {}).order =
          TypeVar.orderBy (kindVars s) vars := by
  refine ⟨fun t env o => generalize_apply t env o s, fun vars => ⟨TypeVar.nodup_orderBy _ _,
    fun v => TypeVar.mem_orderBy, fun hacyclic v hv w hw hkind => ?_,
    fun depth hdepth => TypeVar.orderBy_more _ hdepth⟩⟩
  refine TypeVar.idxOf_orderBy_lt (fun u hu hcycle => ?_) hv hw (mem_kindVars_iff.2 hkind)
  exact hacyclic u hu
    (Relation.TransGen.mono (fun _ _ h => h.imp_right mem_kindVars_iff.1) u u hcycle)

/-- The kind of the first variable mentions the second one, whose kind mentions the third one. -/
theorem quantifiers_sorted_chain :
    let kinds := (KindEnv.empty.refine 0 (.record [("f", .var 1 .erased)])).refine 1
      (.record [("g", .var 2 .erased)])
    let s : CheckState := { variants := {}, solver := { kinds }, next := 3 }
    s.AcyclicAmong [0, 1, 2] ∧ TypeVar.orderBy (kindVars s) [0, 1, 2] = [2, 1, 0] ∧
      ∀ v ∈ [0, 1, 2], ∀ w ∈ [0, 1, 2], w ∈ (s.kind v).freeVars →
        (TypeVar.orderBy (kindVars s) [0, 1, 2]).idxOf w <
          (TypeVar.orderBy (kindVars s) [0, 1, 2]).idxOf v := by
  intro kinds s
  have hup : ∀ v ∈ [0, 1, 2], ∀ w ∈ (s.kind v).freeVars, v < w := by decide +kernel
  have hacyclic : s.AcyclicAmong [0, 1, 2] := by
    intro v hv hcycle
    have hlt : ∀ w, Relation.TransGen (fun v w => w ∈ [0, 1, 2] ∧ w ∈ (s.kind v).freeVars) v w →
        w ∈ [0, 1, 2] ∧ v < w := by
      intro w hchain
      induction hchain with
      | single hstep => exact ⟨hstep.1, hup v hv _ hstep.2⟩
      | tail _ hstep ih => exact ⟨hstep.1, ih.2.trans (hup _ ih.1 _ hstep.2)⟩
    exact lt_irrefl v (hlt v hcycle).2
  exact ⟨hacyclic, by decide +kernel, ((quantifiers_sorted s).2 [0, 1, 2]).2.2.1 hacyclic⟩

end CheckState

end FieldML
