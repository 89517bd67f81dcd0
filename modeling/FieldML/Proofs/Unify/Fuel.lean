import FieldML.Proofs.Unify.Nodes
import FieldML.Proofs.Unify.Region
import FieldML.Proofs.Unify.Clear
import Mathlib.Tactic.Linarith
import Mathlib.Tactic.Ring

/-!
# Fuel

A nested comparison is about lower types than the one that leads to it, unless a variable has been
bound in between. Variables can be bound only as often as there are any, and while none is bound,
the heights of the nodes bound the depth of the recursion.
-/

namespace FieldML.Unify

open Solver

variable {syn : Prop} {h : TypeVar → Nat} {nodes : List Ty} {s s' s₁ : Solver} {a b t : Ty}
  {v w : TypeVar} {ps : List (Ty × Ty)} {p q : Ty × Ty} {n N M : Nat} {r : Option Reason}

theorem Meet.covers (hm : Meet s a b v t) (hs : s.Proper syn) (hwithin : s.Within nodes)
    (hps : AllSimple syn [(a, b)]) (hcov : AllCovered nodes s [(a, b)]) : s.Covers nodes t := by
  obtain ⟨hsa, hsb⟩ := hps.pair
  obtain ⟨hca, hcb⟩ : s.Covers nodes a ∧ s.Covers nodes b := hcov _ List.mem_cons_self
  obtain ⟨r, ⟨-, rfl⟩ | ⟨-, rfl⟩⟩ := hm
  · exact hcb.head hs hwithin hsb
  · exact hca.head hs hwithin hsa

/-- Comparing covered types keeps all types covered. -/
theorem Runs.within (hrun : Runs n s ps r s') (hs : s.Proper syn) (hps : AllSimple syn ps)
    (hacyc : PassesAcyclic n s ps r s') (hend : s'.Acyclic) (hr : r = none)
    (hnodes : ∀ m ∈ nodes, m.Simple syn) (hwithin : s.Within nodes)
    (hcov : AllCovered nodes s ps) : s'.Within nodes := by
  induction hrun with
  | nil => exact hwithin
  | tooDeep | stop | occurs | joinOccurs | joinStop => simp at hr
  | same => exact ⟨hwithin.binding, hwithin.kind⟩
  | cons hrun₁ hrun₂ ih₁ ih₂ =>
      have hrest : PassesAcyclic _ _ _ _ _ := fun x a b hp => hacyc x a b (.rest hrun₁ hp)
      have hfirst : PassesAcyclic _ _ _ _ _ := fun x a b hp => hacyc x a b (.first hp hrun₂)
      have hmiddle := hrun₂.acyclic_middle hrest hend
      have hset := hrun₁.concludes_of_acyclic hs hps.head hfirst hmiddle rfl
      exact ih₂ hset.proper hps.tail hrest hend hr
        (ih₁ hs hps.head hfirst hmiddle rfl hwithin hcov.head)
        (hcov.tail.extend hs hset.proper hset.extended hnodes hps.tail)
  | @rigid n s a b r s₁ hra hrb hrun ih =>
      obtain ⟨hsa, hsb⟩ := hps.pair
      obtain ⟨hca, hcb⟩ : s.Covers nodes a ∧ s.Covers nodes b := hcov _ List.mem_cons_self
      obtain ⟨rfl, -⟩ := Option.or_eq_none_iff.1 hr
      exact ih hs.log (parts_simple (hs.simple.head hsa) (hs.simple.head hsb))
        (fun x a b hp => hacyc x a b (.rigid hra hrb hp)) hend rfl ⟨hwithin.binding, hwithin.kind⟩
        (parts_covered (hca.head hs hwithin hsa) (hcb.head hs hwithin hsb))
  | @bind n s a b v t r s₁ hm ht hvt hrun ih =>
      obtain ⟨hsa, hsb⟩ := hps.pair
      obtain ⟨rfl, -⟩ := Option.or_eq_none_iff.1 hr
      have hs₀ := Meet.proper_assign (s := s.log (s.head a) (s.head b)) hm hs.log hps hvt
      have hst := hm.simple hs.simple hsa hsb
      have hext : s.subst.ExtendedBy (s.subst.bind v t) :=
        Substitution.extendedBy_bind (hm.free hs hsa hsb).1
      have hcov := hm.covers hs hwithin hps hcov
      have hwithin' : ((s.log (s.head a) (s.head b)).assign v t).Within nodes :=
        Within.assign ⟨hwithin.binding, hwithin.kind⟩ hs.log hs₀ (hm.free hs hsa hsb).1
          hnodes hst hcov
      have hcov' := hcov.extend hs hs₀ hext hnodes hst
      exact ih hs₀ (kindPairs_simple (hs.kind v) (hs₀.triangular.simple.apply hst))
        (fun x a b hp => hacyc x a b (.bind hm ht hvt hp)) hend rfl hwithin'
        (kindPairs_covered (hwithin'.kind v) (hcov'.apply hs₀ hwithin' hst))
  | @join n s a b v w r r' s₁ ha hb hvw hrun hw ih =>
      obtain ⟨hsa, hsb⟩ := hps.pair
      obtain ⟨hca, hcb⟩ : s.Covers nodes a ∧ s.Covers nodes b := hcov _ List.mem_cons_self
      have hshared := sharedPairs_simple (hs.kind v) (hs.kind w)
      have hnested : PassesAcyclic _ _ _ _ _ := fun x a b hp => hacyc x a b (.join ha hb hvw hp hw)
      have hmiddle : s₁.Acyclic := hacyc _ _ _ (.joined ha hb hvw hrun hw)
      have hset := hrun.concludes_of_acyclic hs.log hshared hnested hmiddle rfl
      obtain ⟨⟨hv₁, -⟩, hw₁, -⟩ := hset.apart_shared (s := s.log (s.head a) (s.head b))
        (hs.find?_of_head_eq hsa ha) (hs.find?_of_head_eq hsb hb)
      have hs₂ : (s₁.assign v (.var w r')).Proper syn := proper_assign_var hset.proper hw₁ hvw
      have hext : s.subst.ExtendedBy (s₁.assign v (.var w r')).subst :=
        hset.extended.trans (Substitution.extendedBy_bind hv₁)
      have hwithin₁ := ih hs.log hshared hnested hmiddle rfl ⟨hwithin.binding, hwithin.kind⟩
        (sharedPairs_covered (hwithin.kind v) (hwithin.kind w))
      have hcw := (hcb.head hs hwithin hsb).extend hs hset.proper hset.extended hnodes
        (hs.simple.head hsb)
      apply (hwithin₁.assign hset.proper hs₂ hv₁ hnodes (.var w r') (hb ▸ hcw)).strengthen
      intro p hp
      rcases mem_fields_mergedKind hp with hp | hp
      · exact (hwithin.kind v p hp).extend hs hs₂ hext hnodes ((hs.kind v).2 p hp)
      · exact (hwithin.kind w p hp).extend hs hs₂ hext hnodes ((hs.kind w).2 p hp)

/-- The number of nodes that are free variables. -/
def freeNodes (nodes : List Ty) (s : Solver) : Nat :=
  nodes.countP fun m => match m with
    | .var v _ => (s.subst.find? v).isNone
    | _ => false

/-- The number of nodes that are lower than `N`, as far as is known. -/
def nodesBelow (h : TypeVar → Nat) (nodes : List Ty) (s : Solver) (N : Nat) : Nat :=
  nodes.countP fun m => (s.subst.apply m).height h < N

/-- The height of two types, as far as is known. -/
def top (h : TypeVar → Nat) (s : Solver) (p : Ty × Ty) : Nat :=
  max ((s.subst.apply p.1).height h) ((s.subst.apply p.2).height h)

/-- More than the number of nested steps that comparing two types can lead to. -/
def need (h : TypeVar → Nat) (nodes : List Ty) (s : Solver) (p : Ty × Ty) : Nat :=
  freeNodes nodes s * (nodes.length + 1) + nodesBelow h nodes s (top h s p)

theorem freeNodes_lt {r : Range} (hext : s.subst.ExtendedBy s'.subst) (hv : s.subst.find? v = none)
    (hv' : s'.subst.find? v ≠ none) (hmem : Ty.var v r ∈ nodes) :
    freeNodes nodes s' < freeNodes nodes s := by
  refine countP_lt_countP (fun m _ hm => ?_) hmem
    (by simpa [Option.isSome_iff_ne_none] using hv') (by simpa using hv)
  cases m with
  | var v r => simpa using hext.none (by simpa using hm)
  | _ => exact hm

theorem nodesBelow_lt {m : Ty} (hm : m ∈ nodes) (hge : N ≤ (s.subst.apply m).height h)
    (hlt : (s.subst.apply m).height h < M) : nodesBelow h nodes s N < nodesBelow h nodes s M := by
  refine countP_lt_countP (fun x _ hx => ?_) hm (by simpa using hge) (by simpa using hlt)
  simp only [decide_eq_true_eq] at hx ⊢
  omega

/-- Once a variable is bound, less fuel is needed for whatever comes next. -/
theorem need_lt_of_freeNodes_lt (h h' : TypeVar → Nat)
    (hfree : freeNodes nodes s' < freeNodes nodes s) :
    need h' nodes s' q < need h nodes s p := by
  have hbelow : nodesBelow h' nodes s' (top h' s' q) ≤ nodes.length := List.countP_le_length
  have hmul := Nat.mul_le_mul_right (nodes.length + 1) (Nat.succ_le_of_lt hfree)
  rw [Nat.succ_mul] at hmul
  unfold need
  omega

theorem height_apply_lt_of_mem_items {u : Ty} (hs : s.Proper syn) (ht : t.Simple syn)
    (hrt : IsRigid (s.head t)) (hu : u ∈ (s.head t).items) (h : TypeVar → Nat) :
    (s.subst.apply u).height h < (s.subst.apply t).height h := by
  rw [← hs.height_bare ht, ← hs.height_bare ((hs.simple.head ht).of_mem_items hu)]
  exact Ty.height_lt_of_mem_items (hs.mem_items_of_head ht hrt hu)

/-- While no variable is bound, lower types need less fuel. -/
theorem need_lt_of_top_lt (hsub : s'.subst = s.subst) (hq : AllCovered nodes s [q])
    (htop : top h s q < top h s p) : need h nodes s' q < need h nodes s p := by
  obtain ⟨hq₁, hq₂⟩ := hq q List.mem_cons_self
  have hbelow : nodesBelow h nodes s (top h s q) < nodesBelow h nodes s (top h s p) := by
    rcases Nat.le_total ((s.subst.apply q.1).height h) ((s.subst.apply q.2).height h) with hle | hle
    · obtain ⟨m, hm, heq⟩ := hq₂ q.2 q.2.self_mem_nodes
      exact nodesBelow_lt hm (by rw [heq, top, Nat.max_eq_right hle])
        (by rw [heq]; exact (Nat.le_max_right _ _).trans_lt htop)
    · obtain ⟨m, hm, heq⟩ := hq₁ q.1 q.1.self_mem_nodes
      exact nodesBelow_lt hm (by rw [heq, top, Nat.max_eq_left hle])
        (by rw [heq]; exact (Nat.le_max_left _ _).trans_lt htop)
  have hneed : need h nodes s' q = need h nodes s q := by
    obtain ⟨_, _, _⟩ := s'
    obtain rfl : _ = s.subst := hsub
    rfl
  rw [hneed]
  unfold need
  omega

theorem apply_eq_of_find?_eq (hs : s.Proper syn) (hs' : s'.Proper syn)
    (hall : ∀ v, s'.subst.find? v = s.subst.find? v) (ht : t.Simple syn) :
    s'.subst.apply t = s.subst.apply t := by
  have hext : s.subst.ExtendedBy s'.subst := fun v u hv => (hall v).trans hv
  rw [← hs.triangular.apply_apply hs'.triangular hext ht]
  apply (hs.triangular.simple.apply ht).mapVars_eq_self
  intro v hv r
  rw [Substitution.follow_of_none]
  rw [hall]
  exact hs.triangular.find?_of_mem_freeVars_apply ht hv

/-- While no variable is bound, a later state needs as much for two types as an earlier one. -/
theorem need_eq_of_find?_eq (hs : s.Proper syn) (hs' : s'.Proper syn)
    (hall : ∀ v, s'.subst.find? v = s.subst.find? v) (hnodes : ∀ m ∈ nodes, m.Simple syn)
    (hp : p.1.Simple syn ∧ p.2.Simple syn) : need h nodes s' p = need h nodes s p := by
  have htop : top h s' p = top h s p := by
    rw [top, top, apply_eq_of_find?_eq hs hs' hall hp.1, apply_eq_of_find?_eq hs hs' hall hp.2]
  have hbelow : nodesBelow h nodes s' (top h s' p) = nodesBelow h nodes s (top h s p) := by
    rw [htop]
    apply List.countP_congr
    intro m hm
    rw [apply_eq_of_find?_eq hs hs' hall (hnodes m hm)]
  have hfree : freeNodes nodes s' = freeNodes nodes s := by
    apply List.countP_congr
    intro m _
    cases m <;> simp [hall]
  rw [need, need, hbelow, hfree]

/-- A run inside the region of the nodes binds nothing, or it binds a node. -/
theorem find?_eq_or_freeNodes_lt (hext : s.subst.ExtendedBy s'.subst)
    (hsame : SameOutside (fun v => ∃ r, Ty.var v r ∈ nodes) s s') :
    (∀ v, s'.subst.find? v = s.subst.find? v) ∨ freeNodes nodes s' < freeNodes nodes s := by
  by_cases hall : ∀ v, s'.subst.find? v = s.subst.find? v
  · exact Or.inl hall
  · obtain ⟨v, hv⟩ := not_forall.1 hall
    have hnone : s.subst.find? v = none := by
      cases hfind : s.subst.find? v with
      | none => rfl
      | some t => exact absurd (by rw [hext v t hfind, hfind]) hv
    obtain ⟨r, hmem⟩ : ∃ r, Ty.var v r ∈ nodes := by
      by_contra hnot
      exact hv (hsame v hnot).1
    exact Or.inr (freeNodes_lt hext hnone (hnone ▸ hv) hmem)

/-- After a run that does not fail no more fuel is needed than before, whatever the heights. -/
theorem Concludes.need_lt {qs : List (Ty × Ty)} (hset : Concludes syn s s' qs) (hs : s.Proper syn)
    (hacyc : s.Acyclic) (hsame : SameOutside (fun v => ∃ r, Ty.var v r ∈ nodes) s s')
    (hnodes : ∀ m ∈ nodes, m.Simple syn) (hp : p.1.Simple syn ∧ p.2.Simple syn)
    (hneed : ∀ h, s.Graded h → need h nodes s p < n) (hg : s'.Graded h) :
    need h nodes s' p < n := by
  rcases find?_eq_or_freeNodes_lt hset.extended hsame with hall | hfree
  · rw [need_eq_of_find?_eq hs hset.proper hall hnodes hp]
    apply hneed
    intro v q hq
    have hbare : s.subst.bare q.2 = s'.subst.bare q.2 := by
      rw [Substitution.bare, Substitution.bare,
        apply_eq_of_find?_eq hs hset.proper hall ((hs.kind v).2 q hq)]
    rw [hbare]
    exact hg v q (by rwa [hset.unchanged hall])
  · obtain ⟨h', hg'⟩ := hacyc.exists_graded hs
    exact (need_lt_of_freeNodes_lt h' h hfree).trans (hneed h' hg')

theorem componentPairs_ne_outOfFuel (ts us : List Ty) :
    (componentPairs ts us).2 ≠ some .outOfFuel := by
  unfold componentPairs
  split <;> simp

theorem recordPairs_ne_outOfFuel (fs gs : List (String × Ty)) :
    (recordPairs fs gs).2 ≠ some .outOfFuel := by
  unfold recordPairs
  split <;> simp

theorem parts_ne_outOfFuel (t u : Ty) : (parts t u).2 ≠ some .outOfFuel := by
  unfold parts
  split
  case h_1 => split <;> simp
  case h_5 => exact componentPairs_ne_outOfFuel _ _
  case h_6 =>
    split
    · exact componentPairs_ne_outOfFuel _ _
    · simp
  case h_7 => exact recordPairs_ne_outOfFuel _ _
  all_goals simp

theorem kindPairs_ne_outOfFuel (k : Kind) (t : Ty) : (kindPairs k t).2 ≠ some .outOfFuel := by
  unfold kindPairs
  split <;> simp

theorem or_ne_outOfFuel {e : Option Reason} (hr : r ≠ some .outOfFuel) (he : e ≠ some .outOfFuel) :
    r.or e ≠ some .outOfFuel := by
  cases r with
  | none => exact he
  | some _ => exact hr

/-- A run that is given as much fuel as its comparisons need does not run out of it, if no kind leads
back to its variable on the way. -/
theorem Runs.ne_outOfFuel (hrun : Runs n s ps r s') (hs : s.Proper syn) (hps : AllSimple syn ps)
    (hacyc : PassesAcyclic n s ps r s') (hnodes : ∀ m ∈ nodes, m.Simple syn)
    (hwithin : s.Within nodes) (hcov : AllCovered nodes s ps)
    (hclosed : s.Closed fun v => ∃ r, Ty.var v r ∈ nodes)
    (hin : AllInside (fun v => ∃ r, Ty.var v r ∈ nodes) ps)
    (hneed : ∀ h, s.Graded h → ∀ p ∈ ps, need h nodes s p < n) : r ≠ some .outOfFuel := by
  induction hrun with
  | nil | same | occurs | join | joinOccurs => simp
  | tooDeep s a b =>
      obtain ⟨h, hg⟩ := Acyclic.exists_graded (hacyc _ _ _ (.here (.tooDeep s a b))) hs
      exact absurd (hneed h hg _ List.mem_cons_self) (Nat.not_lt_zero _)
  | @cons n s s₁ s₂ p ps r hrun₁ hrun₂ ih₁ ih₂ =>
      cases ps with
      | nil =>
          cases hrun₂
          simp
      | cons q ps =>
          have hrest : PassesAcyclic _ _ _ _ _ := fun x a b hp => hacyc x a b (.rest hrun₁ hp)
          have hfirst : PassesAcyclic _ _ _ _ _ := fun x a b hp => hacyc x a b (.first hp hrun₂)
          have hmiddle := hrun₂.acyclic_start hrest (List.cons_ne_nil q ps)
          have hset := hrun₁.concludes_of_acyclic hs hps.head hfirst hmiddle rfl
          obtain ⟨hclosed₁, hsame⟩ := hrun₁.region hs.simple hps.head hclosed hin.head
          have hstart : s.Acyclic := hrun₁.acyclic_start hfirst (List.cons_ne_nil p [])
          exact ih₂ hset.proper hps.tail hrest
            (hrun₁.within hs hps.head hfirst hmiddle rfl hnodes hwithin hcov.head)
            (hcov.tail.extend hs hset.proper hset.extended hnodes hps.tail) hclosed₁ hin.tail
            fun h hg q hq => hset.need_lt hs hstart hsame hnodes (hps.tail q hq)
              (fun h hg => hneed h hg q (List.mem_cons_of_mem _ hq)) hg
  | stop _ ih =>
      exact ih hs hps.head (fun x a b hp => hacyc x a b (.stop hp)) hwithin hcov.head hclosed
        hin.head fun h hg q hq => hneed h hg q (by simpa using Or.inl hq)
  | @rigid n s a b r s₁ hra hrb hrun ih =>
      obtain ⟨hsa, hsb⟩ := hps.pair
      obtain ⟨hca, hcb⟩ : s.Covers nodes a ∧ s.Covers nodes b := hcov _ List.mem_cons_self
      obtain ⟨hia, hib⟩ := hin _ List.mem_cons_self
      have hparts := parts_simple (hs.simple.head hsa) (hs.simple.head hsb)
      have hcovered := parts_covered (hca.head hs hwithin hsa) (hcb.head hs hwithin hsb)
      refine or_ne_outOfFuel (ih hs.log hparts
        (fun x a b hp => hacyc x a b (.rigid hra hrb hp)) ⟨hwithin.binding, hwithin.kind⟩ hcovered
        hclosed.log (parts_inside (hclosed.head hs.simple hsa hia) (hclosed.head hs.simple hsb hib))
        fun h hg q hq => ?_) (parts_ne_outOfFuel _ _)
      have htop : top h s q < top h s (a, b) := by
        obtain ⟨hqa, hqb⟩ := mem_items_of_mem_parts hq
        have h₁ := height_apply_lt_of_mem_items hs hsa hra hqa h
        have h₂ := height_apply_lt_of_mem_items hs hsb hrb hqb h
        simp only [top]
        omega
      have hlt : need h nodes (s.log (s.head a) (s.head b)) q < need h nodes s (a, b) :=
        need_lt_of_top_lt rfl (fun q' hq' => List.mem_singleton.1 hq' ▸ hcovered q hq) htop
      exact hlt.trans_le (Nat.le_of_lt_succ (hneed h hg _ List.mem_cons_self))
  | @bind n s a b v t r s₁ hm ht hvt hrun ih =>
      obtain ⟨hsa, hsb⟩ := hps.pair
      obtain ⟨hia, hib⟩ := hin _ List.mem_cons_self
      have hs₀ := Meet.proper_assign (s := s.log (s.head a) (s.head b)) hm hs.log hps hvt
      have hst := hm.simple hs.simple hsa hsb
      have hext : s.subst.ExtendedBy (s.subst.bind v t) :=
        Substitution.extendedBy_bind (hm.free hs hsa hsb).1
      have hcov := hm.covers hs hwithin hps hcov
      have hwithin' : ((s.log (s.head a) (s.head b)).assign v t).Within nodes :=
        Within.assign ⟨hwithin.binding, hwithin.kind⟩ hs.log hs₀ (hm.free hs hsa hsb).1
          hnodes hst hcov
      have hcov' := hcov.extend hs hs₀ hext hnodes hst
      obtain ⟨⟨r', hmem⟩, hit⟩ := hm.inside (hclosed.head hs.simple hsa hia)
        (hclosed.head hs.simple hsb hib)
      have hclosed' := (hclosed.log (t := s.head a) (u := s.head b)).assign (v := v) hit
      have hsapply := hs₀.triangular.simple.apply hst
      refine or_ne_outOfFuel (ih hs₀ (kindPairs_simple (hs.kind v) hsapply)
        (fun x a b hp => hacyc x a b (.bind hm ht hvt hp)) hwithin'
        (kindPairs_covered (hwithin'.kind v) (hcov'.apply hs₀ hwithin' hst))
        hclosed' (kindPairs_inside (hclosed.kind v ⟨r', hmem⟩)
          (hclosed'.apply hs₀.triangular.simple hst hit)) fun h _ q hq => ?_)
        (kindPairs_ne_outOfFuel _ _)
      obtain ⟨h', hg'⟩ := Acyclic.exists_graded (hacyc s a b (.here (.bind hm ht hvt hrun))) hs
      have hbound : ((s.log (s.head a) (s.head b)).assign v t).subst.find? v ≠ none := by
        simp [Substitution.find?_bind]
      have hlt := need_lt_of_freeNodes_lt h' h (p := (a, b)) (q := q)
        (freeNodes_lt hext (hm.free hs hsa hsb).1 hbound hmem)
      exact hlt.trans_le (Nat.le_of_lt_succ (hneed h' hg' _ List.mem_cons_self))
  | @joinStop n s a b v w r r' e s₁ ha hb hvw hrun ih =>
      obtain ⟨hsa, hsb⟩ := hps.pair
      obtain ⟨hia, hib⟩ := hin _ List.mem_cons_self
      have hv := hclosed.head hs.simple hsa hia v (by simp [ha])
      have hw := hclosed.head hs.simple hsb hib w (by simp [hb])
      have hshared := sharedPairs_simple (hs.kind v) (hs.kind w)
      have hcovered := sharedPairs_covered (hwithin.kind v) (hwithin.kind w)
      refine ih hs.log hshared (fun x a b hp => hacyc x a b (.joinStop ha hb hvw hp))
        ⟨hwithin.binding, hwithin.kind⟩ hcovered hclosed.log
        (sharedPairs_inside (hclosed.kind v hv) (hclosed.kind w hw)) fun h hg q hq => ?_
      have htop : top h s q < top h s (a, b) := by
        obtain ⟨m, hget, hmem⟩ := mem_sharedPairs hq
        have h₁ := hg v _ (Fields.mem_of_get? hget)
        have h₂ := hg w _ hmem
        have hheada : (s.subst.apply a).height h = h v := by
          rw [← Ty.height_expand, ← head, ha, Ty.height]
        have hheadb : (s.subst.apply b).height h = h w := by
          rw [← Ty.height_expand, ← head, hb, Ty.height]
        rw [hs.log.height_bare (hshared q hq).1] at h₁
        rw [hs.log.height_bare (hshared q hq).2] at h₂
        simp only [top, subst_log] at h₁ h₂ ⊢
        omega
      have hlt : need h nodes (s.log (s.head a) (s.head b)) q < need h nodes s (a, b) :=
        need_lt_of_top_lt rfl (fun q' hq' => List.mem_singleton.1 hq' ▸ hcovered q hq) htop
      exact hlt.trans_le (Nat.le_of_lt_succ (hneed h hg _ List.mem_cons_self))

end FieldML.Unify

/-! ## Comparisons end

The fuel of a comparison covers what its nodes need. So a comparison ends by itself wherever the
variables can be ranked. -/

namespace FieldML

namespace Solver

variable {syn : Prop} {s : Solver} {a b t : Ty} {v : TypeVar}

/-- The nodes of all types that a comparison starts with. -/
def nodesWith (s : Solver) (a b : Ty) : List Ty :=
  a.nodes ++ b.nodes ++ s.subst.bindings.toList.flatMap (fun p => p.2.nodes) ++
    s.kinds.kinds.toList.flatMap (fun p => Ty.nodesFields p.2.fields)

theorem nodes_subset_of_find? (h : s.subst.find? v = some t) :
    t.nodes ⊆ s.nodesWith a b := by
  intro x hx
  have hmem : (v, t) ∈ s.subst.bindings.toList :=
    Std.TreeMap.mem_toList_iff_getElem?_eq_some.2 h
  simp only [nodesWith, List.mem_append, List.mem_flatMap]
  exact Or.inl (Or.inr ⟨_, hmem, hx⟩)

theorem nodes_subset_of_mem_kind {p : String × Ty} (hp : p ∈ (s.kindOf v).fields) :
    p.2.nodes ⊆ s.nodesWith a b := by
  intro x hx
  have hget : s.kindOf v = (s.kinds.kinds[v]?).getD .universal := by
    rw [kindOf, KindEnv.kindOf, Std.TreeMap.getD_eq_getD_getElem?]
  cases hk : s.kinds.kinds[v]? with
  | none => simp [hget, hk, Kind.fields] at hp
  | some k =>
      have hmem : (v, k) ∈ s.kinds.kinds.toList :=
        Std.TreeMap.mem_toList_iff_getElem?_eq_some.2 hk
      rw [hget, hk] at hp
      simp only [nodesWith, List.mem_append, List.mem_flatMap]
      exact Or.inr ⟨_, hmem, Ty.mem_nodesFields.2 ⟨p, hp, hx⟩⟩

theorem mem_nodesWith {x : Ty} (hx : x ∈ s.nodesWith a b) :
    x ∈ a.nodes ∨ x ∈ b.nodes ∨ (∃ v t, s.subst.find? v = some t ∧ x ∈ t.nodes) ∨
      ∃ v, ∃ p ∈ (s.kindOf v).fields, x ∈ p.2.nodes := by
  simp only [nodesWith, List.mem_append, List.mem_flatMap] at hx
  rcases hx with ((hx | hx) | ⟨⟨v, t⟩, hmem, hx⟩) | ⟨⟨v, k⟩, hmem, hx⟩
  · exact Or.inl hx
  · exact Or.inr (Or.inl hx)
  · exact Or.inr (Or.inr (Or.inl
      ⟨v, t, Std.TreeMap.mem_toList_iff_getElem?_eq_some.1 hmem, hx⟩))
  · obtain ⟨p, hp, hx⟩ := Ty.mem_nodesFields.1 hx
    refine Or.inr (Or.inr (Or.inr ⟨v, p, ?_, hx⟩))
    have hk : s.kinds.kinds[v]? = some k := Std.TreeMap.mem_toList_iff_getElem?_eq_some.1 hmem
    rw [kindOf, KindEnv.kindOf, Std.TreeMap.getD_eq_getD_getElem?, hk]
    exact hp

theorem length_flatMap_le_foldl {α : Type} (l : List α) (f : α → List Ty) (size : α → Nat)
    (hsize : ∀ x ∈ l, (f x).length ≤ size x) (init : Nat) :
    (l.flatMap f).length + init ≤ l.foldl (fun n x => n + size x + 1) init := by
  induction l generalizing init with
  | nil => simp
  | cons x l ih =>
      have hx := hsize x List.mem_cons_self
      have := ih (fun y hy => hsize y (List.mem_cons_of_mem _ hy)) (init + size x + 1)
      simp only [List.flatMap_cons, List.length_append, List.foldl_cons]
      omega

theorem length_nodesWith_le (s : Solver) (a b : Ty) :
    (s.nodesWith a b).length ≤ s.subst.weight + s.kinds.weight + (a.size + b.size) := by
  have hsubst : (s.subst.bindings.toList.flatMap fun p => p.2.nodes).length ≤ s.subst.weight := by
    rw [Substitution.weight, Std.TreeMap.foldl_eq_foldl_toList]
    exact length_flatMap_le_foldl _ _ (fun p : TypeVar × Ty => p.2.size)
      (fun p _ => p.2.length_nodes_le) 0
  have hkinds : (s.kinds.kinds.toList.flatMap fun p => Ty.nodesFields p.2.fields).length ≤
      s.kinds.weight := by
    rw [KindEnv.weight, Std.TreeMap.foldl_eq_foldl_toList]
    refine length_flatMap_le_foldl _ _ (fun p : TypeVar × Kind => p.2.size) (fun p _ => ?_) 0
    cases hk : p.2 with
    | universal => simp [Kind.fields, Ty.nodesFields]
    | record fs => exact Nat.le_succ_of_le (Ty.length_nodesFields_le fs)
  have := a.length_nodes_le
  have := b.length_nodes_le
  simp only [nodesWith, List.length_append]
  omega

theorem within_nodesWith (s : Solver) (a b : Ty) : s.Within (s.nodesWith a b) where
  binding _ _ hv := fun x hx => ⟨x, nodes_subset_of_find? hv hx, rfl⟩
  kind _ _ hp := fun x hx => ⟨x, nodes_subset_of_mem_kind hp hx, rfl⟩

theorem Proper.simple_of_mem_nodesWith (hs : s.Proper syn) (ha : a.Simple syn) (hb : b.Simple syn)
    {x : Ty} (hx : x ∈ s.nodesWith a b) : x.Simple syn := by
  rcases mem_nodesWith hx with hx | hx | ⟨v, t, hv, hx⟩ | ⟨v, p, hp, hx⟩
  · exact ha.of_mem_nodes hx
  · exact hb.of_mem_nodes hx
  · exact (hs.triangular.simple v t hv).of_mem_nodes hx
  · exact ((hs.kind v).2 p hp).of_mem_nodes hx

theorem inside_of_nodes_subset {nodes : List Ty} (ht : t.Simple syn) (hsub : t.nodes ⊆ nodes) :
    t.Inside fun v => ∃ r, Ty.var v r ∈ nodes := by
  intro v hv
  obtain ⟨r, hr⟩ := ht.exists_var_mem_nodes hv
  exact ⟨r, hsub hr⟩

theorem Proper.closed_nodesWith (hs : s.Proper syn) (a b : Ty) :
    s.Closed fun v => ∃ r, Ty.var v r ∈ s.nodesWith a b where
  binding v t _ ht :=
    inside_of_nodes_subset (hs.triangular.simple v t ht) (nodes_subset_of_find? ht)
  kind v _ p hp := inside_of_nodes_subset ((hs.kind v).2 p hp) (nodes_subset_of_mem_kind hp)

end Solver

namespace Unify

open Solver

variable {syn : Prop} {h : TypeVar → Nat} {s s' : Solver} {a b : Ty} {ps : List (Ty × Ty)}
  {r : Option Reason}

theorem need_lt_fuel (h : TypeVar → Nat) (s : Solver) (a b : Ty) (p : Ty × Ty) :
    need h (s.nodesWith a b) s p < s.fuel (a.size + b.size) := by
  have hlength := length_nodesWith_le s a b
  have hfree : freeNodes (s.nodesWith a b) s ≤ (s.nodesWith a b).length := List.countP_le_length
  have hbelow : nodesBelow h (s.nodesWith a b) s (top h s p) ≤ (s.nodesWith a b).length :=
    List.countP_le_length
  unfold need Solver.fuel
  generalize s.subst.weight + s.kinds.weight + (a.size + b.size) = W at *
  have hmul : freeNodes (s.nodesWith a b) s * ((s.nodesWith a b).length + 1) ≤ W * (W + 1) :=
    Nat.mul_le_mul (hfree.trans hlength) (Nat.succ_le_succ hlength)
  have hsquare : W * (W + 1) + W < (W + 2) * (W + 2) := by nlinarith
  have hpow : 1 ≤ Nat.pow 4 (W + 2) := Nat.one_le_pow _ _ (by norm_num)
  calc
    _ ≤ W * (W + 1) + W := by omega
    _ < (W + 2) * (W + 2) := hsquare
    _ ≤ (W + 2) * (W + 2) * Nat.pow 4 (W + 2) := Nat.le_mul_of_pos_right _ hpow

/-- The first types of the pairs stand in `a`, the second ones in `b`. -/
def AllInParts (a b : Ty) (ps : List (Ty × Ty)) : Prop :=
  ∀ p ∈ ps, p.1.nodes ⊆ a.nodes ∧ p.2.nodes ⊆ b.nodes

theorem allInParts_single (a b : Ty) : AllInParts a b [(a, b)] :=
  List.forall_mem_singleton.2 ⟨List.Subset.refl _, List.Subset.refl _⟩

theorem AllInParts.simple (hps : AllInParts a b ps) (ha : a.Simple syn) (hb : b.Simple syn) :
    AllSimple syn ps := fun p hp =>
  ⟨ha.of_mem_nodes ((hps p hp).1 p.1.self_mem_nodes),
    hb.of_mem_nodes ((hps p hp).2 p.2.self_mem_nodes)⟩

/-- Comparing parts of two types does not run out of fuel if no kind leads back to its variable on the
way. -/
theorem Runs.ne_outOfFuel_inParts (hrun : Runs (s.fuel (a.size + b.size)) s ps r s')
    (hps : AllInParts a b ps) (hs : s.Proper syn) (ha : a.Simple syn) (hb : b.Simple syn)
    (hacyc : PassesAcyclic (s.fuel (a.size + b.size)) s ps r s') : r ≠ some .outOfFuel := by
  have hsimple := hps.simple ha hb
  have hsub : ∀ p ∈ ps, p.1.nodes ⊆ s.nodesWith a b ∧ p.2.nodes ⊆ s.nodesWith a b := fun p hp =>
    ⟨fun x hx => by simp [nodesWith, (hps p hp).1 hx],
      fun x hx => by simp [nodesWith, (hps p hp).2 hx]⟩
  have hnodes : ∀ m ∈ s.nodesWith a b, m.Simple syn := fun m hm =>
    hs.simple_of_mem_nodesWith ha hb hm
  refine hrun.ne_outOfFuel hs hsimple hacyc hnodes (within_nodesWith s a b) ?_
    (hs.closed_nodesWith a b) ?_ fun h _ p _ => need_lt_fuel h s a b p
  · intro p hp
    exact ⟨fun x hx => ⟨x, (hsub p hp).1 hx, rfl⟩, fun x hx => ⟨x, (hsub p hp).2 hx, rfl⟩⟩
  · intro p hp
    exact ⟨inside_of_nodes_subset (hsimple p hp).1 (hsub p hp).1,
      inside_of_nodes_subset (hsimple p hp).2 (hsub p hp).2⟩

/-- A comparison does not run out of fuel if no kind leads back to its variable on the way. -/
theorem Runs.ne_outOfFuel_of_acyclic (hrun : Runs (s.fuel (a.size + b.size)) s [(a, b)] r s')
    (hs : s.Proper syn) (ha : a.Simple syn) (hb : b.Simple syn)
    (hacyc : PassesAcyclic (s.fuel (a.size + b.size)) s [(a, b)] r s') : r ≠ some .outOfFuel :=
  hrun.ne_outOfFuel_inParts (allInParts_single a b) hs ha hb hacyc

/-- Where the variables can be ranked, a comparison does not run out of fuel. -/
theorem Runs.ne_outOfFuel_of_ranked (hrun : Runs (s.fuel (a.size + b.size)) s [(a, b)] r s')
    (hs : s.Proper syn) (ha : a.Simple syn) (hb : b.Simple syn) (hrank : s.Ranked h)
    (heven : AllEven h s'.compared) : r ≠ some .outOfFuel :=
  hrun.ne_outOfFuel_of_acyclic hs ha hb
    (passesAcyclic_of_even hs ((allInParts_single a b).simple ha hb) hrank heven)

end Unify

end FieldML
