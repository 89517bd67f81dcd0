import FieldML.Check.Generalize
import FieldML.Proofs.Substitution
import Mathlib.Data.List.Dedup
import Mathlib.Data.List.Perm.Subperm
import Mathlib.Logic.Relation

/-!
# Variables that lead to others

The variables that are reached from some variables are all those to which a chain of steps leads. A
search in depth leaves every variable once, and unless a variable leads back to itself, after all
those that it leads to.
-/

namespace FieldML.TypeVar

variable {next : TypeVar → List TypeVar} {among vars closed pending : List TypeVar} {v w : TypeVar}
  {n N : Nat}

@[simp] theorem mem_ascending : v ∈ ascending vars ↔ v ∈ vars := by
  simp [ascending]

/-- The second variable is one of those that the first one leads to. -/
def Step (next : TypeVar → List TypeVar) (v w : TypeVar) : Prop := w ∈ next v

section Reach

theorem reach_nil (n : Nat) : reach next n closed [] = closed := by
  cases n <;> simp [reach]

theorem reach_cons_of_mem (n : Nat) (hv : v ∈ closed) :
    reach next n closed (v :: pending) = reach next n closed pending := by
  rw [reach.eq_def]
  simp only [hv, if_true]

/-- Only variables are reached to which a chain of steps leads. -/
theorem exists_of_mem_reach (hv : v ∈ reach next n closed pending) :
    v ∈ closed ∨ ∃ u ∈ pending, Relation.ReflTransGen (Step next) u v := by
  induction n, closed, pending using reach.induct next with
  | case1 n closed => exact Or.inl (by rwa [reach_nil] at hv)
  | case2 n closed u pending hu ih =>
      rw [reach_cons_of_mem n hu] at hv
      exact (ih hv).imp_right fun ⟨x, hx, hchain⟩ => ⟨x, List.mem_cons_of_mem _ hx, hchain⟩
  | case3 closed u pending hu => exact Or.inl (by simpa [reach, hu] using hv)
  | case4 closed u pending hu n ih =>
      rw [reach, if_neg hu] at hv
      rcases ih hv with hmem | ⟨x, hx, hchain⟩
      · rcases List.mem_cons.1 hmem with rfl | hmem
        · exact Or.inr ⟨v, List.mem_cons_self, .refl⟩
        · exact Or.inl hmem
      · rcases List.mem_append.1 hx with hx | hx
        · exact Or.inr ⟨u, List.mem_cons_self, .head hx hchain⟩
        · exact Or.inr ⟨x, List.mem_cons_of_mem _ hx, hchain⟩

/-- If the variables stay below a bound, all variables are reached to which a step leads. -/
theorem reach_closed (hnext : ∀ u < N, ∀ x ∈ next u, x < N) (hnodup : closed.Nodup)
    (hclosed : ∀ u ∈ closed, u < N) (hpending : ∀ u ∈ pending, u < N)
    (hfuel : N ≤ n + closed.length)
    (hstep : ∀ u ∈ closed, ∀ x ∈ next u, x ∈ closed ∨ x ∈ pending) :
    (∀ u ∈ closed ++ pending, u ∈ reach next n closed pending) ∧
      ∀ u ∈ reach next n closed pending, ∀ x ∈ next u, x ∈ reach next n closed pending := by
  induction n, closed, pending using reach.induct next with
  | case1 n closed =>
      rw [reach_nil, List.append_nil]
      exact ⟨fun _ hu => hu, fun u hu x hx => (hstep u hu x hx).resolve_right (by simp)⟩
  | case2 n closed u pending hu ih =>
      rw [reach_cons_of_mem n hu]
      obtain ⟨hsub, hreach⟩ := ih hnodup hclosed (fun x hx => hpending x (List.mem_cons_of_mem _ hx))
        hfuel fun x hx y hy => by
          rcases hstep x hx y hy with hy | hy
          · exact Or.inl hy
          · rcases List.mem_cons.1 hy with rfl | hy
            · exact Or.inl hu
            · exact Or.inr hy
      refine ⟨fun x hx => hsub x ?_, hreach⟩
      rcases List.mem_append.1 hx with hx | hx
      · exact List.mem_append_left _ hx
      · rcases List.mem_cons.1 hx with rfl | hx
        · exact List.mem_append_left _ hu
        · exact List.mem_append_right _ hx
  | case3 closed u pending hu =>
      -- Without fuel the closed variables are all there are below the bound.
      have hsub : closed ⊆ List.range N := fun x hx => List.mem_range.2 (hclosed x hx)
      have hperm := (hnodup.subperm hsub).perm_of_length_le (by simpa using hfuel)
      exact absurd (hperm.mem_iff.2 (List.mem_range.2 (hpending u List.mem_cons_self))) hu
  | case4 closed u pending hu n ih =>
      rw [reach, if_neg hu]
      have hlt : u < N := hpending u List.mem_cons_self
      obtain ⟨hsub, hreach⟩ := ih (List.nodup_cons.2 ⟨hu, hnodup⟩)
        (fun x hx => (List.mem_cons.1 hx).elim (fun heq => heq ▸ hlt) (hclosed x))
        (fun x hx => (List.mem_append.1 hx).elim (hnext u hlt x)
          fun hx => hpending x (List.mem_cons_of_mem _ hx))
        (by simp only [List.length_cons]; omega)
        fun x hx y hy => by
          rcases List.mem_cons.1 hx with rfl | hx
          · exact Or.inr (List.mem_append_left _ hy)
          · rcases hstep x hx y hy with hy | hy
            · exact Or.inl (List.mem_cons_of_mem _ hy)
            · rcases List.mem_cons.1 hy with rfl | hy
              · exact Or.inl List.mem_cons_self
              · exact Or.inr (List.mem_append_right _ hy)
      refine ⟨fun x hx => hsub x ?_, hreach⟩
      rcases List.mem_append.1 hx with hx | hx
      · exact List.mem_append_left _ (List.mem_cons_of_mem _ hx)
      · rcases List.mem_cons.1 hx with rfl | hx
        · exact List.mem_append_left _ List.mem_cons_self
        · exact List.mem_append_right _ (List.mem_append_right _ hx)

end Reach

section Search

variable {s s' s₁ : Search}

/-- What holds in every state of a search among some variables. -/
structure Search.Wf (among : List TypeVar) (s : Search) : Prop where
  nodup : s.order.Nodup
  met : s.order ⊆ s.met
  among : s.met ⊆ among

/-- A search that goes from one state to the other leaves all variables that it meets. -/
structure Search.Extends (s s' : Search) : Prop where
  met : s.met ⊆ s'.met
  order : s.order ⊆ s'.order
  left : ∀ v ∈ s'.met, v ∈ s.met ∨ v ∈ s'.order
  open_ : ∀ v ∈ s'.order, v ∈ s.order ∨ v ∉ s.met

theorem Search.Extends.refl (s : Search) : s.Extends s :=
  ⟨fun _ h => h, fun _ h => h, fun _ h => Or.inl h, fun _ h => Or.inl h⟩

theorem Search.Extends.trans (h₁ : s.Extends s₁) (h₂ : s₁.Extends s') : s.Extends s' where
  met := fun _ h => h₂.met (h₁.met h)
  order := fun _ h => h₂.order (h₁.order h)
  left v hv := by
    rcases h₂.left v hv with hv | hv
    · exact (h₁.left v hv).imp_right fun hv => h₂.order hv
    · exact Or.inr hv
  open_ v hv := by
    rcases h₂.open_ v hv with hv | hv
    · exact h₁.open_ v hv
    · exact Or.inr fun hmet => hv (h₁.met hmet)

/-- The number of variables that the search may still meet. -/
def Search.unmet (among : List TypeVar) (s : Search) : Nat := among.countP (· ∉ s.met)

theorem Search.Extends.unmet_le (h : s.Extends s') : s'.unmet among ≤ s.unmet among :=
  List.countP_mono_left fun v _ hv => by
    simp only [decide_eq_true_eq] at hv ⊢
    exact fun hmet => hv (h.met hmet)

/-- The search goes on from each of some variables. -/
def visitAll (next : TypeVar → List TypeVar) (among : List TypeVar) (n : Nat) (vars : List TypeVar)
    (s : Search) : Search :=
  vars.foldl (fun s w => if w ∈ among then visit next among n w s else s) s

theorem visitAll_spec (next : TypeVar → List TypeVar) (vars : List TypeVar)
    (hvisit : ∀ w ∈ vars, w ∈ among → ∀ s : Search, s.Wf among →
      s.unmet among < n → let s' := visit next among n w s
      s'.Wf among ∧ s.Extends s' ∧ w ∈ s'.met)
    (hs : s.Wf among) (hn : s.unmet among < n) :
    let s' := visitAll next among n vars s
    s'.Wf among ∧ s.Extends s' ∧ ∀ w ∈ vars, w ∈ among → w ∈ s'.met := by
  induction vars generalizing s with
  | nil => exact ⟨hs, .refl s, by simp⟩
  | cons u vars ih =>
      have hrest : ∀ s₁ : Search, s₁.Wf among → s.Extends s₁ → (u ∈ among → u ∈ s₁.met) →
          let s' := visitAll next among n vars s₁
          s'.Wf among ∧ s.Extends s' ∧ ∀ w ∈ u :: vars, w ∈ among → w ∈ s'.met := by
        intro s₁ hs₁ hext hu
        obtain ⟨hwf, hext', hmet⟩ := ih (fun w hw => hvisit w (List.mem_cons_of_mem _ hw)) hs₁
          (hext.unmet_le.trans_lt hn)
        refine ⟨hwf, hext.trans hext', fun w hw hamong => ?_⟩
        rcases List.mem_cons.1 hw with rfl | hw
        · exact hext'.met (hu hamong)
        · exact hmet w hw hamong
      rw [visitAll, List.foldl_cons]
      by_cases hu : u ∈ among
      · rw [if_pos hu]
        obtain ⟨hwf, hext, hmet⟩ := hvisit u List.mem_cons_self hu s hs hn
        exact hrest _ hwf hext fun _ => hmet
      · rw [if_neg hu]
        exact hrest s hs (.refl s) fun h => absurd h hu

theorem visit_succ (hv : v ∉ s.met) :
    visit next among (n + 1) v s =
      { visitAll next among n (next v) { s with met := v :: s.met } with
        order := (visitAll next among n (next v) { s with met := v :: s.met }).order ++ [v] } := by
  rw [visit, if_neg hv]
  rfl

theorem unmet_meet_lt (hv : v ∈ among) (hmet : v ∉ s.met) (hn : s.unmet among < n + 1) :
    ({ s with met := v :: s.met } : Search).unmet among < n := by
  have hlt : ({ s with met := v :: s.met } : Search).unmet among < s.unmet among := by
    refine countP_lt_countP (fun x _ hx => ?_) hv (by simp) (by simpa using hmet)
    simp only [List.mem_cons, not_or, decide_eq_true_eq] at hx ⊢
    exact hx.2
  omega

/-- A search from a variable meets it, and leaves all variables that it meets. -/
theorem visit_spec (next : TypeVar → List TypeVar) (hv : v ∈ among) (hs : s.Wf among)
    (hn : s.unmet among < n) :
    let s' := visit next among n v s
    s'.Wf among ∧ s.Extends s' ∧ v ∈ s'.met := by
  induction n generalizing v s with
  | zero => simp at hn
  | succ n ih =>
      by_cases hmet : v ∈ s.met
      · rw [visit, if_pos hmet]
        exact ⟨hs, .refl s, hmet⟩
      · rw [visit_succ hmet]
        have hs₁ : ({ s with met := v :: s.met } : Search).Wf among :=
          ⟨hs.nodup, fun x hx => List.mem_cons_of_mem _ (hs.met hx),
            List.cons_subset.2 ⟨hv, hs.among⟩⟩
        obtain ⟨hwf, hext, -⟩ := visitAll_spec next (next v)
          (fun w _ hw s hs hn => ih hw hs hn) hs₁ (unmet_meet_lt hv hmet hn)
        generalize visitAll next among n (next v) { s with met := v :: s.met } = s' at hwf hext
        have hvmet : v ∈ s'.met := hext.met List.mem_cons_self
        have hvorder : v ∉ s'.order := by
          intro hmem
          rcases hext.open_ v hmem with hmem | hnot
          · exact hmet (hs.met hmem)
          · exact hnot List.mem_cons_self
        refine ⟨⟨?_, ?_, hwf.among⟩, ⟨?_, ?_, ?_, ?_⟩, hvmet⟩
        · exact List.nodup_append.2 ⟨hwf.nodup, List.nodup_singleton v, by
            rintro x hx y hy rfl
            exact hvorder (List.mem_singleton.1 hy ▸ hx)⟩
        · exact List.append_subset.2 ⟨hwf.met, by simpa using hvmet⟩
        · exact fun x hx => hext.met (List.mem_cons_of_mem _ hx)
        · exact fun x hx => List.mem_append_left _ (hext.order hx)
        · intro x hx
          rcases hext.left x hx with hx | hx
          · rcases List.mem_cons.1 hx with rfl | hx
            · exact Or.inr (by simp)
            · exact Or.inl hx
          · exact Or.inr (List.mem_append_left _ hx)
        · intro x hx
          rcases List.mem_append.1 hx with hx | hx
          · rcases hext.open_ x hx with hx | hx
            · exact Or.inl hx
            · exact Or.inr fun hmem => hx (List.mem_cons_of_mem _ hmem)
          · exact Or.inr (List.mem_singleton.1 hx ▸ hmet)

/-- Every variable comes after those among the given ones that it leads to. -/
def Settled (next : TypeVar → List TypeVar) (among order : List TypeVar) : Prop :=
  ∀ before v after, order = before ++ v :: after → ∀ w ∈ next v, w ∈ among → w ∈ before

theorem settled_concat (h : Settled next among vars)
    (hv : ∀ w ∈ next v, w ∈ among → w ∈ vars) : Settled next among (vars ++ [v]) := by
  intro before u after heq w hw hamong
  rcases List.eq_nil_or_concat after with rfl | ⟨after, x, rfl⟩
  · obtain ⟨rfl, hvu⟩ := List.append_inj' heq rfl
    obtain rfl : v = u := by simpa using hvu
    exact hv w hw hamong
  · have hsplit : vars ++ [v] = (before ++ u :: after) ++ [x] := by simpa using heq
    obtain ⟨rfl, -⟩ := List.append_inj' hsplit rfl
    exact h before u after rfl w hw hamong

/-- Where no variable leads back to itself, a search keeps the order settled. The variables that it
has met but not left all lead to the variable that it goes on from. -/
theorem visit_settled (hacyclic : ∀ u ∈ among, ¬Relation.TransGen (Step next) u u) (hv : v ∈ among)
    (hs : s.Wf among) (hn : s.unmet among < n)
    (hopen : ∀ u ∈ s.met, u ∈ s.order ∨ Relation.TransGen (Step next) u v)
    (hsettled : Settled next among s.order) :
    Settled next among (visit next among n v s).order := by
  induction n generalizing v s with
  | zero => simp at hn
  | succ n ih =>
      by_cases hmet : v ∈ s.met
      · rwa [visit, if_pos hmet]
      · rw [visit_succ hmet]
        have hs₁ : ({ s with met := v :: s.met } : Search).Wf among :=
          ⟨hs.nodup, fun x hx => List.mem_cons_of_mem _ (hs.met hx),
            List.cons_subset.2 ⟨hv, hs.among⟩⟩
        have hn₁ := unmet_meet_lt hv hmet hn
        have hopen₁ : ∀ u ∈ v :: s.met, u ∈ s.order ∨ Relation.ReflTransGen (Step next) u v := by
          intro u hu
          rcases List.mem_cons.1 hu with rfl | hu
          · exact Or.inr .refl
          · exact (hopen u hu).imp_right fun h => h.to_reflTransGen
        suffices hall : ∀ rest ⊆ next v, ∀ s₂ : Search, s₂.Wf among →
            ({ s with met := v :: s.met } : Search).Extends s₂ → Settled next among s₂.order →
            Settled next among (visitAll next among n rest s₂).order by
          obtain ⟨-, hext, hmet'⟩ := visitAll_spec next (next v)
            (fun w _ hw s hs hn => visit_spec next hw hs hn) hs₁ hn₁
          refine settled_concat (hall (next v) (fun _ h => h) _ hs₁ (.refl _) hsettled)
            fun w hw hamong => ?_
          rcases hext.left w (hmet' w hw hamong) with hwmet | hwleft
          · refine (hopen₁ w hwmet).elim (fun h => hext.order h) fun hchain => ?_
            exact absurd (Relation.TransGen.head' hw hchain) (hacyclic v hv)
          · exact hwleft
        intro rest
        induction rest with
        | nil => exact fun _ s₂ _ _ h => h
        | cons w rest ihrest =>
            intro hsub s₂ hs₂ hext hset
            obtain ⟨hw, hrest⟩ := List.cons_subset.1 hsub
            rw [visitAll, List.foldl_cons]
            by_cases hamong : w ∈ among
            · rw [if_pos hamong]
              have hn₂ := hext.unmet_le.trans_lt hn₁
              obtain ⟨hwf, hext', -⟩ := visit_spec next hamong hs₂ hn₂
              refine ihrest hrest _ hwf (hext.trans hext') (ih hamong hs₂ hn₂ (fun u hu => ?_) hset)
              rcases hext.left u hu with hu | hu
              · exact (hopen₁ u hu).imp (fun h => hext.order h) fun h => .tail' h hw
              · exact Or.inl hu
            · rw [if_neg hamong]
              exact ihrest hrest s₂ hs₂ hext hset

end Search

section OrderBy

/-- The state of a search from some variables among others. -/
theorem foldl_visit (next : TypeVar → List TypeVar) (hsub : vars ⊆ among) :
    let s' := vars.foldl (fun s v => visit next among (among.length + 1) v s) ({} : Search)
    s'.Wf among ∧ s'.met ⊆ s'.order ∧ (∀ v ∈ vars, v ∈ s'.met) ∧
      ((∀ u ∈ among, ¬Relation.TransGen (Step next) u u) → Settled next among s'.order) := by
  suffices h : ∀ s : Search, s.Wf among → s.met ⊆ s.order →
      let s' := vars.foldl (fun s v => visit next among (among.length + 1) v s) s
      s'.Wf among ∧ s'.met ⊆ s'.order ∧ s.Extends s' ∧ (∀ v ∈ vars, v ∈ s'.met) ∧
        ((∀ u ∈ among, ¬Relation.TransGen (Step next) u u) → Settled next among s.order →
          Settled next among s'.order) by
    obtain ⟨hwf, hleft, -, hmet, hset⟩ := h {} ⟨List.nodup_nil, by simp, by simp⟩ (by simp)
    exact ⟨hwf, hleft, hmet, fun hac => hset hac fun before v after heq => by simp at heq⟩
  induction vars with
  | nil => exact fun s hs hleft => ⟨hs, hleft, .refl s, by simp, fun _ h => h⟩
  | cons v vars ih =>
      intro s hs hleft
      obtain ⟨hv, hrest⟩ := List.cons_subset.1 hsub
      have hn : s.unmet among < among.length + 1 := Nat.lt_succ_of_le List.countP_le_length
      obtain ⟨hwf₁, hext₁, hmet₁⟩ := visit_spec next hv hs hn
      obtain ⟨hwf, hleft', hext, hmet, hset⟩ := ih hrest _ hwf₁ fun x hx =>
        (hext₁.left x hx).elim (fun h => hext₁.order (hleft h)) id
      refine ⟨hwf, hleft', hext₁.trans hext, fun u hu => ?_, fun hac hsettled => hset hac ?_⟩
      · rcases List.mem_cons.1 hu with rfl | hu
        · exact hext.met hmet₁
        · exact hmet u hu
      · exact visit_settled hac hv hs hn (fun u hu => Or.inl (hleft hu)) hsettled

theorem mem_orderBy : v ∈ orderBy next vars ↔ v ∈ vars := by
  obtain ⟨hwf, hleft, hmet, -⟩ := foldl_visit next (List.Subset.refl vars)
  exact ⟨fun hv => hwf.among (hwf.met hv), fun hv => hleft (hmet v hv)⟩

theorem nodup_orderBy (next : TypeVar → List TypeVar) (vars : List TypeVar) :
    (orderBy next vars).Nodup :=
  (foldl_visit next (List.Subset.refl vars)).1.nodup

/-- Unless a variable leads back to itself, each comes after those that it leads to. -/
theorem settled_orderBy
    (hacyclic : ∀ u ∈ vars, ¬Relation.TransGen (Step next) u u) :
    Settled next vars (orderBy next vars) :=
  (foldl_visit next (List.Subset.refl vars)).2.2.2 hacyclic

end OrderBy

end FieldML.TypeVar
