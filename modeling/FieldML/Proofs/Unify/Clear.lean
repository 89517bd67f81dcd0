import FieldML.Proofs.Unify.Acyclic

/-!
# Runs that close no cycle

A kind can be led back to its variable only where a variable is made equal to a type with a variable
that leads to it. A run without such a comparison, from kinds that do not lead back, ends in kinds
that do not lead back; if it does not fail, its types are alike afterwards and nothing that was
known is lost.
-/

namespace FieldML

open Relation

namespace Solver

open Unify

variable {syn : Prop} {h : TypeVar → Nat} {s s' : Solver} {a b t u : Ty} {v w x : TypeVar}
  {r : Range} {k : Kind}

/-- Making the types equal would lead a kind back to its variable: one of them is a variable, and a
variable of the other one leads to it. -/
def Loops (s : Solver) (a b : Ty) : Prop :=
  ∃ v, (s.subst.bare a = .var v .erased ∧ ∃ w ∈ (s.subst.bare b).freeVars, TransGen s.LeadsTo w v) ∨
    (s.subst.bare b = .var v .erased ∧ ∃ w ∈ (s.subst.bare a).freeVars, TransGen s.LeadsTo w v)

theorem mem_freeVars_bare (hs : s.Proper syn) (hs' : s'.Proper syn)
    (hext : s.subst.ExtendedBy s'.subst) (ht : t.Simple syn)
    (hw : w ∈ (s'.subst.bare t).freeVars) :
    ∃ v ∈ (s.subst.bare t).freeVars, w ∈ (s'.subst.bare (.var v .erased)).freeVars := by
  have hbare : (s.subst.bare t).Simple False := (hs.triangular.simple.apply ht).bare
  have hidem : (s.subst.bare t).bare = s.subst.bare t :=
    (hs.triangular.simple.apply ht).bare_bare
  rw [← hs.triangular.bare_bare hs'.triangular hext ht, Substitution.bare_eq_mapVars hbare,
    hidem] at hw
  obtain ⟨v, hv, r, hw⟩ := hbare.exists_of_mem_freeVars_mapVars hw
  exact ⟨v, hv, hw⟩

/-- Binding a variable leads what led to it to the variables of its type. -/
theorem LeadsTo.of_assign (hvw : (s.assign x t).LeadsTo v w) (hs : s.Proper syn)
    (hs' : (s.assign x t).Proper syn) (hx : s.subst.find? x = none) :
    s.LeadsTo v w ∨ s.LeadsTo v x ∧ w ∈ ((s.assign x t).subst.bare t).freeVars := by
  obtain ⟨p, hp, hw⟩ := hvw
  have hsimple := (hs.kind v).2 p hp
  obtain ⟨y, hy, hw⟩ :=
    mem_freeVars_bare hs hs' (Substitution.extendedBy_bind hx) hsimple hw
  by_cases hxy : x = y
  · subst hxy
    rw [bare_var_of_some hs' (t := t) (by rw [subst_assign, Substitution.find?_bind, if_pos rfl])]
      at hw
    exact Or.inr ⟨⟨p, hp, hy⟩, hw⟩
  · have hfree : (s.assign x t).subst.find? y = none := by
      rw [subst_assign, Substitution.find?_bind, if_neg hxy]
      exact (hs.resolved_bare hsimple).free y hy
    rw [bare_var_of_none hfree] at hw
    obtain rfl := Ty.mem_freeVars_var.1 hw
    exact Or.inl ⟨p, hp, hy⟩

theorem Acyclic.assign (hacyc : s.Acyclic) (hs : s.Proper syn) (hs' : (s.assign x t).Proper syn)
    (hx : s.subst.find? x = none)
    (ht : ∀ w ∈ ((s.assign x t).subst.bare t).freeVars, ¬TransGen s.LeadsTo w x) :
    (s.assign x t).Acyclic :=
  not_transGen_of_redirect hacyc (fun _ _ hvw => hvw.of_assign hs hs' hx) ht

theorem LeadsTo.of_strengthen (hk : k = mergedKind (s.kindOf v) (s.kindOf w))
    (hxy : (s.strengthen w k).LeadsTo x y) : s.LeadsTo x y ∨ x = w ∧ s.LeadsTo v y := by
  obtain ⟨p, hp, hy⟩ := hxy
  rw [subst_strengthen] at hy
  cases k with
  | universal => exact Or.inl ⟨p, hp, hy⟩
  | record fs =>
      rw [strengthen, kindOf_refine] at hp
      split at hp
      · next hwx =>
          subst hwx
          rw [hk] at hp
          rcases mem_fields_mergedKind hp with hp | hp
          · exact Or.inr ⟨rfl, p, hp, hy⟩
          · exact Or.inl ⟨p, hp, hy⟩
      · exact Or.inl ⟨p, hp, hy⟩

/-- Joining two variables, neither of which leads to the other one, closes no cycle. -/
theorem Acyclic.join (hacyc : s.Acyclic) (hs : s.Proper syn)
    (hs' : (s.assign v (.var w r)).Proper syn) (hv : s.subst.find? v = none)
    (hw : s.subst.find? w = none) (hne : v ≠ w)
    (hk : k = mergedKind (s.kindOf v) (s.kindOf w)) (hvw : ¬TransGen s.LeadsTo v w)
    (hwv : ¬TransGen s.LeadsTo w v) : ((s.assign v (.var w r)).strengthen w k).Acyclic := by
  have hfree : (s.assign v (.var w r)).subst.find? w = none := by
    rw [subst_assign, Substitution.find?_bind, if_neg hne, hw]
  have htarget : ∀ y ∈ ((s.assign v (.var w r)).subst.bare (.var w r)).freeVars,
      ¬TransGen s.LeadsTo y v := by
    rw [bare_var_of_none hfree]
    intro y hy
    rwa [Ty.mem_freeVars_var.1 hy]
  have hassign := hacyc.assign hs hs' hv htarget
  have happart : ¬TransGen (s.assign v (.var w r)).LeadsTo v w := by
    intro hchain
    rcases transGen_of_redirect (fun _ _ hvw => hvw.of_assign hs hs' hv) htarget hchain with
      hchain | ⟨hcycle, -⟩
    · exact hvw hchain
    · exact hacyc v hcycle
  -- Seen backwards, the steps from `w` are the old ones and those from `v`.
  intro x hcycle
  refine not_transGen_of_redirect (R := Function.swap (s.assign v (.var w r)).LeadsTo)
    (x := v) (T := (· = w)) (fun z hz => hassign z (transGen_swap.1 hz)) ?_ ?_ x
    (transGen_swap.2 hcycle)
  · exact fun y x hxy =>
      (LeadsTo.of_strengthen (s := s.assign v (.var w r)) (v := v) hk hxy).imp_right And.symm
  · rintro _ rfl hchain
    exact happart (transGen_swap.1 hchain)

theorem head_of_bare_var (hs : s.Proper syn) (ht : t.Simple syn)
    (hv : s.subst.bare t = .var v .erased) : ∃ r, s.head t = .var v r := by
  have hbare : (s.head t).bare = .var v .erased := by
    rw [head, Ty.bare_expand]
    exact hv
  rcases var_or_isRigid_head hs.simple ht with ⟨w, r, hw⟩ | hrt
  · rw [hw] at hbare
    obtain rfl := (Ty.var.inj hbare).1
    exact ⟨r, hw⟩
  · cases hhead : s.head t <;> rw [hhead] at hrt hbare <;> first
      | exact hrt.elim
      | exact Ty.noConfusion hbare

/-- A comparison that the ranks allow closes no cycle. -/
theorem Ranked.not_loops (hrank : s.Ranked h) (hs : s.Proper syn) (ha : a.Simple syn)
    (hb : b.Simple syn) (heven : Even h (s.head a) (s.head b)) : ¬s.Loops a b := by
  have hle : ∀ t : Ty, t.Simple syn → ∀ w ∈ (s.subst.bare t).freeVars,
      h w ≤ (s.head t).height h := by
    intro t ht w hw
    have hbare : (s.subst.bare t).Simple False := (hs.triangular.simple.apply ht).bare
    calc
      h w ≤ (s.subst.bare t).height h := hbare.height_le_of_mem_freeVars hw
      _ = (s.subst.apply t).height h := hs.height_bare ht
      _ = (s.head t).height h := (Ty.height_expand _).symm
  rintro ⟨v, ⟨hv, w, hw, hwv⟩ | ⟨hv, w, hw, hwv⟩⟩
  · obtain ⟨r, hhead⟩ := head_of_bare_var hs ha hv
    rw [hhead] at heven
    have hlt := lt_of_transGen (fun _ _ => (hrank.graded hs).lt hs) hwv
    exact absurd ((hle b hb w hw).trans heven.height_le) (Nat.not_le_of_lt hlt)
  · obtain ⟨r, hhead⟩ := head_of_bare_var hs hb hv
    rw [hhead] at heven
    have hlt := lt_of_transGen (fun _ _ => (hrank.graded hs).lt hs) hwv
    exact absurd ((hle a ha w hw).trans heven.height_le_var) (Nat.not_le_of_lt hlt)

end Solver

namespace Unify

open Solver

/-- On the way of the run, `c` and `d` are compared in the state `x`, or they are variables that are
joined in it once the fields that their kinds share have been compared. -/
inductive Passes (x : Solver) (c d : Ty) :
    Nat → Solver → List (Ty × Ty) → Option Reason → Solver → Prop
  | here {n r s'} : Runs n x [(c, d)] r s' → Passes x c d n x [(c, d)] r s'
  | first {n s s₁ s₂ p ps r} : Passes x c d n s [p] none s₁ → Runs n s₁ ps r s₂ →
      Passes x c d n s (p :: ps) r s₂
  | rest {n s s₁ s₂ p ps r} : Runs n s [p] none s₁ → Passes x c d n s₁ ps r s₂ →
      Passes x c d n s (p :: ps) r s₂
  | stop {n s s₁ p ps e} : Passes x c d n s [p] (some e) s₁ →
      Passes x c d n s (p :: ps) (some e) s₁
  | rigid {n s a b r s₁} : IsRigid (s.head a) → IsRigid (s.head b) →
      Passes x c d n (s.log (s.head a) (s.head b)) (parts (s.head a) (s.head b)).1 r s₁ →
      Passes x c d (n + 1) s [(a, b)] (r.or (parts (s.head a) (s.head b)).2) s₁
  | bind {n s a b v t r s₁} : Meet s a b v t → IsRigid t → v ∉ t.freeVars →
      Passes x c d n ((s.log (s.head a) (s.head b)).assign v t)
        (kindPairs (s.kindOf v) ((s.subst.bind v t).apply t)).1 r s₁ →
      Passes x c d (n + 1) s [(a, b)]
        (r.or (kindPairs (s.kindOf v) ((s.subst.bind v t).apply t)).2) s₁
  | join {n s a b v w r r' s₁} : s.head a = .var v r → s.head b = .var w r' → v ≠ w →
      Passes x c d n (s.log (s.head a) (s.head b)) (sharedPairs (s.kindOf v) (s.kindOf w)) none
        s₁ →
      w ∉ ((s₁.subst.bind v (.var w r')).applyKind
        (mergedKind (s.kindOf v) (s.kindOf w))).freeVars →
      Passes x c d (n + 1) s [(a, b)] none
        ((s₁.assign v (.var w r')).strengthen w (mergedKind (s.kindOf v) (s.kindOf w)))
  | joined {n s v w r r'} : s.head c = .var v r → s.head d = .var w r' → v ≠ w →
      Runs n (s.log (s.head c) (s.head d)) (sharedPairs (s.kindOf v) (s.kindOf w)) none x →
      w ∉ ((x.subst.bind v (.var w r')).applyKind
        (mergedKind (s.kindOf v) (s.kindOf w))).freeVars →
      Passes x c d (n + 1) s [(c, d)] none
        ((x.assign v (.var w r')).strengthen w (mergedKind (s.kindOf v) (s.kindOf w)))
  | joinOccurs {n s a b v w r r' s₁ shape} : s.head a = .var v r → s.head b = .var w r' → v ≠ w →
      Passes x c d n (s.log (s.head a) (s.head b)) (sharedPairs (s.kindOf v) (s.kindOf w)) none
        s₁ →
      w ∈ ((s₁.subst.bind v (.var w r')).applyKind
        (mergedKind (s.kindOf v) (s.kindOf w))).freeVars →
      Passes x c d (n + 1) s [(a, b)] (some (.occurs w shape)) (s₁.assign v (.var w r'))
  | joinStop {n s a b v w r r' e s₁} : s.head a = .var v r → s.head b = .var w r' → v ≠ w →
      Passes x c d n (s.log (s.head a) (s.head b)) (sharedPairs (s.kindOf v) (s.kindOf w)) (some e)
        s₁ →
      Passes x c d (n + 1) s [(a, b)] (some e) s₁

/-- The run never leads a kind back to its variable. -/
def Clear (n : Nat) (s : Solver) (ps : List (Ty × Ty)) (r : Option Reason) (s' : Solver) : Prop :=
  ∀ x a b, Passes x a b n s ps r s' → ¬x.Loops a b

/-- No kind leads back to its variable in any state in which types are compared on the way. -/
def PassesAcyclic (n : Nat) (s : Solver) (ps : List (Ty × Ty)) (r : Option Reason) (s' : Solver) :
    Prop :=
  ∀ x a b, Passes x a b n s ps r s' → x.Acyclic

variable {syn : Prop} {h : TypeVar → Nat} {s s' s₁ : Solver} {ps : List (Ty × Ty)} {n : Nat}
  {r : Option Reason} {a b t : Ty} {v w x : TypeVar}

/-- One side of every pair stands inside the variable. -/
def Encloses (s : Solver) (v : TypeVar) (ps : List (Ty × Ty)) : Prop :=
  ∀ p ∈ ps, s.Contains (.var v .erased) (s.subst.bare p.1) ∨
    s.Contains (.var v .erased) (s.subst.bare p.2)

/-- What a run that does not fail comes to: its types are alike, nothing that was known is lost, no
kind leads back to its variable, and a variable is left alone if one side of every pair stands
inside it. -/
structure Concludes (syn : Prop) (s s' : Solver) (ps : List (Ty × Ty)) : Prop where
  proper : s'.Proper syn
  extended : s.subst.ExtendedBy s'.subst
  acyclic : s'.Acyclic
  alike : AllAlike s'.subst ps
  keeps : Keeps syn s s'
  apart : ∀ v, s.subst.find? v = none → Encloses s v ps →
    s'.subst.find? v = none ∧ s'.kindOf v = s.kindOf v
  /-- Kinds change only where a variable is bound. -/
  unchanged : (∀ v, s'.subst.find? v = s.subst.find? v) → s'.kindOf = s.kindOf

theorem Encloses.head {p : Ty × Ty} (hin : Encloses s v (p :: ps)) : Encloses s v [p] :=
  fun _ hq => hin _ (by simpa using Or.inl hq)

theorem Encloses.keeps {qs : List (Ty × Ty)} (hin : Encloses s v ps) (hset : Concludes syn s s₁ qs)
    (hs : s.Proper syn) (hv : s.subst.find? v = none) (hv₁ : s₁.subst.find? v = none)
    (hps : AllSimple syn ps) : Encloses s₁ v ps := by
  have hkeeps : ∀ t : Ty, t.Simple syn → s.Contains (.var v .erased) (s.subst.bare t) →
      s₁.Contains (.var v .erased) (s₁.subst.bare t) := by
    intro t ht hc
    have := hc.keeps hs hset.proper hset.extended hset.keeps (.var hv)
    rwa [bare_var_of_none hv₁,
      hs.triangular.bare_bare hset.proper.triangular hset.extended ht] at this
  exact fun p hp => (hin p hp).imp (hkeeps _ (hps p hp).1) (hkeeps _ (hps p hp).2)

/-- What is alike in the end did not stand inside one another before. -/
theorem not_contains_of_alike {u : Ty} (hs : s.Proper syn) (hs' : s'.Proper syn)
    (hext : s.subst.ExtendedBy s'.subst) (hkeeps : Keeps syn s s') (hacyc : s'.Acyclic)
    (ht : s.Resolved t) (heq : s'.subst.bare t = s'.subst.bare u) : ¬s.Contains t u := by
  intro hc
  have hself := hc.keeps hs hs' hext hkeeps ht
  rw [heq] at hself
  exact hacyc.not_contains_self hs' hself

namespace Concludes

theorem refl (hs : s.Proper syn) (hacyc : s.Acyclic) : Concludes syn s s [] :=
  ⟨hs, .refl _, hacyc, fun _ hp => absurd hp List.not_mem_nil, .refl _, fun _ hv _ => ⟨hv, rfl⟩,
    fun _ => rfl⟩

theorem cons {p : Ty × Ty} (h₁ : Concludes syn s s₁ [p]) (h₂ : Concludes syn s₁ s' ps)
    (hs : s.Proper syn) (hps : AllSimple syn (p :: ps)) : Concludes syn s s' (p :: ps) where
  proper := h₂.proper
  extended := h₁.extended.trans h₂.extended
  acyclic := h₂.acyclic
  alike q hq := by
    rcases List.mem_cons.1 hq with rfl | hq
    · exact (h₁.alike.extend h₁.proper.triangular h₂.proper.triangular h₂.extended hps.head).head
    · exact h₂.alike q hq
  keeps := h₁.keeps.trans h₂.keeps h₁.proper
  apart v hv hin := by
    obtain ⟨hv₁, hkind₁⟩ := h₁.apart v hv hin.head
    have hrest : Encloses s v ps := fun q hq => hin q (List.mem_cons_of_mem _ hq)
    obtain ⟨hv₂, hkind₂⟩ := h₂.apart v hv₁ (hrest.keeps h₁ hs hv hv₁ hps.tail)
    exact ⟨hv₂, hkind₂.trans hkind₁⟩
  unchanged hall := by
    have hfirst : ∀ v, s₁.subst.find? v = s.subst.find? v := by
      intro v
      cases hv : s.subst.find? v with
      | none => exact h₂.extended.none ((hall v).trans hv)
      | some t => exact h₁.extended v t hv
    exact (h₂.unchanged fun v => (hall v).trans (hfirst v).symm).trans (h₁.unchanged hfirst)

theorem of_log {t u : Ty} (hset : Concludes syn (s.log t u) s' ps) (hs : s.Proper syn) :
    Concludes syn s s' ps where
  proper := hset.proper
  extended := hset.extended
  acyclic := hset.acyclic
  alike := hset.alike
  keeps := Keeps.trans .log hset.keeps hs.log
  apart := hset.apart
  unchanged := hset.unchanged

theorem same {r' : Range} {r : Range} (hs : s.Proper syn) (hacyc : s.Acyclic)
    (hps : AllSimple syn [(a, b)]) (ha : s.head a = .var v r) (hb : s.head b = .var v r') :
    Concludes syn s (s.log (s.head a) (s.head b)) [(a, b)] where
  proper := hs.log
  extended := .refl _
  acyclic := hacyc
  alike := .single (alike_of_heads hs hs.log (.refl _) hps.pair.1 hps.pair.2 (alike_of_same ha hb))
  keeps := .log
  apart _ hv _ := ⟨hv, rfl⟩
  unchanged _ := rfl

/-- Rigid types are equal once their parts are. -/
theorem rigid (hset : Concludes syn s s' (parts (s.head a) (s.head b)).1) (hs : s.Proper syn)
    (hps : AllSimple syn [(a, b)]) (hra : IsRigid (s.head a)) (hrb : IsRigid (s.head b))
    (hnone : (parts (s.head a) (s.head b)).2 = none) :
    Concludes syn s s' [(a, b)] := by
  obtain ⟨hsa, hsb⟩ := hps.pair
  have hunder : ∀ t u : Ty, t.Simple syn → IsRigid (s.head t) → u ∈ (s.head t).items →
      s.subst.bare u ∈ s.under (s.subst.bare t) := by
    intro t u ht hrt hu
    have hitem := hs.mem_items_of_head ht hrt hu
    rw [← hs.bare_head hs (.refl _) ht] at hitem ⊢
    rwa [under_of_isRigid (isRigid_bare hrt)]
  refine ⟨hset.proper, hset.extended, hset.acyclic,
    .single (alike_of_heads hs hset.proper hset.extended hsa hsb ?_),
    hset.keeps, fun v hv hin => hset.apart v hv fun q hq => ?_, hset.unchanged⟩
  · exact alike_of_parts hra hrb (hs.simple.head hsa) (hs.simple.head hsb) hnone hset.alike
  · obtain ⟨hqa, hqb⟩ := mem_items_of_mem_parts hq
    exact (hin _ List.mem_cons_self).imp (·.tail (hunder a _ hsa hra hqa))
      (·.tail (hunder b _ hsb hrb hqb))

end Concludes

theorem bare_of_free {σ : Substitution} (ht : t.Simple syn)
    (hfree : ∀ v ∈ t.freeVars, σ.find? v = none) : σ.bare t = t.bare := by
  rw [Substitution.bare, Substitution.apply,
    ht.mapVars_eq_self fun v hv r => Substitution.follow_of_none _ (hfree v hv)]

/-- Of the two types of a comparison one is the variable, and the other one is its type. -/
theorem Meet.bare (hm : Meet s a b v t) (hs : s.Proper syn) (ha : a.Simple syn)
    (hb : b.Simple syn) :
    s.subst.bare a = .var v .erased ∧ s.subst.bare b = t.bare ∨
      s.subst.bare b = .var v .erased ∧ s.subst.bare a = t.bare := by
  have hfree := (hm.free hs ha hb).2
  have hst := hm.simple hs.simple ha hb
  obtain ⟨r, ⟨hv, rfl⟩ | ⟨hv, rfl⟩⟩ := hm
  · refine Or.inl ⟨?_, ?_⟩
    · rw [← hs.bare_head hs (.refl _) ha, hv, bare_var_of_none (hs.find?_of_head_eq ha hv)]
    · rw [← hs.bare_head hs (.refl _) hb, bare_of_free hst hfree]
  · refine Or.inr ⟨?_, ?_⟩
    · rw [← hs.bare_head hs (.refl _) hb, hv, bare_var_of_none (hs.find?_of_head_eq hb hv)]
    · rw [← hs.bare_head hs (.refl _) ha, bare_of_free hst hfree]

theorem Meet.proper_assign (hm : Meet s a b x t) (hs : s.Proper syn) (hps : AllSimple syn [(a, b)])
    (hxt : x ∉ t.freeVars) : (s.assign x t).Proper syn := by
  obtain ⟨hsa, hsb⟩ := hps.pair
  exact hs.assign (hm.simple hs.simple hsa hsb) (hm.free hs hsa hsb).2 hxt

/-- Binding the variable of a comparison that closes no cycle leads no kind back. -/
theorem Meet.acyclic_assign (hm : Meet s a b x t) (hs : s.Proper syn) (hps : AllSimple syn [(a, b)])
    (hacyc : s.Acyclic) (hxt : x ∉ t.freeVars) (hclear : ¬s.Loops a b) : (s.assign x t).Acyclic := by
  obtain ⟨hsa, hsb⟩ := hps.pair
  obtain ⟨hx, hfree⟩ := hm.free hs hsa hsb
  have hst := hm.simple hs.simple hsa hsb
  have hs' := hm.proper_assign hs hps hxt
  have hbare : (s.assign x t).subst.bare t = t.bare := by
    apply bare_of_free hst
    intro w hw
    rw [subst_assign, Substitution.find?_bind, if_neg (by rintro rfl; exact hxt hw), hfree w hw]
  refine hacyc.assign hs hs' hx fun w hw hchain => hclear ⟨x, ?_⟩
  rw [hbare] at hw
  rcases hm.bare hs hsa hsb with ⟨ha, hb⟩ | ⟨hb, ha⟩
  · exact Or.inl ⟨ha, w, by rwa [hb], hchain⟩
  · exact Or.inr ⟨hb, w, by rwa [ha], hchain⟩

/-- A variable is equal to the type that it is bound to once the fields of its kind have been compared
with those of the type. -/
theorem Concludes.bind (hset : Concludes syn (s.assign x t) s'
      (kindPairs (s.kindOf x) ((s.assign x t).subst.apply t)).1)
    (hm : Meet s a b x t) (hs : s.Proper syn) (hs₀ : (s.assign x t).Proper syn)
    (hps : AllSimple syn [(a, b)]) (hacyc : s.Acyclic)
    (hnone : (kindPairs (s.kindOf x) ((s.assign x t).subst.apply t)).2 = none) :
    Concludes syn s s' [(a, b)] := by
  obtain ⟨hsa, hsb⟩ := hps.pair
  obtain ⟨hx, -⟩ := hm.free hs hsa hsb
  have hst := hm.simple hs.simple hsa hsb
  have hbound : (s.assign x t).subst.find? x = some t := by
    rw [subst_assign, Substitution.find?_bind, if_pos rfl]
  have hext₀ : s.subst.ExtendedBy (s.assign x t).subst := Substitution.extendedBy_bind hx
  have hext := hext₀.trans hset.extended
  have hx' := hset.extended x t hbound
  have hkeeps := Keeps.bind hs hs₀ hset.proper hx hset.extended hst hnone hset.alike hset.keeps
  have hbare : ∀ {s₁ : Solver}, s₁.Proper syn → s₁.subst.bare t.bare = s₁.subst.bare t :=
    fun _ => Substitution.bare_congr hst.bare hst hst.bare_bare
  -- Neither side of the comparison stands inside the variable.
  have hself : ¬s.Contains (.var x .erased) (.var x .erased) := hacyc.not_contains_self hs
  have htype : ¬s.Contains (.var x .erased) t.bare :=
    not_contains_of_alike hs hset.proper hext hkeeps hset.acyclic (.var hx)
      ((bare_var_of_some hset.proper hx').trans (hbare hset.proper).symm)
  refine ⟨hset.proper, hext, hset.acyclic,
    .single (alike_of_heads hs hset.proper hext hsa hsb (hm.alike hset.proper hx')), hkeeps,
    fun v hv hin => ?_,
    fun hall => absurd (hx'.symm.trans ((hall x).trans hx)) (Option.some_ne_none _)⟩
  have hside : s.Contains (.var v .erased) (.var x .erased) ∨
      s.Contains (.var v .erased) t.bare := by
    rcases hm.bare hs hsa hsb with ⟨ha, hb⟩ | ⟨hb, ha⟩
    · simpa only [ha, hb] using hin _ List.mem_cons_self
    · simpa only [ha, hb, or_comm] using hin _ List.mem_cons_self
  have hne : x ≠ v := by
    rintro rfl
    exact hside.elim hself htype
  have hv₀ : (s.assign x t).subst.find? v = none := by
    rw [subst_assign, Substitution.find?_bind, if_neg hne, hv]
  have hinside : (s.assign x t).Contains (.var v .erased) ((s.assign x t).subst.bare t) := by
    rcases hside with hc | hc
    · have hc' := (hc.assign hs hs₀ hx (.var hv)).resolve_right hself
      rwa [bare_var_of_none hv₀, bare_var_of_some hs₀ hbound] at hc'
    · have hc' := (hc.assign hs hs₀ hx (.var hv)).resolve_right htype
      rwa [bare_var_of_none hv₀, hbare hs₀] at hc'
  refine hset.apart v hv₀ fun q hq => Or.inr (hinside.tail ?_)
  obtain ⟨n, fs, r, hrecord, -, hget⟩ := mem_kindPairs hq
  rw [← hs₀.triangular.bare_apply hs₀.triangular (.refl _) hst, hrecord,
    under_of_isRigid (isRigid_bare (t := .record fs r) trivial)]
  exact mem_items_bare (t := .record fs r) trivial
    (List.mem_map_of_mem (f := (·.2)) (Fields.mem_of_get? hget))

theorem kindOf_strengthen_of_ne {k : Kind} (hne : w ≠ v) :
    (s.strengthen w k).kindOf v = s.kindOf v := by
  cases k with
  | universal => rfl
  | record fs => rw [strengthen, kindOf_refine, if_neg hne]

theorem mem_under_of_sharedPairs {q : Ty × Ty} (hq : q ∈ sharedPairs (s.kindOf v) (s.kindOf w)) :
    s.subst.bare q.1 ∈ s.under (.var v .erased) ∧ s.subst.bare q.2 ∈ s.under (.var w .erased) := by
  obtain ⟨n, hget, hmem⟩ := mem_sharedPairs hq
  exact ⟨mem_under_of_kind (Fields.mem_of_get? hget), mem_under_of_kind hmem⟩

/-- Comparing the fields that the kinds of two variables share leaves both variables alone, since
the fields stand inside them. -/
theorem Concludes.apart_shared (hset : Concludes syn s s₁ (sharedPairs (s.kindOf v) (s.kindOf w)))
    (hv : s.subst.find? v = none) (hw : s.subst.find? w = none) :
    (s₁.subst.find? v = none ∧ s₁.kindOf v = s.kindOf v) ∧
      s₁.subst.find? w = none ∧ s₁.kindOf w = s.kindOf w :=
  ⟨hset.apart v hv fun _ hq => Or.inl (.single (mem_under_of_sharedPairs hq).1),
    hset.apart w hw fun _ hq => Or.inr (.single (mem_under_of_sharedPairs hq).2)⟩

theorem bare_of_head_var {r : Range} (hs : s.Proper syn) (hs₁ : s₁.Proper syn)
    (hext : s.subst.ExtendedBy s₁.subst) (ht : t.Simple syn) (hhead : s.head t = .var v r)
    (hv : s₁.subst.find? v = none) : s₁.subst.bare t = .var v .erased := by
  rw [← hs.bare_head hs₁ hext ht, hhead, bare_var_of_none hv]

theorem proper_assign_var {r : Range} (hs : s.Proper syn) (hw : s.subst.find? w = none)
    (hne : v ≠ w) : (s.assign v (.var w r)).Proper syn :=
  hs.assign (.var w r) (fun y hy => by rwa [Ty.mem_freeVars_var.1 hy])
    fun hy => hne (Ty.mem_freeVars_var.1 hy)

/-- Joining the variables of a comparison that closes no cycle leads no kind back. -/
theorem Concludes.acyclic_join {r r' : Range}
    (hset : Concludes syn s s₁ (sharedPairs (s.kindOf v) (s.kindOf w)))
    (ha : s.head a = .var v r) (hb : s.head b = .var w r') (hne : v ≠ w) (hs : s.Proper syn)
    (hps : AllSimple syn [(a, b)]) (hclear : ¬s₁.Loops a b) :
    ((s₁.assign v (.var w r')).strengthen w (mergedKind (s.kindOf v) (s.kindOf w))).Acyclic := by
  obtain ⟨hsa, hsb⟩ := hps.pair
  obtain ⟨⟨hv₁, hkindv⟩, hw₁, hkindw⟩ :=
    hset.apart_shared (hs.find?_of_head_eq hsa ha) (hs.find?_of_head_eq hsb hb)
  have hbarea := bare_of_head_var hs hset.proper hset.extended hsa ha hv₁
  have hbareb := bare_of_head_var hs hset.proper hset.extended hsb hb hw₁
  rw [← hkindv, ← hkindw]
  exact hset.acyclic.join hset.proper (proper_assign_var hset.proper hw₁ hne) hv₁ hw₁ hne rfl
    (fun hchain => hclear ⟨w, Or.inr ⟨hbareb, v, by simp [hbarea], hchain⟩⟩)
    fun hchain => hclear ⟨v, Or.inl ⟨hbarea, w, by simp [hbareb], hchain⟩⟩

/-- Two variables are equal once the fields that their kinds share are. -/
theorem Concludes.join {r r' : Range}
    (hset : Concludes syn s s₁ (sharedPairs (s.kindOf v) (s.kindOf w)))
    (ha : s.head a = .var v r) (hb : s.head b = .var w r') (hne : v ≠ w) (hs : s.Proper syn)
    (hps : AllSimple syn [(a, b)]) (hacyc : s.Acyclic)
    (hacyc' : ((s₁.assign v (.var w r')).strengthen w
      (mergedKind (s.kindOf v) (s.kindOf w))).Acyclic) :
    Concludes syn s ((s₁.assign v (.var w r')).strengthen w
      (mergedKind (s.kindOf v) (s.kindOf w))) [(a, b)] := by
  obtain ⟨hsa, hsb⟩ := hps.pair
  have hv := hs.find?_of_head_eq hsa ha
  have hw := hs.find?_of_head_eq hsb hb
  have hbarea := bare_of_head_var hs hs (.refl _) hsa ha hv
  have hbareb := bare_of_head_var hs hs (.refl _) hsb hb hw
  obtain ⟨⟨hv₁, hkindv⟩, hw₁, hkindw⟩ := hset.apart_shared hv hw
  have hk : mergedKind (s.kindOf v) (s.kindOf w) = mergedKind (s₁.kindOf v) (s₁.kindOf w) := by
    rw [hkindv, hkindw]
  have hs' := (proper_assign_var hset.proper hw₁ hne (r := r')).strengthen (v := w)
    (mergedKind_simple (hs.kind v) (hs.kind w))
  have hbound : ((s₁.assign v (.var w r')).strengthen w
      (mergedKind (s.kindOf v) (s.kindOf w))).subst.find? v = some (.var w r') := by
    rw [find?_join, if_pos rfl]
  have hext : s.subst.ExtendedBy ((s₁.assign v (.var w r')).strengthen w
      (mergedKind (s.kindOf v) (s.kindOf w))).subst := by
    rw [subst_strengthen]
    exact hset.extended.trans (Substitution.extendedBy_bind hv₁)
  have hkeeps := hset.keeps.trans (.join hset.proper hs' hv₁ hw₁ hne hk
    (by rw [hkindv, hkindw]; exact hset.alike)) hset.proper
  have halike := Meet.alike (a := a) (b := b) ⟨r, Or.inl ⟨ha, hb⟩⟩ hs' hbound
  refine ⟨hs', hext, hacyc', .single (alike_of_heads hs hs' hext hsa hsb halike), hkeeps,
    fun x hx hin => ?_,
    fun hall => absurd (hbound.symm.trans ((hall v).trans hv)) (Option.some_ne_none _)⟩
  -- Neither variable stands inside the other one, which it is equal to in the end.
  have hvars := alike_of_heads hs hs' hext hsa hsb halike
  have hvw : ¬s.Contains (.var v .erased) (.var w .erased) := by
    refine not_contains_of_alike hs hs' hext hkeeps hacyc' (.var hv) ?_
    rwa [← hbarea, ← hbareb, hs.triangular.bare_bare hs'.triangular hext hsa,
      hs.triangular.bare_bare hs'.triangular hext hsb]
  have hwv : ¬s.Contains (.var w .erased) (.var v .erased) := by
    refine not_contains_of_alike hs hs' hext hkeeps hacyc' (.var hw) ?_
    rw [← hbarea, ← hbareb, hs.triangular.bare_bare hs'.triangular hext hsa,
      hs.triangular.bare_bare hs'.triangular hext hsb, hvars]
  have hside := hin _ List.mem_cons_self
  rw [hbarea, hbareb] at hside
  have hxv : v ≠ x := by
    rintro rfl
    exact hside.elim (hacyc.not_contains_self hs) hvw
  have hxw : w ≠ x := by
    rintro rfl
    exact hside.elim hwv (hacyc.not_contains_self hs)
  obtain ⟨hx₁, hkindx⟩ := hset.apart x hx fun q hq =>
    hside.imp (·.tail (mem_under_of_sharedPairs hq).1) (·.tail (mem_under_of_sharedPairs hq).2)
  rw [find?_join, if_neg hxv, kindOf_strengthen_of_ne hxw]
  exact ⟨hx₁, hkindx⟩

/-- What a run comes to that closes no cycle and does not fail, from kinds that do not lead back. -/
theorem Runs.concludes (hrun : Runs n s ps r s') (hs : s.Proper syn) (hps : AllSimple syn ps)
    (hacyc : s.Acyclic) (hclear : Clear n s ps r s') (hr : r = none) : Concludes syn s s' ps := by
  induction hrun with
  | nil => exact .refl hs hacyc
  | tooDeep | stop | occurs | joinOccurs | joinStop => simp at hr
  | cons hrun₁ hrun₂ ih₁ ih₂ =>
      have h₁ := ih₁ hs hps.head hacyc (fun x a b hp => hclear x a b (.first hp hrun₂)) rfl
      have h₂ := ih₂ h₁.proper hps.tail h₁.acyclic (fun x a b hp => hclear x a b (.rest hrun₁ hp)) hr
      exact h₁.cons h₂ hs hps
  | same ha hb => exact .same hs hacyc hps ha hb
  | rigid hra hrb hrun ih =>
      obtain ⟨hsa, hsb⟩ := hps.pair
      obtain ⟨rfl, hnone⟩ := Option.or_eq_none_iff.1 hr
      have hset := ih hs.log (parts_simple (hs.simple.head hsa) (hs.simple.head hsb)) hacyc
        (fun x a b hp => hclear x a b (.rigid hra hrb hp)) rfl
      exact (hset.rigid hs.log hps hra hrb hnone).of_log hs
  | @bind n s a b v t r s₁ hm ht hvt hrun ih =>
      obtain ⟨hsa, hsb⟩ := hps.pair
      obtain ⟨rfl, hnone⟩ := Option.or_eq_none_iff.1 hr
      have hmlog : Meet (s.log (s.head a) (s.head b)) a b v t := hm
      have hs₀ := hmlog.proper_assign hs.log hps hvt
      have hacyc₀ := hmlog.acyclic_assign hs.log hps hacyc hvt
        (hclear s a b (.here (.bind hm ht hvt hrun)))
      have hset := ih hs₀ (kindPairs_simple (hs.kind v)
          (hs₀.triangular.simple.apply (hm.simple hs.simple hsa hsb))) hacyc₀
        (fun x a b hp => hclear x a b (.bind hm ht hvt hp)) rfl
      exact (Concludes.bind (s := s.log (s.head a) (s.head b)) hset hm hs.log hs₀ hps hacyc
        hnone).of_log hs
  | @join n s a b v w r r' s₁ ha hb hvw hrun hw ih =>
      have hset := ih hs.log (sharedPairs_simple (hs.kind v) (hs.kind w)) hacyc
        (fun x a b hp => hclear x a b (.join ha hb hvw hp hw)) rfl
      have hacyc' := Concludes.acyclic_join (s := s.log (s.head a) (s.head b)) hset ha hb hvw hs.log
        hps (hclear _ _ _ (.joined ha hb hvw hrun hw))
      exact (Concludes.join (s := s.log (s.head a) (s.head b)) hset ha hb hvw hs.log hps hacyc
        hacyc').of_log hs

theorem Runs.acyclic_start (hrun : Runs n s ps r s') (hacyc : PassesAcyclic n s ps r s')
    (hps : ps ≠ []) : s.Acyclic := by
  cases hrun with
  | nil => exact absurd rfl hps
  | cons hrun₁ hrun₂ => exact hacyc _ _ _ (.first (.here hrun₁) hrun₂)
  | stop hrun => exact hacyc _ _ _ (.stop (.here hrun))
  | tooDeep s a b => exact hacyc _ _ _ (.here (.tooDeep s a b))
  | same ha hb => exact hacyc _ _ _ (.here (.same ha hb))
  | occurs h₁ h₂ h₃ => exact hacyc _ _ _ (.here (.occurs h₁ h₂ h₃))
  | rigid hra hrb hrun => exact hacyc _ _ _ (.here (.rigid hra hrb hrun))
  | bind hm ht hvt hrun => exact hacyc _ _ _ (.here (.bind hm ht hvt hrun))
  | join ha hb hvw hrun hw => exact hacyc _ _ _ (.here (.join ha hb hvw hrun hw))
  | joinOccurs ha hb hvw hrun hw => exact hacyc _ _ _ (.here (.joinOccurs ha hb hvw hrun hw))
  | joinStop ha hb hvw hrun => exact hacyc _ _ _ (.here (.joinStop ha hb hvw hrun))

theorem Runs.acyclic_middle (hrun : Runs n s ps r s') (hacyc : PassesAcyclic n s ps r s')
    (hend : s'.Acyclic) : s.Acyclic := by
  cases ps with
  | nil =>
      cases hrun
      exact hend
  | cons p ps => exact hrun.acyclic_start hacyc (List.cons_ne_nil p ps)

/-- What a run comes to that does not fail, if no kind leads back to its variable on the way nor in
the end. -/
theorem Runs.concludes_of_acyclic (hrun : Runs n s ps r s') (hs : s.Proper syn)
    (hps : AllSimple syn ps) (hacyc : PassesAcyclic n s ps r s') (hend : s'.Acyclic)
    (hr : r = none) : Concludes syn s s' ps := by
  induction hrun with
  | nil => exact .refl hs hend
  | tooDeep | stop | occurs | joinOccurs | joinStop => simp at hr
  | cons hrun₁ hrun₂ ih₁ ih₂ =>
      have hrest : PassesAcyclic _ _ _ _ _ := fun x a b hp => hacyc x a b (.rest hrun₁ hp)
      have h₁ := ih₁ hs hps.head (fun x a b hp => hacyc x a b (.first hp hrun₂))
        (hrun₂.acyclic_middle hrest hend) rfl
      exact h₁.cons (ih₂ h₁.proper hps.tail hrest hend hr) hs hps
  | same ha hb => exact .same hs hend hps ha hb
  | rigid hra hrb hrun ih =>
      obtain ⟨hsa, hsb⟩ := hps.pair
      obtain ⟨rfl, hnone⟩ := Option.or_eq_none_iff.1 hr
      have hset := ih hs.log (parts_simple (hs.simple.head hsa) (hs.simple.head hsb))
        (fun x a b hp => hacyc x a b (.rigid hra hrb hp)) hend rfl
      exact (hset.rigid hs.log hps hra hrb hnone).of_log hs
  | @bind n s a b v t r s₁ hm ht hvt hrun ih =>
      obtain ⟨hsa, hsb⟩ := hps.pair
      obtain ⟨rfl, hnone⟩ := Option.or_eq_none_iff.1 hr
      have hmlog : Meet (s.log (s.head a) (s.head b)) a b v t := hm
      have hs₀ := hmlog.proper_assign hs.log hps hvt
      have hset := ih hs₀ (kindPairs_simple (hs.kind v)
          (hs₀.triangular.simple.apply (hm.simple hs.simple hsa hsb)))
        (fun x a b hp => hacyc x a b (.bind hm ht hvt hp)) hend rfl
      have hstart : s.Acyclic := hacyc s a b (.here (.bind hm ht hvt hrun))
      exact (Concludes.bind (s := s.log (s.head a) (s.head b)) hset hm hs.log hs₀ hps hstart
        hnone).of_log hs
  | @join n s a b v w r r' s₁ ha hb hvw hrun hw ih =>
      have hset := ih hs.log (sharedPairs_simple (hs.kind v) (hs.kind w))
        (fun x a b hp => hacyc x a b (.join ha hb hvw hp hw))
        (hacyc _ _ _ (.joined ha hb hvw hrun hw)) rfl
      have hstart : s.Acyclic := hacyc s a b (.here (.join ha hb hvw hrun hw))
      exact (Concludes.join (s := s.log (s.head a) (s.head b)) hset ha hb hvw hs.log hps hstart
        hend).of_log hs

section Ranks

variable {c d : Ty} {m : Solver}

theorem Passes.runs (hpass : Passes m c d n s ps r s') : Runs n s ps r s' := by
  induction hpass with
  | here hrun => exact hrun
  | first _ hrun₂ ih => exact ih.cons hrun₂
  | rest hrun₁ _ ih => exact hrun₁.cons ih
  | stop _ ih => exact ih.stop
  | rigid hra hrb _ ih => exact ih.rigid hra hrb
  | bind hm ht hvt _ ih => exact ih.bind hm ht hvt
  | join ha hb hne _ hw ih => exact ih.join ha hb hne hw
  | joined ha hb hne hrun hw => exact hrun.join ha hb hne hw
  | joinOccurs ha hb hne _ hw ih => exact ih.joinOccurs ha hb hne hw
  | joinStop ha hb hne _ ih => exact ih.joinStop ha hb hne

/-- A run that does not fail records its first comparison. -/
theorem Runs.mem_compared (hrun : Runs n s ps r s') (hr : r = none) {p : Ty × Ty}
    (hp : ps.head? = some p) : (s.head p.1, s.head p.2) ∈ s'.compared := by
  induction hrun with
  | nil => exact absurd hp.symm (Option.some_ne_none _)
  | tooDeep | stop | occurs | joinOccurs | joinStop => exact absurd hr (Option.some_ne_none _)
  | cons _ hrun₂ ih₁ =>
      obtain rfl := Option.some.inj hp
      exact hrun₂.compared_subset (ih₁ rfl rfl)
  | same =>
      obtain rfl := Option.some.inj hp
      exact List.mem_cons_self
  | rigid _ _ hrun | bind _ _ _ hrun =>
      obtain rfl := Option.some.inj hp
      exact hrun.compared_subset List.mem_cons_self
  | join _ _ _ hrun =>
      obtain rfl := Option.some.inj hp
      rw [compared_strengthen]
      exact hrun.compared_subset List.mem_cons_self

/-- Where all comparisons of a run are even, the ranks hold in all states on the way; and if the run
does not fail, none of the comparisons closes a cycle. -/
theorem Passes.ranked (hpass : Passes m c d n s ps r s') (hs : s.Proper syn)
    (hps : AllSimple syn ps) (hrank : s.Ranked h) (heven : AllEven h s'.compared) :
    m.Acyclic ∧ (r = none → ¬m.Loops c d) := by
  induction hpass with
  | here hrun =>
      obtain ⟨hsc, hsd⟩ := hps.pair
      exact ⟨(hrank.graded hs).acyclic hs,
        fun hr => hrank.not_loops hs hsc hsd (heven _ (hrun.mem_compared hr rfl))⟩
  | first _ hrun₂ ih =>
      have h := ih hs hps.head hrank (heven.subset hrun₂.compared_subset)
      exact ⟨h.1, fun _ => h.2 rfl⟩
  | @rest n s s₁ s₂ p ps r hrun₁ hpass ih =>
      obtain ⟨N, hN⟩ := exists_allBelow h [p]
      have hadv := hrun₁.advance hs hps.head hrank hN
        (heven.subset hpass.runs.compared_subset)
      exact ih hadv.proper hps.tail hadv.ranked heven
  | stop _ ih => exact ⟨(ih hs hps.head hrank heven).1, fun hr => absurd hr (Option.some_ne_none _)⟩
  | rigid _ _ _ ih =>
      obtain ⟨hsa, hsb⟩ := hps.pair
      have h := ih hs.log (parts_simple (hs.simple.head hsa) (hs.simple.head hsb))
        ⟨hrank.binding, hrank.kind⟩ heven
      exact ⟨h.1, fun hr => h.2 (Option.or_eq_none_iff.1 hr).1⟩
  | @bind n s a b v t r s₁ hm ht hvt hpass ih =>
      obtain ⟨hsa, hsb⟩ := hps.pair
      have hst := hm.simple hs.simple hsa hsb
      obtain ⟨N, hN⟩ := exists_allBelow h [(a, b)]
      have hadv := hm.advance ht hvt hs hps hrank hN
        (hpass.runs.even_of_mem heven List.mem_cons_self)
      have h := ih hadv.proper
        (kindPairs_simple (hs.kind v) (hadv.proper.triangular.simple.apply hst)) hadv.ranked heven
      exact ⟨h.1, fun hr => h.2 (Option.or_eq_none_iff.1 hr).1⟩
  | join _ _ _ _ _ ih =>
      rw [compared_strengthen] at heven
      exact ih hs.log (sharedPairs_simple (hs.kind _) (hs.kind _)) ⟨hrank.binding, hrank.kind⟩ heven
  | joined ha hb _ hrun _ =>
      rw [compared_strengthen] at heven
      obtain ⟨hsc, hsd⟩ := hps.pair
      obtain ⟨heq, hadv⟩ := hrun.advance_shared ha hb hs hrank heven
      refine ⟨(hadv.ranked.graded hadv.proper).acyclic hadv.proper, fun _ => ?_⟩
      -- Comparing the shared fields has left the two variables alone.
      have hheadc := hs.head_head hadv.proper hadv.extended hsc
      have hheadd := hs.head_head hadv.proper hadv.extended hsd
      rw [ha, head_var_of_none ((hadv.above _ (Nat.le_refl _)).1.trans (hs.find?_of_head_eq hsc ha))]
        at hheadc
      rw [hb, head_var_of_none ((hadv.above _ (Nat.le_of_eq heq)).1.trans
        (hs.find?_of_head_eq hsd hb))] at hheadd
      refine hadv.ranked.not_loops hadv.proper hsc hsd ?_
      rwa [← hheadc, ← hheadd, even_var_var]
  | joinOccurs _ _ _ _ _ ih =>
      have h := ih hs.log (sharedPairs_simple (hs.kind _) (hs.kind _))
        ⟨hrank.binding, hrank.kind⟩ heven
      exact ⟨h.1, fun hr => absurd hr (Option.some_ne_none _)⟩
  | joinStop _ _ _ _ ih =>
      have h := ih hs.log (sharedPairs_simple (hs.kind _) (hs.kind _))
        ⟨hrank.binding, hrank.kind⟩ heven
      exact ⟨h.1, fun hr => absurd hr (Option.some_ne_none _)⟩

theorem passesAcyclic_of_even (hs : s.Proper syn) (hps : AllSimple syn ps) (hrank : s.Ranked h)
    (heven : AllEven h s'.compared) : PassesAcyclic n s ps r s' :=
  fun _ _ _ hpass => (hpass.ranked hs hps hrank heven).1

end Ranks

end Unify

end FieldML
