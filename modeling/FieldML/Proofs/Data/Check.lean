import FieldML.Check.Program
import FieldML.Proofs.Check.PatternType
import FieldML.Proofs.Data.Basic
import FieldML.Proofs.Check.Scheme
import FieldML.Proofs.Unify.Apart

/-!
# Data is accepted

The type found for an expression that is data in writing holds no synonym, mentions each of its
variables once, and mentions no variable that was there before. So what is found for one part never
stands in the way of another part, and a comparison is refused only where the data does not have the
type.
-/

namespace FieldML

open Check Unify

variable {n : TypeVar} {θ θ' θ₁ : Assignment} {t u : Ty} {ts us : List Ty}

theorem Ty.Simple.ground_congr {syn : Prop} (ht : t.Simple syn) (h : ∀ v ∈ t.freeVars, θ v = θ' v) :
    t.ground θ = t.ground θ' := by
  have hself : t.mapVars (fun _ v r => .var v r) [] = t := ht.mapVars_eq_self fun _ _ _ => rfl
  have hground : (t.mapVars (fun _ v r => .var v r) []).ground θ = t.ground θ' :=
    ht.ground_mapVars fun v hv _ => h v hv
  rwa [hself] at hground

namespace CheckState

variable {s s' s₁ : CheckState} {v : TypeVar}

/-- A state of a check in which no variable has a record kind. -/
structure Unkinded (s : CheckState) : Prop where
  wf : s.Wf
  proper : s.solver.Proper True
  plain : s.solver.Plain

namespace Unkinded

theorem of_idle (hs : s.Unkinded) (h : s.Idle s') : s'.Unkinded :=
  ⟨hs.wf.of_idle h, h.solver ▸ hs.proper, h.solver ▸ hs.plain⟩

theorem lt_next (hs : s.Unkinded) (hv : s.solver.subst.find? v = some t) : v < s.next := by
  by_contra hge
  rw [(hs.wf.fresh v (Nat.le_of_not_lt hge)).1] at hv
  cases hv

/-- Nothing is known about variables that were not handed out. -/
theorem closed_next (hs : s.Unkinded) : s.solver.Closed (s.next ≤ ·) where
  binding v t hv ht := absurd (hs.lt_next ht) (Nat.not_lt.2 hv)
  kind v _ p hp := by
    rw [hs.plain v] at hp
    exact absurd hp List.not_mem_nil

/-- A solution may be changed at variables that were not handed out. -/
theorem solvedBy_of_same (hs : s.Unkinded) (hθ : s.solver.SolvedBy θ)
    (hsame : ∀ v < s.next, θ' v = θ v) : s.solver.SolvedBy θ' where
  binding v t hv := by
    have hlt := hs.lt_next hv
    rw [hsame v hlt, hθ.binding v t hv]
    refine (hs.proper.triangular.simple v t hv).ground_congr fun w hw => (hsame w ?_).symm
    exact hs.wf.closed.binding v t hlt hv w hw
  kind v := by
    rw [hs.plain v]
    trivial

end Unkinded

/-- From the first state to the second a check went on, and learned nothing about the variables below
`n`. What solved the first state solves the second one with types for the new variables. -/
structure Advances (n : TypeVar) (s : CheckState) (θ : Assignment) (s' : CheckState)
    (θ' : Assignment) : Prop where
  leads : s.Leads s'
  unkinded : s'.Unkinded
  closed : s.solver.Closed (n ≤ ·) → s'.solver.Closed (n ≤ ·)
  extended : s.solver.subst.ExtendedBy s'.solver.subst
  old : ∀ v < n, s'.solver.subst.find? v = s.solver.subst.find? v
  solved : s'.solver.SolvedBy θ'
  same : ∀ v < s.next, θ' v = θ v

namespace Advances

theorem trans (h₁ : Advances n s θ s₁ θ₁) (h₂ : Advances n s₁ θ₁ s' θ') : Advances n s θ s' θ' where
  leads := h₁.leads.trans h₂.leads
  unkinded := h₂.unkinded
  closed h := h₂.closed (h₁.closed h)
  extended := h₁.extended.trans h₂.extended
  old v hv := (h₂.old v hv).trans (h₁.old v hv)
  solved := h₂.solved
  same v hv := (h₂.same v (hv.trans_le h₁.leads.next)).trans (h₁.same v hv)

theorem of_idle (hs : s.Unkinded) (hθ : s.solver.SolvedBy θ) (h : s.Idle s')
    (hsame : ∀ v < s.next, θ' v = θ v) : Advances n s θ s' θ' where
  leads := h.leads
  unkinded := hs.of_idle h
  closed hclosed := h.solver ▸ hclosed
  extended := h.solver ▸ .refl _
  old v _ := by rw [h.solver]
  solved := h.solver ▸ hs.solvedBy_of_same hθ hsame
  same := hsame

/-- What is learned about new variables is learned about variables from `n` on. -/
theorem widen (h : Advances s.next s θ s' θ') (hs : s.Unkinded) (hn : n ≤ s.next) :
    Advances n s θ s' θ' where
  leads := h.leads
  unkinded := h.unkinded
  closed hclosed := by
    refine ⟨fun v t hv ht => ?_, fun v _ p hp => ?_⟩
    · by_cases hlt : v < s.next
      · exact hclosed.binding v t hv ((h.old v hlt).symm.trans ht)
      · have hnew := (h.closed hs.closed_next).binding v t (Nat.le_of_not_lt hlt) ht
        exact hnew.mono fun w hw => hn.trans hw
    · rw [h.unkinded.plain v] at hp
      exact absurd hp List.not_mem_nil
  extended := h.extended
  old v hv := h.old v (hv.trans_le hn)
  solved := h.solved
  same := h.same

/-- What older types stand for stays. -/
theorem apply_eq (h : Advances s.next s θ s' θ') (hs : s.Unkinded) (ht : t.Known s.next) :
    s'.solver.subst.apply t = s.solver.subst.apply t := by
  rw [← hs.proper.triangular.apply_apply h.unkinded.proper.triangular h.extended ht.simple]
  refine Substitution.apply_of_free (hs.proper.triangular.simple.apply ht.simple) fun w hw => ?_
  rw [h.old w ((hs.wf.apply ht).below w hw)]
  exact hs.proper.triangular.find?_of_mem_freeVars_apply ht.simple hw

theorem ground_eq (h : Advances n s θ s' θ') (ht : t.Known s.next) : t.ground θ' = t.ground θ :=
  ht.simple.ground_congr fun v hv => h.same v (ht.below v hv)

end Advances

/-- Types over variables from `n` on that, resolved, hold no synonym and mention every variable
once. -/
structure Found (n : TypeVar) (s : CheckState) (ts : List Ty) : Prop where
  known : ∀ t ∈ ts, t.Known s.next
  new : ∀ t ∈ ts, t.Inside (n ≤ ·)
  apart : s.solver.Apart ts

theorem Found.advances (h : Found n s ts) (hs : s.Unkinded) (hadv : Advances s.next s θ s' θ') :
    Found n s' ts where
  known t ht := (h.known t ht).mono hadv.leads.next
  new := h.new
  apart := h.apart.congr fun t ht => hadv.apply_eq hs (h.known t ht)

/-- What is found out about new variables is apart from what was found before. -/
theorem Found.append (h : Found n s ts) (hs : s.Unkinded) (hn : n ≤ s.next)
    (hadv : Advances s.next s θ s' θ') (hus : Found s.next s' us) : Found n s' (ts ++ us) := by
  have hts := h.advances hs hadv
  refine ⟨fun t ht => ?_, fun t ht => ?_, ⟨fun t ht => ?_, ?_⟩⟩
  · exact (List.mem_append.1 ht).elim (hts.known t) (hus.known t)
  · exact (List.mem_append.1 ht).elim (hts.new t) fun ht =>
      (hus.new t ht).mono fun w hw => hn.trans hw
  · exact (List.mem_append.1 ht).elim (hts.apart.flat t) (hus.apart.flat t)
  · rw [Solver.varsOf_append]
    refine List.nodup_append.2 ⟨hts.apart.nodup, hus.apart.nodup, fun v hv w hw heq => ?_⟩
    obtain ⟨t, ht, hv⟩ := Solver.mem_varsOf.1 hv
    obtain ⟨u, hu, hw⟩ := Solver.mem_varsOf.1 hw
    rw [hadv.apply_eq hs (h.known t ht)] at hv
    have hlt := (hs.wf.apply (h.known t ht)).below v hv
    have hclosed := hadv.closed hs.closed_next
    have hle := hclosed.apply hadv.unkinded.proper.triangular.simple (hus.known u hu).simple
      (hus.new u hu) w hw
    exact absurd (heq ▸ hlt) (Nat.not_lt.2 hle)

/-- A type made of types that were found is found where those are. -/
theorem Found.single (hts : Found n s ts) (ht : t.Known s.next)
    (hcover : ∀ v ∈ t.freeVars, ∃ x ∈ ts, v ∈ x.freeVars)
    (hflat : (s.solver.subst.apply t).Simple False)
    (hvars : (s.solver.subst.apply t).freeVars = s.solver.varsOf ts) : Found n s [t] := by
  refine ⟨List.forall_mem_singleton.2 ht, List.forall_mem_singleton.2 fun v hv => ?_,
    ⟨List.forall_mem_singleton.2 hflat, ?_⟩⟩
  · obtain ⟨x, hx, hv⟩ := hcover v hv
    exact hts.new x hx v hv
  · rw [Solver.varsOf_singleton, hvars]
    exact hts.apart.nodup

theorem found_nil (n : TypeVar) (s : CheckState) : Found n s [] :=
  ⟨List.forall_mem_nil _, List.forall_mem_nil _, ⟨List.forall_mem_nil _, List.nodup_nil⟩⟩

theorem Found.variant (hts : Found n s ts) (name : String) (r : Range) :
    Found n s [.variant name ts r] := by
  refine hts.single (.variant hts.known name r) (fun v hv => Ty.mem_freeVars_variant.1 hv) ?_ ?_
  · rw [Substitution.apply_variant]
    refine .variant name r fun u hu => ?_
    obtain ⟨t, ht, rfl⟩ := List.mem_map.1 hu
    exact hts.apart.flat t ht
  · rw [Substitution.apply_variant, Ty.freeVars_variant, List.flatMap_map]
    rfl

theorem Found.product (hts : Found n s ts) (r : Range) : Found n s [.product ts r] := by
  refine hts.single (.product hts.known r) (fun v hv => Ty.mem_freeVars_product.1 hv) ?_ ?_
  · rw [Substitution.apply_product]
    refine .product r fun u hu => ?_
    obtain ⟨t, ht, rfl⟩ := List.mem_map.1 hu
    exact hts.apart.flat t ht
  · rw [Substitution.apply_product, Ty.freeVars_product, List.flatMap_map]
    rfl

theorem Found.record {fs : List (String × Ty)} (hfs : Found n s (fs.map (·.2)))
    (hsorted : Fields.Sorted fs) (r : Range) : Found n s [.record fs r] := by
  have hmem : ∀ p ∈ fs, p.2 ∈ fs.map (·.2) := fun p hp => List.mem_map_of_mem hp
  refine hfs.single (.record hsorted (fun p hp => hfs.known _ (hmem p hp)) r) (fun v hv => ?_) ?_ ?_
  · obtain ⟨p, hp, hv⟩ := Ty.mem_freeVars_record.1 hv
    exact ⟨p.2, hmem p hp, hv⟩
  · rw [Substitution.apply_record]
    refine .record r ((Fields.sorted_congr (Fields.names_map _ fs)).2 hsorted) fun q hq => ?_
    obtain ⟨p, hp, rfl⟩ := List.mem_map.1 hq
    exact hfs.apart.flat p.2 (hmem p hp)
  · rw [Substitution.apply_record, Ty.freeVars_record, List.flatMap_map, Solver.varsOf,
      List.flatMap_map]

theorem Found.list (ht : Found n s [t]) (r : Range) : Found n s [.list t r] := by
  refine ht.single ((ht.known t List.mem_cons_self).list r)
    (fun v hv => ⟨t, List.mem_cons_self, hv⟩) ?_ ?_
  · exact .list r (ht.apart.flat t List.mem_cons_self)
  · rw [Solver.varsOf_singleton]
    rfl

end CheckState

namespace Check

open CheckState

variable {α β : Type} {m : Check α} {f : α → Check β} {o : CheckOptions} {s s' : CheckState}
  {Q : α → CheckState → Assignment → Prop} {R : β → CheckState → Assignment → Prop}

/-- A part of a check succeeds and learns nothing about the variables below `n`, with an outcome for
which `Q` holds. -/
def Gains (n : TypeVar) (m : Check α) (o : CheckOptions) (s : CheckState) (θ : Assignment)
    (Q : α → CheckState → Assignment → Prop) : Prop :=
  ∃ a s' θ', m o s = (.ok a, s') ∧ Advances n s θ s' θ' ∧ Q a s' θ'

/-- What follows a part of a check of which the outcome is known. -/
theorem Gains.after {a : α} {s₁ : CheckState} (hrun : m o s = (.ok a, s₁))
    (hadv : Advances n s θ s₁ θ₁) (hf : Gains n (f a) o s₁ θ₁ R) : Gains n (m >>= f) o s θ R := by
  obtain ⟨b, s', θ', hrun', hadv', hb⟩ := hf
  exact ⟨b, s', θ', by rw [bind_apply, hrun]; exact hrun', hadv.trans hadv', hb⟩

theorem Gains.bind (hm : Gains n m o s θ Q)
    (hf : ∀ a s₁ θ₁, Advances n s θ s₁ θ₁ → Q a s₁ θ₁ → Gains n (f a) o s₁ θ₁ R) :
    Gains n (m >>= f) o s θ R := by
  obtain ⟨a, s₁, θ₁, hrun, hadv, ha⟩ := hm
  exact .after hrun hadv (hf a s₁ θ₁ hadv ha)

theorem gains_pure (hs : s.Unkinded) (hθ : s.solver.SolvedBy θ) {a : α} (ha : Q a s θ) :
    Gains n (pure a : Check α) o s θ Q :=
  ⟨a, s, θ, rfl, .of_idle hs hθ (.refl s) fun _ _ => rfl, ha⟩

/-- The type is made equal to one that was found since, if both mean the same. -/
theorem gains_unify (hs : s.Unkinded) (hθ : s.solver.SolvedBy θ) (hclosed : s.solver.Closed (n ≤ ·))
    (hfound : Found n s (ts ++ [u])) (ht : t.Simple True)
    (hcover : ∀ v ∈ t.freeVars, ∃ x ∈ ts, v ∈ x.freeVars) (heq : t.ground θ = u.ground θ)
    (range : Range) :
    Gains n (unify t u range) o s θ fun _ s' θ' => Found n s' ts ∧ θ' = θ ∧ s'.next = s.next := by
  have hts : ∀ x ∈ ts, x.Known s.next := fun x hx => hfound.known x (List.mem_append_left _ hx)
  have hu : u.Known s.next := hfound.known u (by simp)
  have hknown : t.Known s.next := ⟨ht, fun v hv => by
    obtain ⟨x, hx, hv⟩ := hcover v hv
    exact (hts x hx).below v hv⟩
  have hnew : t.Inside (n ≤ ·) := fun v hv => by
    obtain ⟨x, hx, hv⟩ := hcover v hv
    exact hfound.new x (List.mem_append_left _ hx) v hv
  have hin : ∀ v ∈ (s.solver.subst.apply t).freeVars, v ∈ s.solver.varsOf ts := by
    intro w hw
    obtain ⟨v, hv, hw⟩ := (Substitution.mem_freeVars_apply ht).1 hw
    obtain ⟨x, hx, hv⟩ := hcover v hv
    exact Solver.mem_varsOf.2
      ⟨x, hx, (Substitution.mem_freeVars_apply (hts x hx).simple).2 ⟨v, hv, hw⟩⟩
  obtain ⟨i, solver, hunify, hrun, hbinds, hθ', hapart⟩ := hs.plain.unify_apart hs.proper ht
    hu.simple (fun x hx => (hts x hx).simple) hθ heq hfound.apart hin
  have hregion : s.solver.forget.Closed (n ≤ ·) := ⟨hclosed.binding, hclosed.kind⟩
  have hsimple : s.solver.forget.Simple True := hs.proper.simple.forget
  have hinside : AllInside (n ≤ ·) [(t, u)] := by
    intro p hp
    obtain rfl := List.mem_singleton.1 hp
    exact ⟨hnew, hfound.new u (by simp)⟩
  obtain ⟨hclosed', hsame⟩ := hrun.region hsimple (by simp [AllSimple, ht, hu.simple]) hregion hinside
  refine ⟨(), s.learn o solver, θ, by rw [unify_apply, hunify]; rfl, ?_, ?_, rfl, rfl⟩
  · exact {
      leads := s.leads_learn o solver
      unkinded := ⟨hs.wf.learn hknown hu hrun, hbinds.proper, hbinds.plain⟩
      closed := fun _ => hclosed'
      extended := hbinds.extended
      old := fun v hv => (hsame v (Nat.not_le.2 hv)).1
      solved := hθ'
      same := fun _ _ => rfl }
  · exact ⟨hts, fun x hx => hfound.new x (List.mem_append_left _ hx), hapart⟩

variable {env : VariantEnv} {v : Value} {e : Expr} {τ : GroundTy} {Γ : TypeEnv} {items : List Value}
  {es : List Expr}

/-- Wherever the expression is checked over the declared types, it is accepted as the value, with a
type of which the given one is a case. -/
def Elaborates (env : VariantEnv) (v : Value) (τ : GroundTy) (e : Expr) : Prop :=
  ∀ (Γ : TypeEnv) (o : CheckOptions) (s : CheckState) (θ : Assignment), s.Unkinded →
    s.variants = env → s.solver.SolvedBy θ → Gains s.next (infer Γ e) o s θ fun r s' θ' =>
      r.1 = v.core ∧ Found s.next s' [r.2] ∧ r.2.ground θ' = τ

/-- An expression is compared with a type over what was found before it. -/
theorem Elaborates.against {k : Core → Check β} (h : Elaborates env v τ e) (hs : s.Unkinded)
    (henv : s.variants = env) (hθ : s.solver.SolvedBy θ) (hn : n ≤ s.next)
    (hclosed : s.solver.Closed (n ≤ ·)) (hfound : Found n s ts) (ht : t.Simple True)
    (hcover : ∀ v ∈ t.freeVars, ∃ x ∈ ts, v ∈ x.freeVars) (hτ : t.ground θ = τ)
    (hk : ∀ s' θ', Advances n s θ s' θ' → Found n s' ts → Gains n (k v.core) o s' θ' R) :
    Gains n (infer Γ e >>= fun r => unify t r.2 e.range >>= fun _ => k r.1) o s θ R := by
  obtain ⟨⟨core, u⟩, s₁, θ₁, hrun, hadv, rfl, hu, hground⟩ := h Γ o s θ hs henv hθ
  have hknown : t.Known s.next := ⟨ht, fun v hv => by
    obtain ⟨x, hx, hv⟩ := hcover v hv
    exact (hfound.known x hx).below v hv⟩
  have heq : t.ground θ₁ = u.ground θ₁ := by rw [hadv.ground_eq hknown, hτ, hground]
  have hwide := hadv.widen hs hn
  have hunify := gains_unify (o := o) hadv.unkinded hadv.solved (hwide.closed hclosed)
    (hfound.append hs hn hadv hu) ht hcover heq e.range
  refine .after hrun hwide (hunify.bind fun _ s₂ θ₂ hadv₂ hfound₂ => ?_)
  exact hk s₂ θ₂ (hwide.trans hadv₂) hfound₂.1

/-- All items of a list are accepted against its element type. -/
theorem gains_inferAll (hs : s.Unkinded) (henv : s.variants = env) (hθ : s.solver.SolvedBy θ)
    (hn : n ≤ s.next) (hclosed : s.solver.Closed (n ≤ ·)) (ht : Found n s [t])
    (hτ : t.ground θ = τ) (hitems : ∀ v ∈ items, ∀ e, v.Written e → Elaborates env v τ e)
    (hes : List.Forall₂ Value.Written items es) :
    Gains n (inferAll Γ t es) o s θ fun cores s' _ =>
      cores = Value.cores items ∧ Found n s' [t] := by
  have hknown : t.Known s.next := ht.known t List.mem_cons_self
  induction hes generalizing s θ with
  | nil => exact gains_pure hs hθ ⟨rfl, ht⟩
  | @cons v e items es hv _ ih =>
      obtain ⟨hfirst, hitems⟩ := List.forall_mem_cons.1 hitems
      rw [inferAll]
      refine (hfirst e hv).against (k := fun core => do return core :: (← inferAll Γ t es))
        hs henv hθ hn hclosed
        ht hknown.simple (fun v hv => ⟨t, List.mem_cons_self, hv⟩) hτ fun s₁ θ₁ hadv ht₁ => ?_
      have hτ₁ : t.ground θ₁ = τ := (hadv.ground_eq hknown).trans hτ
      have hrest := ih hadv.unkinded (hadv.leads.variants.trans henv) hadv.solved
        (hn.trans hadv.leads.next) (hadv.closed hclosed) ht₁ hτ₁ hitems
        (hknown.mono hadv.leads.next)
      refine hrest.bind fun cores s₂ θ₂ hadv₂ hcores => ?_
      exact gains_pure hadv₂.unkinded hadv₂.solved ⟨congrArg _ hcores.1, hcores.2⟩

/-- Some expressions are accepted, each with a type of its own. -/
theorem gains_inferEach {τs : List GroundTy} (hs : s.Unkinded) (henv : s.variants = env)
    (hθ : s.solver.SolvedBy θ) (hlength : items.length = τs.length)
    (hitems : ∀ p ∈ items.zip τs, ∀ e, p.1.Written e → Elaborates env p.1 p.2 e)
    (hes : List.Forall₂ Value.Written items es) :
    Gains s.next (inferEach Γ es) o s θ fun r s' θ' =>
      r.1 = Value.cores items ∧ Found s.next s' r.2 ∧ r.2.map (Ty.ground θ') = τs := by
  induction hes generalizing s θ τs with
  | nil =>
      obtain rfl := List.length_eq_zero_iff.1 hlength.symm
      exact gains_pure hs hθ ⟨rfl, ⟨List.forall_mem_nil _, List.forall_mem_nil _,
        ⟨List.forall_mem_nil _, List.nodup_nil⟩⟩, rfl⟩
  | @cons v e items es hv _ ih =>
      obtain ⟨τ, τs, rfl⟩ := List.exists_cons_of_length_eq_add_one hlength.symm
      rw [inferEach]
      have hfirst := hitems (v, τ) List.mem_cons_self e hv Γ o s θ hs henv hθ
      refine hfirst.bind ?_
      rintro ⟨core, t⟩ s₁ θ₁ hadv ⟨hcore, ht, hτ⟩
      have hrest := ih hadv.unkinded (hadv.leads.variants.trans henv) hadv.solved
        (Nat.succ.inj hlength) fun p hp => hitems p (List.mem_cons_of_mem _ hp)
      obtain ⟨⟨cores, ts⟩, s₂, θ₂, hrun, hadv₂, hcores, hts, hτs⟩ := hrest
      refine .after hrun (hadv₂.widen hadv.unkinded hadv.leads.next) ?_
      refine gains_pure hadv₂.unkinded hadv₂.solved ⟨?_, ?_, ?_⟩
      · exact congrArg₂ List.cons hcore hcores
      · exact ht.append hadv.unkinded hadv.leads.next hadv₂ hts
      · have hground := hadv₂.ground_eq (ht.known t List.mem_cons_self)
        exact congrArg₂ List.cons (hground.trans hτ) hτs

/-- Some expressions are accepted against types over what was found before. -/
theorem gains_inferAgainst {types : List Ty} (hs : s.Unkinded) (henv : s.variants = env)
    (hθ : s.solver.SolvedBy θ) (hn : n ≤ s.next) (hclosed : s.solver.Closed (n ≤ ·))
    (hts : Found n s ts) (htypes : ∀ t ∈ types, t.Simple True ∧
      ∀ v ∈ t.freeVars, ∃ x ∈ ts, v ∈ x.freeVars)
    (hlength : items.length = types.length)
    (hitems : ∀ p ∈ items.zip (types.map (Ty.ground θ)), ∀ e, p.1.Written e →
      Elaborates env p.1 p.2 e)
    (hes : List.Forall₂ Value.Written items es) :
    Gains n (inferAgainst Γ types es) o s θ fun cores s' _ =>
      cores = Value.cores items ∧ Found n s' ts := by
  induction hes generalizing s θ types with
  | nil => exact gains_pure hs hθ ⟨rfl, hts⟩
  | @cons v e items es hv _ ih =>
      obtain ⟨t, types, rfl⟩ := List.exists_cons_of_length_eq_add_one hlength.symm
      obtain ⟨⟨ht, hcover⟩, htypes⟩ := List.forall_mem_cons.1 htypes
      have hfirst := hitems (v, t.ground θ) List.mem_cons_self e hv
      rw [inferAgainst]
      refine hfirst.against (k := fun core => do return core :: (← inferAgainst Γ types es)) hs henv
        hθ hn hclosed hts ht hcover rfl fun s₁ θ₁ hadv hts₁ => ?_
      have hsame : types.map (Ty.ground θ₁) = types.map (Ty.ground θ) := by
        refine List.map_congr_left fun u hu => hadv.ground_eq ⟨(htypes u hu).1, fun v hv => ?_⟩
        obtain ⟨x, hx, hv⟩ := (htypes u hu).2 v hv
        exact (hts.known x hx).below v hv
      have hrest := ih hadv.unkinded (hadv.leads.variants.trans henv) hadv.solved
        (hn.trans hadv.leads.next) (hadv.closed hclosed) hts₁ htypes (Nat.succ.inj hlength)
        (by rw [hsame]; exact fun p hp => hitems p (List.mem_cons_of_mem _ hp))
      refine hrest.bind fun cores s₂ θ₂ hadv₂ hcores => ?_
      exact gains_pure hadv₂.unkinded hadv₂.solved ⟨congrArg _ hcores.1, hcores.2⟩

/-- The values of fields in ascending order are checked one after the other. -/
theorem inferFields_of_inferEach {before : List (String × Ty)} {fields : List (Ident × Expr)}
    {cores : List Core} {ts : List Ty} {s' : CheckState}
    (hsorted : (Fields.names before ++ fields.map (·.1.text)).Pairwise (· < ·))
    (hrun : inferEach Γ (fields.map (·.2)) o s = (.ok (cores, ts), s')) :
    inferFields Γ before fields o s = (.ok ((fields.map (·.1.text)).zip cores,
      before ++ (fields.map (·.1.text)).zip ts), s') := by
  induction fields generalizing before s cores ts with
  | nil =>
      obtain ⟨hparts, rfl⟩ := Prod.mk.inj hrun
      obtain ⟨rfl, rfl⟩ := Prod.mk.inj (Except.ok.inj hparts)
      simp [inferFields]
  | cons field fields ih =>
      obtain ⟨name, e⟩ := field
      rw [List.map_cons, inferEach, bind_apply] at hrun
      rw [inferFields, bind_apply]
      rcases hfirst : infer Γ e o s with ⟨err | ⟨core, t⟩, s₁⟩
      · rw [hfirst] at hrun
        cases hrun
      · rw [hfirst] at hrun
        dsimp only at hrun ⊢
        rw [bind_apply] at hrun
        rcases hrest : inferEach Γ (fields.map (·.2)) o s₁ with ⟨err | ⟨cores', ts'⟩, s₂⟩
        · rw [hrest] at hrun
          cases hrun
        · rw [hrest] at hrun
          obtain ⟨hparts, rfl⟩ := Prod.mk.inj hrun
          obtain ⟨rfl, rfl⟩ := Prod.mk.inj (Except.ok.inj hparts)
          obtain ⟨-, hnext, hbefore⟩ := List.pairwise_append.1 hsorted
          have hlt : ∀ m ∈ Fields.names before, m < name.text := fun m hm =>
            hbefore m hm name.text List.mem_cons_self
          have hnew : Fields.get? before name.text = none := by
            rw [Fields.get?_eq_none]
            exact fun hmem => lt_irrefl _ (hlt _ hmem)
          have hinsert := Fields.insert_of_forall_lt t hlt
          have hsorted' : (Fields.names (before ++ [(name.text, t)]) ++
              fields.map (·.1.text)).Pairwise (· < ·) := by
            simpa [Fields.names] using hsorted
          have hfields := ih hsorted' hrest
          rw [hnew, hinsert]
          simp only [Option.isSome_none, Bool.false_eq_true, if_false, bind_apply, hfields]
          simp

/-! ### Constructors -/

theorem nodup_freeVars_newVars (n : TypeVar) (rs : List Range) :
    ((newVars n rs).flatMap Ty.freeVars).Nodup := by
  induction rs generalizing n with
  | nil => exact List.nodup_nil
  | cons r rs ih =>
      have hfirst : (newVars n (r :: rs)).flatMap Ty.freeVars =
          n :: (newVars (n + 1) rs).flatMap Ty.freeVars := rfl
      rw [hfirst, List.nodup_cons]
      refine ⟨fun hmem => ?_, ih (n + 1)⟩
      obtain ⟨t, ht, hn⟩ := List.mem_flatMap.1 hmem
      obtain ⟨v, r', rfl, hle, -⟩ := mem_newVars ht
      exact absurd hle (Nat.not_le.2 (Nat.lt_succ_of_le (Ty.mem_freeVars_var.1 hn).ge))

/-- New variables stand for themselves. -/
theorem found_newVars (hs : s.Unkinded) (rs : List Range) :
    Found s.next (s.skip rs.length) (newVars s.next rs) := by
  have happly : ∀ t ∈ newVars s.next rs, s.solver.subst.apply t = t := by
    intro t ht
    obtain ⟨v, r, rfl, hle, -⟩ := mem_newVars ht
    exact Substitution.apply_var_of_none (hs.wf.fresh v hle).1
  refine ⟨fun t ht => ?_, fun t ht => ?_, ⟨fun t ht => ?_, ?_⟩⟩
  · obtain ⟨v, r, rfl, -, hlt⟩ := mem_newVars ht
    exact .var hlt r
  · obtain ⟨v, r, rfl, hle, -⟩ := mem_newVars ht
    exact fun w hw => (Ty.mem_freeVars_var.1 hw).symm ▸ hle
  · obtain ⟨v, r, rfl, -⟩ := mem_newVars ht
    exact (happly _ ht).symm ▸ .var v r
  · have hvars : s.solver.varsOf (newVars s.next rs) = (newVars s.next rs).flatMap Ty.freeVars :=
      List.flatMap_congr fun t ht => by rw [happly t ht]
    exact hvars.symm ▸ nodup_freeVars_newVars s.next rs

theorem exists_ground_newVars (θ : Assignment) (n : TypeVar) (rs : List Range) (τs : List GroundTy)
    (hlength : τs.length = rs.length) :
    ∃ θ' : Assignment, (∀ v < n, θ' v = θ v) ∧ (newVars n rs).map (Ty.ground θ') = τs := by
  induction rs generalizing θ n τs with
  | nil => exact ⟨θ, fun _ _ => rfl, (List.length_eq_zero_iff.1 hlength).symm⟩
  | cons r rs ih =>
      obtain ⟨τ, τs, rfl⟩ := List.exists_cons_of_length_eq_add_one hlength
      obtain ⟨θ', hsame, hτs⟩ := ih (Function.update θ n τ) (n + 1) τs (Nat.succ.inj hlength)
      refine ⟨θ', fun v hv => ?_, congrArg₂ List.cons ?_ hτs⟩
      · rw [hsame v (Nat.lt_succ_of_lt hv), Function.update_of_ne (Nat.ne_of_lt hv)]
      · exact (hsame n (Nat.lt_succ_self n)).trans (Function.update_self n τ θ)

theorem ground_lookup {params : List TypeVar} {args : List Ty} {v : TypeVar} (hv : v ∈ params)
    (hmeans : args.map (Ty.ground θ) = params.map θ') (r : Range) :
    (((params.zip args).lookup v).getD (.var v r)).ground θ = θ' v := by
  induction params generalizing args with
  | nil => exact absurd hv List.not_mem_nil
  | cons p params ih =>
      obtain ⟨u, args, rfl, hu, hmeans⟩ := List.map_eq_cons_iff.1 hmeans
      rw [List.zip_cons_cons, List.lookup_cons]
      by_cases hvp : v = p
      · subst hvp
        simpa using hu
      · have hne : (v == p) = false := by simpa using hvp
        rw [hne]
        exact ih ((List.mem_cons.1 hv).resolve_left hvp) hmeans

/-- With arguments for its parameters the type means what it means where the parameters mean the
same. -/
theorem ground_instantiateParams {params : List TypeVar} {args : List Ty} (ht : t.Simple True)
    (hvars : ∀ v ∈ t.freeVars, v ∈ params) (hargs : ∀ u ∈ args, u.Simple True)
    (hapart : ApartFrom params args) (hmeans : args.map (Ty.ground θ) = params.map θ') :
    (t.instantiateParams params args).ground θ = t.ground θ' := by
  rw [ht.instantiateParams_eq hargs hapart]
  refine ht.ground_mapVars fun v hv r => ?_
  rw [if_neg List.not_mem_nil]
  exact ground_lookup (hvars v hv) hmeans r

/-- What a use of a constructor asks of its arguments: types over the new variables, which mean what
the types of the arguments mean. -/
theorem instantiateArgs_newVars {c : Constructor} {name : String} (hs : s.Unkinded)
    (hc : s.variants.constructor? name = some c) (rs : List Range)
    (hlength : rs.length = c.params.length)
    (hmeans : (newVars s.next rs).map (Ty.ground θ) = c.params.map θ') :
    (∀ t ∈ c.instantiateArgs (newVars s.next rs), t.Simple True ∧
      ∀ v ∈ t.freeVars, ∃ x ∈ newVars s.next rs, v ∈ x.freeVars) ∧
    (c.instantiateArgs (newVars s.next rs)).map (Ty.ground θ) = c.args.map (Ty.ground θ') := by
  have hvars : ∀ u ∈ newVars s.next rs, u.Simple True := by
    intro u hu
    obtain ⟨v, r, rfl, -⟩ := mem_newVars hu
    exact .var v r
  have hargs := hs.wf.variants.args name c hc
  have hapart : ApartFrom c.params (newVars s.next rs) := by
    intro u hu v hv hmem
    obtain ⟨w, r, rfl, hle, -⟩ := mem_newVars hu
    obtain rfl : v = w := List.mem_singleton.1 hmem
    exact absurd ((hs.wf.variants.params name c hc).2 v hv) (Nat.not_lt.2 hle)
  constructor
  · intro u hu
    obtain ⟨t, ht, rfl⟩ := List.mem_map.1 hu
    refine (hargs t ht).1.instantiateParams (V := fun v => ∃ x ∈ newVars s.next rs, v ∈ x.freeVars)
      (fun v hv => Or.inl ((hargs t ht).2 v hv)) (by rw [length_newVars, hlength]) fun x hx => ?_
    exact ⟨hvars x hx, fun v hv => ⟨x, hx, hv⟩⟩
  · rw [Constructor.instantiateArgs, List.map_map]
    exact List.map_congr_left fun t ht =>
      ground_instantiateParams (hargs t ht).1 (hargs t ht).2 hvars hapart hmeans

/-- The arguments of a constructor are accepted as they are written. -/
theorem gains_inferArgs {types : List Ty} {args : List Value} {arg : Option Expr} {name : String}
    {ctor : Ident} {r : Range} (wrong : Check (List Core)) (hs : s.Unkinded) (henv : s.variants = env)
    (hθ : s.solver.SolvedBy θ) (hn : n ≤ s.next) (hclosed : s.solver.Closed (n ≤ ·))
    (hts : Found n s ts) (htypes : ∀ t ∈ types, t.Simple True ∧
      ∀ v ∈ t.freeVars, ∃ x ∈ ts, v ∈ x.freeVars)
    (hlength : args.length = types.length)
    (hargs : ∀ p ∈ args.zip (types.map (Ty.ground θ)), ∀ e, p.1.Written e →
      Elaborates env p.1 p.2 e)
    (hwritten : (Value.construct name args).Written (.construct ctor arg r)) :
    Gains n (inferArgs Γ types wrong arg) o s θ fun cores s' _ =>
      cores = Value.cores args ∧ Found n s' ts := by
  cases hwritten with
  | constant =>
      obtain rfl := List.length_eq_zero_iff.1 hlength.symm
      rw [inferArgs]
      exact gains_pure hs hθ ⟨rfl, hts⟩
  | @single v e _ _ hv =>
      obtain ⟨t, rfl⟩ := List.length_eq_one_iff.1 hlength.symm
      obtain ⟨ht, hcover⟩ := htypes t List.mem_cons_self
      have harg := hargs (v, t.ground θ) List.mem_cons_self e hv
      rw [inferArgs]
      refine harg.against (k := fun core => pure [core]) hs henv hθ hn hclosed hts ht hcover rfl
        fun s₁ θ₁ hadv hts₁ => ?_
      exact gains_pure hadv.unkinded hadv.solved ⟨rfl, hts₁⟩
  | @several _ es _ _ _ htwo hes =>
      have hagainst := gains_inferAgainst (Γ := Γ) (o := o) hs henv hθ hn hclosed hts htypes hlength
        hargs hes
      have hsame : es.length = types.length := hes.length_eq.symm.trans hlength
      rcases types with _ | ⟨t, _ | ⟨t', types⟩⟩
      · exact absurd (htwo.trans_eq hlength) (by decide)
      · exact absurd (htwo.trans_eq hlength) (Nat.not_le.2 (Nat.lt_succ_self 1))
      · rw [inferArgs, if_pos hsame]
        · exact hagainst
        all_goals simp

/-! ### Data -/

theorem elaborates_literal (l : Literal) {b : BaseTy} {r : Range}
    (htype : literalType l r = .base b r)
    (hcore : v.core = .literal l) : Elaborates env v (.base b) (.literal l r) := by
  intro Γ o s θ hs henv hθ
  rw [infer]
  refine gains_pure hs hθ ⟨hcore.symm, ?_, by rw [htype]; rfl⟩
  rw [htype]
  exact (found_nil s.next s).single (.base b r) (by simp) (.base b r) rfl

theorem elaborates_list (hitems : ∀ v ∈ items, ∀ e, v.Written e → Elaborates env v τ e)
    (hes : List.Forall₂ Value.Written items es) (r : Range) :
    Elaborates env (.list items) (.list τ) (.list es r) := by
  intro Γ o s θ hs henv hθ
  have hsame : ∀ v < s.next, Function.update θ s.next τ v = θ v := fun v hv =>
    Function.update_of_ne (Nat.ne_of_lt hv) τ θ
  have hadv : Advances s.next s θ (s.skip 1) (Function.update θ s.next τ) :=
    .of_idle hs hθ (s.idle_skip 1) hsame
  have helem := found_newVars hs [r]
  have hmeans : (Ty.var s.next r).ground (Function.update θ s.next τ) = τ := by
    rw [Ty.ground, Function.update_self]
  rw [infer]
  refine .after (fresh_apply r o s) hadv ?_
  refine (gains_inferAll hadv.unkinded henv hadv.solved (Nat.le_succ _)
    (hadv.closed hs.closed_next) helem hmeans hitems hes).bind ?_
  rintro cores s₂ θ₂ hadv₂ ⟨hcores, helem₂⟩
  refine gains_pure hadv₂.unkinded hadv₂.solved ⟨congrArg _ hcores, helem₂.list r, ?_⟩
  have hground := hadv₂.ground_eq (helem.known _ List.mem_cons_self)
  exact congrArg _ (hground.trans hmeans)

theorem elaborates_tuple {τs : List GroundTy} (hlength : items.length = τs.length)
    (hitems : ∀ p ∈ items.zip τs, ∀ e, p.1.Written e → Elaborates env p.1 p.2 e)
    (hes : List.Forall₂ Value.Written items es) (r : Range) :
    Elaborates env (.tuple items) (.product τs) (.tuple es r) := by
  intro Γ o s θ hs henv hθ
  rw [infer]
  refine (gains_inferEach hs henv hθ hlength hitems hes).bind ?_
  rintro ⟨cores, ts⟩ s₁ θ₁ hadv ⟨hcores, hts, hground⟩
  refine gains_pure hadv.unkinded hadv.solved ⟨congrArg _ hcores, hts.product r, ?_⟩
  rw [Ty.ground_product, hground]

theorem elaborates_record {fields : List (String × Value)} {τs : List (String × GroundTy)}
    {es : List (Ident × Expr)} (hsorted : Fields.Sorted fields)
    (hnames : Fields.names fields = Fields.names τs)
    (hitems : ∀ p ∈ fields.zip τs, ∀ e, p.1.2.Written e → Elaborates env p.1.2 p.2.2 e)
    (hes : es.map (·.1.text) = Fields.names fields)
    (hfields : List.Forall₂ Value.Written (fields.map (·.2)) (es.map (·.2))) (r : Range) :
    Elaborates env (.record fields) (.record τs) (.record es r) := by
  intro Γ o s θ hs henv hθ
  have hlength : fields.length = τs.length := by
    simpa [Fields.names] using congrArg List.length hnames
  have hparts : ∀ p ∈ (fields.map (·.2)).zip (τs.map (·.2)), ∀ e, p.1.Written e →
      Elaborates env p.1 p.2 e := by
    rw [List.zip_map]
    intro p hp e he
    obtain ⟨q, hq, rfl⟩ := List.mem_map.1 hp
    exact hitems q hq e he
  obtain ⟨⟨cores, ts⟩, s₁, θ₁, hrun, hadv, hcores, hts, hground⟩ :=
    gains_inferEach (Γ := Γ) (o := o) hs henv hθ (by simpa using hlength) hparts hfields
  have hstart : (Fields.names ([] : List (String × Ty)) ++
      es.map (·.1.text)).Pairwise (· < ·) := by
    rw [hes]
    exact hsorted
  have hrun' := inferFields_of_inferEach hstart hrun
  dsimp only at hcores hts hground
  have hcount : ts.length = (Fields.names fields).length := by
    have hsize := congrArg List.length hground
    simpa [Fields.names, hlength] using hsize
  rw [hes, List.nil_append] at hrun'
  rw [infer]
  refine .after hrun' hadv (gains_pure hadv.unkinded hadv.solved ⟨?_, ?_, ?_⟩)
  · rw [Value.core, Value.fieldCores_eq_zip, ← hcores]
  · refine Found.record ?_ ?_ r
    · rwa [List.map_snd_zip (Nat.le_of_eq hcount)]
    · refine (Fields.sorted_congr ?_).2 hsorted
      exact List.map_fst_zip (Nat.le_of_eq hcount.symm)
  · have hzip : (Fields.names τs).zip (τs.map (·.2)) = τs := by
      rw [Fields.names, List.zip_map', List.map_id']
    rw [hnames, Ty.ground_record]
    refine congrArg _ (Eq.trans ?_ hzip)
    rw [← hground, List.zip_map_right]
    rfl

/-- The expression is accepted as the constructor with its arguments. -/
theorem elaborates_construct {name : String} {c : Constructor} {args : List Value}
    (hctor : env.constructor? name = some c) (harity : args.length = c.args.length)
    (hargs : ∀ p ∈ args.zip c.args, ∀ e, p.1.Written e → Elaborates env p.1 (p.2.ground θ') e)
    {ctor : Ident} {arg : Option Expr} {r : Range}
    (hwritten : (Value.construct name args).Written (.construct ctor arg r))
    (hname : ctor.text = name) :
    Elaborates env (.construct name args) (.variant c.variant (c.params.map θ'))
      (.construct ctor arg r) := by
  intro Γ o s θ hs henv hθ
  have hc : s.variants.constructor? ctor.text = some c := by rw [henv, hname, hctor]
  let rs := c.params.map fun _ => ctor.range
  obtain ⟨θ₁, hsame, hmeans⟩ := exists_ground_newVars θ s.next rs (c.params.map θ') (by simp [rs])
  have hadv : Advances s.next s θ (s.skip rs.length) θ₁ := .of_idle hs hθ (s.idle_skip _) hsame
  have hvars := found_newVars hs rs
  obtain ⟨htypes, hground⟩ := instantiateArgs_newVars hs hc rs (by simp [rs]) hmeans
  rw [infer]
  refine .after (instantiateConstructor_apply hc) hadv ?_
  have hall : ∀ p ∈ args.zip ((c.instantiateArgs (newVars s.next rs)).map (Ty.ground θ₁)), ∀ e,
      p.1.Written e → Elaborates env p.1 p.2 e := by
    rw [hground, List.zip_map_right]
    intro p hp e he
    obtain ⟨q, hq, rfl⟩ := List.mem_map.1 hp
    exact hargs q hq e he
  have hcores := gains_inferArgs (Γ := Γ) (o := o) (fail (.constructorArity ctor.text
    (c.instantiateArgs (newVars s.next rs)).length (givenArgs arg)) r) hadv.unkinded henv hadv.solved
    (Nat.le_add_right _ _) (hadv.closed hs.closed_next) hvars htypes
    (by simp [Constructor.instantiateArgs, harity]) hall hwritten
  refine hcores.bind ?_
  rintro cores s₂ θ₂ hadv₂ ⟨rfl, hvars₂⟩
  refine gains_pure hadv₂.unkinded hadv₂.solved ⟨by rw [hname]; rfl, hvars₂.variant _ r, ?_⟩
  rw [Ty.withRange, Ty.ground_variant, ← hmeans]
  exact congrArg _ (List.map_congr_left fun t ht => hadv₂.ground_eq (hvars.known t ht))

end Check

/-- Data in writing is accepted. -/
theorem Value.IsData.elaborates {env : VariantEnv} {v : Value} {e : Expr} {τ : GroundTy}
    (h : v.IsData env τ) (hwritten : v.Written e) : Elaborates env v τ e := by
  induction h generalizing e with
  | unit =>
      cases hwritten
      exact elaborates_literal .unit rfl rfl
  | bool b =>
      cases hwritten
      exact elaborates_literal (.bool b) rfl rfl
  | int n =>
      cases hwritten
      exact elaborates_literal (.int n) rfl rfl
  | string text =>
      cases hwritten
      exact elaborates_literal (.string text) rfl rfl
  | list _ ih =>
      cases hwritten with
      | list r hes => exact elaborates_list (fun v hv e he => ih v hv he) hes r
  | tuple hlength _ ih =>
      cases hwritten with
      | tuple r hes => exact elaborates_tuple hlength (fun p hp e he => ih p hp he) hes r
  | record hsorted hnames _ ih =>
      cases hwritten with
      | record r hes hfields =>
          exact elaborates_record hsorted hnames (fun p hp e he => ih p hp he) hes hfields r
  | construct _ hctor harity _ ih =>
      obtain ⟨ctor, arg, r, rfl, hname⟩ := hwritten.eq_construct
      exact elaborates_construct hctor harity (fun p hp e he => ih p hp he) hwritten hname

end FieldML
