import FieldML.Primitive
import FieldML.Proofs.Check.State

/-!
# Steps of a check

Handing out variables, comparing types and opening quantified types keep what holds in every state
of a check.
-/

namespace FieldML

open Unify Check

variable {n : TypeVar} {t : Ty} {k : Kind}

namespace CheckState

variable {s : CheckState} {h : TypeVar → Nat}

/-- The state after a variable of this kind was handed out. -/
def give (s : CheckState) : Kind → CheckState
  | .universal => { s with next := s.next + 1 }
  | .record fs =>
      { s with
        next := s.next + 1
        solver := { s.solver with kinds := s.solver.kinds.refine s.next (.record fs) }
        kinded := (s.next, .record fs) :: s.kinded }

/-- The state after two types were compared. -/
def learn (s : CheckState) (o : CheckOptions) (solver : Solver) : CheckState :=
  { s with
    solver := solver
    compared := solver.compared ++ s.compared
    events := comparisonEvents o solver.compared ++ s.events }

@[simp] theorem next_give (s : CheckState) (k : Kind) : (s.give k).next = s.next + 1 := by
  cases k <;> rfl

@[simp] theorem variants_give (s : CheckState) (k : Kind) : (s.give k).variants = s.variants := by
  cases k <;> rfl

@[simp] theorem subst_give (s : CheckState) (k : Kind) :
    (s.give k).solver.subst = s.solver.subst := by
  cases k <;> rfl

@[simp] theorem compared_give (s : CheckState) (k : Kind) : (s.give k).compared = s.compared := by
  cases k <;> rfl

theorem leads_give (s : CheckState) (k : Kind) : s.Leads (s.give k) where
  next := by simp
  compared := by simp
  kinded := by
    cases k with
    | universal => exact fun _ h => h
    | record fs => exact fun _ h => List.mem_cons_of_mem _ h
  variants := variants_give s k

theorem lt_next_give {v : TypeVar} (hv : v < s.next) : v < (s.give k).next := by
  rw [next_give]
  exact Nat.lt_succ_of_lt hv

theorem kindOf_of_none {s : Solver} {v : TypeVar} (h : s.kinds.kinds[v]? = none) :
    s.kindOf v = .universal := by
  rw [Solver.kindOf, KindEnv.kindOf, Std.TreeMap.getD_eq_getD_getElem?, h, Option.getD_none]

theorem Wf.kindOf_give (hs : s.Wf) (k : Kind) (v : TypeVar) :
    (s.give k).solver.kindOf v = if v = s.next then k else s.solver.kindOf v := by
  cases k with
  | universal =>
      have hnext := kindOf_of_none (hs.fresh s.next (Nat.le_refl _)).2
      by_cases hv : v = s.next
      · rw [if_pos hv, hv]
        exact hnext
      · rw [if_neg hv]
        rfl
  | record fs =>
      have hrefine := KindEnv.kindOf_refine s.solver.kinds s.next v (.record fs)
      rw [if_congr (eq_comm (a := v)) rfl rfl]
      exact hrefine

theorem Wf.give (hs : s.Wf) (hk : k.Known s.next) : (s.give k).Wf where
  simple := by
    refine ⟨?_, fun v => ?_⟩
    · rw [subst_give]
      exact hs.simple.subst
    · rw [hs.kindOf_give]
      split
      · exact hk.simple
      · exact hs.simple.kind v
  closed := by
    refine ⟨fun v t hv ht => ?_, fun v hv p hp => ?_⟩
    · rw [subst_give] at ht
      have hlt : v < s.next := by
        by_contra hge
        rw [(hs.fresh v (Nat.le_of_not_lt hge)).1] at ht
        simp at ht
      exact (hs.closed.binding v t hlt ht).mono fun w hw => lt_next_give hw
    · rw [hs.kindOf_give] at hp
      split at hp
      · exact (hk.below p hp).mono fun w hw => lt_next_give hw
      · next hne =>
          rw [next_give] at hv
          have hle : v ≤ s.next := Nat.le_of_lt_succ hv
          exact (hs.closed.kind v (Nat.lt_of_le_of_ne hle hne) p hp).mono fun w hw =>
            lt_next_give hw
  fresh v hv := by
    rw [next_give] at hv
    have hlt : s.next < v := hv
    obtain ⟨hsubst, hkind⟩ := hs.fresh v (Nat.le_of_lt hlt)
    refine ⟨by rw [subst_give, hsubst], ?_⟩
    cases k with
    | universal => exact hkind
    | record fs =>
        have hne : s.next ≠ v := Nat.ne_of_lt hlt
        simp [CheckState.give, KindEnv.refine, Std.TreeMap.getElem?_insert, hne, hkind]
  variants := by
    rw [variants_give, next_give]
    exact hs.variants.mono (Nat.le_succ _)
  steady h hlevel := by
    obtain ⟨htri, hrank⟩ := hs.steady h ((leads_give s k).levelled hlevel)
    refine ⟨by rw [subst_give]; exact htri, fun v t hv => ?_, fun v p hp => ?_⟩
    · rw [subst_give] at hv
      exact hrank.binding v t hv
    · rw [hs.kindOf_give] at hp
      split at hp
      · next hv =>
          subst hv
          cases k with
          | universal => simp [Kind.fields] at hp
          | record fs => exact hlevel.kinded (_, .record fs) List.mem_cons_self p hp
      · exact hrank.kind v p hp

theorem leads_learn (s : CheckState) (o : CheckOptions) (solver : Solver) :
    s.Leads (s.learn o solver) :=
  ⟨Nat.le_refl _, fun _ hp => List.mem_append_right _ hp, fun _ hp => hp, rfl⟩

theorem Levelled.solver {o : CheckOptions} {solver : Solver}
    (hlevel : (s.learn o solver).Levelled h) : AllEven h solver.compared :=
  hlevel.compared.subset fun _ hp => List.mem_append_left _ hp

/-- Comparing two types in a state leaves it as it should be. -/
theorem Wf.learn {o : CheckOptions} {a b : Ty} {i : Nat} {solver : Solver} (hs : s.Wf)
    (ha : a.Known s.next) (hb : b.Known s.next)
    (hrun : Runs i s.solver.forget [(a, b)] none solver) : (s.learn o solver).Wf := by
  have hps : AllSimple True [(a, b)] := by simp [AllSimple, ha.simple, hb.simple]
  have hsimple : s.solver.forget.Simple True := hs.simple.forget
  have hclosed : s.solver.forget.Closed (· < s.next) := ⟨hs.closed.binding, hs.closed.kind⟩
  obtain ⟨hclosed', hsame⟩ := hrun.region hsimple hps hclosed
    (by simp [AllInside, ha.below, hb.below])
  refine ⟨hrun.simple hsimple hps, hclosed', fun v hv => ?_, hs.variants, fun h hlevel => ?_⟩
  · obtain ⟨hsubst, hkind⟩ := hsame v (Nat.not_lt.2 hv)
    obtain ⟨hfree, hnone⟩ := hs.fresh v hv
    exact ⟨hsubst.trans hfree, hkind.trans hnone⟩
  · obtain ⟨htri, hrank⟩ := hs.steady h ((leads_learn s o solver).levelled hlevel)
    obtain ⟨N, hN⟩ := exists_allBelow h [(a, b)]
    have hadv := hrun.advance (h := h) ⟨htri, hsimple.kind⟩ hps ⟨hrank.binding, hrank.kind⟩ hN
      hlevel.solver
    exact ⟨hadv.proper.triangular, hadv.ranked⟩

end CheckState

/-- The state after one more remark. -/
def CheckState.remark (s : CheckState) (w : Warning) : CheckState :=
  { s with warnings := w :: s.warnings, events := .warned w.message :: s.events }

namespace Check

variable {α : Type} {o : CheckOptions} {s s' : CheckState} {Q : α → CheckState → Prop}

@[simp] theorem pure_apply (a : α) : (pure a : Check α) o s = (.ok a, s) := rfl

@[simp] theorem read_apply : (read : Check CheckOptions) o s = (.ok o, s) := rfl

@[simp] theorem get_apply : (get : Check CheckState) o s = (.ok s, s) := rfl

@[simp] theorem modify_apply (f : CheckState → CheckState) :
    (modify f : Check Unit) o s = (.ok (), f s) := rfl

theorem fresh_apply (range : Range) (o : CheckOptions) (s : CheckState) :
    fresh range o s = (.ok (.var s.next range), s.give .universal) := rfl

theorem freshId_apply (o : CheckOptions) (s : CheckState) :
    freshId o s = (.ok s.next, s.give .universal) := rfl

theorem freshKinded_apply (hs : s.Wf) (kind : Kind) (range : Range) :
    freshKinded kind range o s = (.ok (.var s.next range), s.give kind) := by
  cases kind with
  | universal => rfl
  | record fs =>
      have hnone : s.solver.kinds.kinds.contains s.next = false := by
        rw [Std.TreeMap.contains_eq_isSome_getElem?, (hs.fresh s.next (Nat.le_refl _)).2]
        rfl
      have hextend : (s.give .universal).solver.kinds.extend s.next (.record fs) =
          .ok (s.solver.kinds.refine s.next (.record fs)) := by
        simp [CheckState.give, KindEnv.extend, KindEnv.refine, hnone]
      simp only [freshKinded, bind_apply, freshId_apply, get_apply, hextend, modify_apply,
        pure_apply]
      rfl

theorem forM_warn {β : Type} (l : List β) (f : β → Warning) (o : CheckOptions) (s : CheckState) :
    (l.forM fun b => warn (f b)) o s = (.ok (), (l.map f).foldl CheckState.remark s) := by
  induction l generalizing s with
  | nil => rfl
  | cons b l ih =>
      rw [List.forM_eq_forM, List.forM_cons, bind_apply]
      exact ih (s.remark (f b))

theorem keeps_freshKinded (hs : s.Wf) (hk : k.Known s.next) (range : Range) :
    Keeps (freshKinded k range) o s fun t s' => t = .var s.next range ∧ s' = s.give k := by
  unfold Keeps
  rw [freshKinded_apply hs]
  exact ⟨s.leads_give k, hs.give hk, rfl, rfl⟩

theorem unify_apply (a b : Ty) (range : Range) (o : CheckOptions) (s : CheckState) :
    unify a b range o s = ((s.solver.unify a b).1.mapError fun c => ⟨.contradiction c, range⟩,
      s.learn o (s.solver.unify a b).2) := by
  simp only [unify, bind_apply, read_apply, get_apply, modify_apply]
  rcases s.solver.unify a b with ⟨c | ⟨⟩, solver⟩ <;> rfl

theorem keeps_unify {a b : Ty} (hs : s.Wf) (ha : a.Known s.next) (hb : b.Known s.next)
    (range : Range) : Keeps (unify a b range) o s fun _ s' => s'.next = s.next := by
  obtain ⟨r, solver, hrun, hunify⟩ := Solver.unify_runs hs.simple ha.simple hb.simple
  unfold Keeps
  rw [unify_apply, hunify]
  cases r with
  | none => exact ⟨s.leads_learn o solver, hs.learn ha hb hrun, rfl⟩
  | some e =>
      refine ⟨s.leads_learn o _, ⟨⟨hs.simple.subst, hs.simple.kind⟩,
        ⟨hs.closed.binding, hs.closed.kind⟩, hs.fresh, hs.variants, fun h hlevel => ?_⟩, ?_⟩
      · obtain ⟨htri, hrank⟩ := hs.steady h ((s.leads_learn o _).levelled hlevel)
        exact ⟨htri, hrank.binding, hrank.kind⟩
      · rintro ⟨c, hc, hreason⟩ h hlevel
        obtain rfl : s.solver.contradiction e a b = c := by simpa using hc
        obtain rfl : e = .outOfFuel := hreason
        obtain ⟨htri, hrank⟩ := hs.steady h ((s.leads_learn o _).levelled hlevel)
        exact Runs.ne_outOfFuel_of_ranked (s := s.solver.forget) (h := h) hrun
          ⟨htri, hs.simple.kind⟩ ha.simple hb.simple ⟨hrank.binding, hrank.kind⟩ hlevel.solver rfl

end Check

end FieldML

/-! ## Where a check starts

A check starts above every variable of its environments, with nothing bound and nothing compared.
The environments that every program starts from are closed. -/

namespace FieldML

/-- The declared types are in order, no variable has a kind yet, and the types of all names lie
below the first variable that a check hands out. -/
structure Environments.Wf (env : Environments) : Prop where
  variants : env.variants.Known (Check.start env.variants env.kinds env.types).next
  kinds : env.kinds = .empty
  types : TypeEnv.Known (Check.start env.variants env.kinds env.types).next env.types

namespace Check

variable {variants : VariantEnv} {types : TypeEnv}

theorem find?_start (v : TypeVar) : (start variants .empty types).solver.subst.find? v = none := by
  simp [start, Substitution.find?]

theorem kindOf_start (v : TypeVar) :
    (start variants .empty types).solver.kindOf v = .universal := by
  simp [start, KindEnv.empty, Solver.kindOf, KindEnv.kindOf]

/-- Without kinds a check may start from any declared types that are in order. -/
theorem wf_start (hvariants : variants.Known (start variants .empty types).next) :
    (start variants .empty types).Wf := by
  have hkinds : ∀ v : TypeVar, (start variants .empty types).solver.kinds.kinds[v]? = none := by
    intro v
    simp [start, KindEnv.empty]
  refine ⟨⟨fun v t hv => ?_, fun v => ?_⟩, ⟨fun v t _ hv => ?_, fun v _ p hp => ?_⟩,
    fun v _ => ⟨find?_start v, hkinds v⟩, hvariants, fun h _ => ⟨⟨fun v t hv => ?_, ?_⟩, ?_⟩⟩
  · simp [find?_start] at hv
  · rw [kindOf_start]
    exact Kind.simple_universal
  · simp [find?_start] at hv
  · simp [kindOf_start, Kind.fields] at hp
  · simp [find?_start] at hv
  · exact ⟨fun _ => 0, fun v t hv => by simp [find?_start] at hv⟩
  · exact ⟨fun v t hv => by simp [find?_start] at hv,
      fun v p hp => by simp [kindOf_start, Kind.fields] at hp⟩

end Check

theorem CheckState.Wf.start {env : Environments} (henv : env.Wf) :
    (Check.start env.variants env.kinds env.types).Wf := by
  have hvariants := henv.variants
  rw [henv.kinds] at hvariants ⊢
  exact Check.wf_start hvariants

namespace Primitive

theorem known_arrow {n : TypeVar} {params : List Ty} {result : Ty}
    (hparams : ∀ t ∈ params, t.Known n) (hresult : result.Known n) :
    (arrow params result).Known n := by
  unfold arrow
  induction params with
  | nil => exact hresult
  | cons t ts ih =>
      exact (hparams t List.mem_cons_self).func
        (ih fun u hu => hparams u (List.mem_cons_of_mem _ hu)) range

theorem scheme_polymorphic {n v : TypeVar} {body : Ty → Ty} (hv : v < n)
    (hbody : (body (.var v range)).Known n) : (polymorphic v body).Scheme n :=
  .all range hv Kind.known_universal (.plain hbody)

/-- The types of primitives use the variables below the one of `option`. -/
theorem scheme_type (p : Primitive) : p.type.Scheme 4 := by
  have hbase : ∀ b, (base b).Known 4 := fun b => .base b range
  have hvar : ∀ v < 4, (Ty.var v range).Known 4 := fun v hv => .var hv range
  cases p
  case eq | ne =>
    rw [type]
    refine scheme_polymorphic (by decide) (known_arrow (fun t ht => ?_) (hbase _))
    simp only [List.mem_cons, List.not_mem_nil, or_false, or_self] at ht
    exact ht ▸ hvar _ (by decide)
  case cons =>
    have hlist := (hvar 2 (by decide)).list range
    rw [type]
    refine scheme_polymorphic (by decide) (known_arrow (fun t ht => ?_) hlist)
    simp only [List.mem_cons, List.not_mem_nil, or_false] at ht
    rcases ht with rfl | rfl
    · exact hvar 2 (by decide)
    · exact hlist
  case listLength =>
    rw [type]
    refine scheme_polymorphic (by decide) (known_arrow (fun t ht => ?_) (hbase _))
    exact List.mem_singleton.1 ht ▸ (hvar 3 (by decide)).list range
  all_goals exact .plain (known_arrow (by simp [hbase]) (hbase _))

end Primitive

theorem known_initialVariantEnv : initialVariantEnv.Known 5 := by
  have hctors : ∀ name c, initialVariantEnv.constructor? name = some c →
      (name, c) ∈ initialVariantEnv.constructors := fun _ _ h => Fields.mem_of_get? h
  refine ⟨⟨fun name params body h => ?_, fun name c h t ht => ?_, fun name c h => ?_⟩,
    fun name c h => ?_⟩
  · have hmem : (name, TypeDefinition.synonym params body) ∈ initialVariantEnv.definitions :=
      Fields.mem_of_get? h
    simp [initialVariantEnv] at hmem
  · rcases List.mem_cons.1 (hctors name c h) with heq | hmem
    · obtain ⟨-, rfl⟩ := Prod.mk.inj heq
      simp at ht
    · obtain ⟨-, rfl⟩ := Prod.mk.inj (List.mem_singleton.1 hmem)
      obtain rfl := List.mem_singleton.1 ht
      exact ⟨.var 4 _, fun v hv => List.mem_singleton.2 (Ty.mem_freeVars_var.1 hv)⟩
  · rcases List.mem_cons.1 (hctors name c h) with heq | hmem
    · obtain ⟨rfl, rfl⟩ := Prod.mk.inj heq
      exact ⟨["None", "Some"], rfl, by simp⟩
    · obtain ⟨rfl, rfl⟩ := Prod.mk.inj (List.mem_singleton.1 hmem)
      exact ⟨["None", "Some"], rfl, by simp⟩
  · rcases List.mem_cons.1 (hctors name c h) with heq | hmem
    · obtain ⟨-, rfl⟩ := Prod.mk.inj heq
      exact ⟨by simp, by simp⟩
    · obtain ⟨-, rfl⟩ := Prod.mk.inj (List.mem_singleton.1 hmem)
      exact ⟨by simp, by simp⟩

theorem wf_initialEnvironments : initialEnvironments.Wf := by
  refine ⟨known_initialVariantEnv.mono (by decide +kernel), rfl, ?_⟩
  rintro ⟨name, t⟩ hp
  obtain ⟨p, -, heq⟩ := List.mem_map.1 (Fields.mem_of_mem_ofList hp)
  obtain ⟨-, rfl⟩ := Prod.mk.inj heq
  exact p.scheme_type.mono (by decide +kernel)

end FieldML
