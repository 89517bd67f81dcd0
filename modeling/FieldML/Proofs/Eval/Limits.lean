import FieldML.Proofs.Eval.Quiet
import FieldML.Text.Graphemes

/-!
# Limits only cut off

More steps and more levels never change what an evaluation does as long as it does not run out of
them: it ends in the same way and leaves the same store. The steps that an evaluation needs are the
entries into expressions, so they can be counted on a run that pays nothing for them.
-/

namespace FieldML

variable {α β : Type}

/-- The run ended because of a limit. -/
def EvalError.IsCut : EvalError → Prop
  | .fuelExhausted | .tooDeep _ => True
  | _ => False

/-- At most as many steps; without a number there is no limit. -/
def FuelLe (fuel fuel' : Option Nat) : Prop := ∀ n' ∈ fuel', ∃ n ∈ fuel, n ≤ n'

instance : LE EvalLimits := ⟨fun l l' => FuelLe l.fuel l'.fuel ∧ l.depth ≤ l'.depth⟩

/-- The same machine, with at least as many steps left. -/
def Machine.FuelLe (m m' : Machine) : Prop :=
  ∃ fuel, m' = m.withFuel fuel ∧ FieldML.FuelLe m.fuel fuel

namespace Eval

/-! ### Running with more -/

/-- With as many steps or more, `q` does what `p` does, unless `p` is cut off. -/
def Covers (p q : Eval α) : Prop :=
  ∀ m m' : Machine, m.FuelLe m' → (∃ e, e.IsCut ∧ (p m).1 = .error e) ∨
    (p m).1 = (q m').1 ∧ (p m).2.FuelLe (q m').2

theorem covers_of_quiet {p : Eval α} (hp : Quiet p) : Covers p p := by
  rintro m _ ⟨fuel, rfl, hle⟩
  have hrun := (hp m).2 m.fuel
  rw [Machine.withFuel_fuel] at hrun
  rw [(hp m).2 fuel]
  refine .inr ⟨rfl, fuel, rfl, ?_⟩
  rw [hrun]
  exact hle

theorem Covers.bind {p q : Eval α} {k l : α → Eval β} (hp : Covers p q)
    (hk : ∀ a, Covers (k a) (l a)) : Covers (p >>= k) (q >>= l) := by
  intro m m' hm
  simp only [bind_run]
  rcases hrun : p m with ⟨r, m₁⟩
  rcases hrun' : q m' with ⟨r', m₁'⟩
  have h := hp m m' hm
  rw [hrun, hrun'] at h
  rcases h with ⟨e, hcut, he⟩ | ⟨hr, hm₁⟩
  · obtain rfl : r = .error e := he
    exact .inl ⟨e, hcut, rfl⟩
  · obtain rfl : r = r' := hr
    cases r with
    | error e => exact .inr ⟨rfl, hm₁⟩
    | ok a => exact hk a m₁ m₁' hm₁

theorem respected_covers : Respected fun {_} => Covers := ⟨covers_of_quiet, Covers.bind⟩

theorem spend_none (m : Machine) : spend (m.withFuel none) = (.ok (), m.withFuel none) := rfl

theorem spend_zero (m : Machine) :
    spend (m.withFuel (some 0)) = (.error .fuelExhausted, m.withFuel (some 0)) := rfl

theorem covers_spend : Covers spend spend := by
  rintro m _ ⟨fuel', rfl, hle⟩
  obtain ⟨fuel, hfuel⟩ : ∃ fuel, fuel = m.fuel := ⟨_, rfl⟩
  rw [← m.withFuel_fuel, ← hfuel, Machine.withFuel_withFuel]
  rw [← hfuel] at hle
  match fuel, fuel' with
  | some 0, _ => exact .inl ⟨.fuelExhausted, trivial, congrArg Prod.fst (spend_zero m)⟩
  | none, none => exact .inr ⟨rfl, none, rfl, hle⟩
  | none, some n' =>
      obtain ⟨n, hn, -⟩ := hle n' rfl
      cases hn
  | some (n + 1), none => exact .inr ⟨rfl, none, rfl, nofun⟩
  | some (n + 1), some 0 =>
      obtain ⟨_, ⟨⟩, hn⟩ := hle 0 rfl
      exact absurd hn (Nat.not_succ_le_zero n)
  | some (n + 1), some (n' + 1) =>
      obtain ⟨_, ⟨⟩, hn⟩ := hle _ rfl
      refine .inr ⟨rfl, some n', rfl, ?_⟩
      rintro _ ⟨⟩
      exact ⟨n, rfl, Nat.le_of_succ_le_succ hn⟩

/-- More levels cover fewer. -/
theorem covers_atLevel [Text.Segmentation] (limit limit' : Nat) {left left' : Nat}
    (h : left ≤ left') (scope : Scope)
    (e : Core) : Covers (atLevel limit left scope e) (atLevel limit' left' scope e) := by
  induction left generalizing left' scope e with
  | zero =>
      -- Without a level left, the run is cut off whether or not a step is left.
      intro m m' _
      rw [atLevel, ← m.withFuel_fuel]
      generalize m.fuel = fuel
      rcases fuel with _ | _ | n
      · exact .inl ⟨.tooDeep limit, trivial, rfl⟩
      · exact .inl ⟨.fuelExhausted, trivial, rfl⟩
      · exact .inl ⟨.tooDeep limit, trivial, rfl⟩
  | succ left ih =>
      obtain ⟨left', rfl⟩ := Nat.exists_eq_add_of_le' h
      simp only [atLevel, onLevel_eq]
      exact covers_spend.bind fun _ =>
        respected_covers.node (ih (Nat.le_add_left left left')) scope e

/-! ### Counting entries -/

/-- The evaluation of `atLevel`, with `enter` done at every entry. -/
def entering [Text.Segmentation] (enter : Eval Unit) (limit : Nat) : Nat → Evaluator
  | 0 => fun _ _ => do
      enter
      throw (.tooDeep limit)
  | left + 1 => fun scope e => do
      enter
      node (entering enter limit left) scope e

theorem entering_spend [Text.Segmentation] (limit left : Nat) :
    entering spend limit left = atLevel limit left := by
  induction left with
  | zero => rfl
  | succ left ih =>
      funext scope e
      simp only [entering, atLevel, onLevel_eq, ih]

/-- Counts one more entry instead of taking a step. -/
def tick : Eval Unit := modify fun m => m.withFuel (m.fuel.map (· + 1))

/-- `p` counts the steps that `q` takes, and `q` needs exactly so many. -/
def Meters (p q : Eval α) : Prop :=
  ∀ m : Machine, ∃ (r : Except EvalError α) (m' : Machine) (n : Nat), r ≠ .error .fuelExhausted ∧
    (∀ k, p (m.withFuel (some k)) = (r, m'.withFuel (some (k + n)))) ∧
    q (m.withFuel none) = (r, m'.withFuel none) ∧
    (∀ k, q (m.withFuel (some (n + k))) = (r, m'.withFuel (some k))) ∧
    ∀ k < n, (q (m.withFuel (some k))).1 = .error .fuelExhausted

theorem meters_of_quiet {p : Eval α} (hp : Quiet p) : Meters p p := by
  intro m
  obtain ⟨hne, hrun⟩ := hp m
  refine ⟨(p m).1, (p m).2, 0, hne, fun k => hrun _, hrun _, fun k => ?_, nofun⟩
  rw [Nat.zero_add]
  exact hrun _

theorem Meters.bind {p q : Eval α} {k l : α → Eval β} (hp : Meters p q)
    (hk : ∀ a, Meters (k a) (l a)) : Meters (p >>= k) (q >>= l) := by
  intro m
  obtain ⟨r, m₁, n, hne, hcount, hfree, hpaid, hshort⟩ := hp m
  simp only [bind_run, hcount, hfree]
  cases r with
  | error e =>
      refine ⟨.error e, m₁, n, fun h => hne (congrArg _ (Except.error.inj h)), fun _ => rfl, rfl,
        fun j => by rw [hpaid], fun j hj => ?_⟩
      rcases hrun : q (m.withFuel (some j)) with ⟨r', m'⟩
      have hcut := hshort j hj
      rw [hrun] at hcut
      obtain rfl : r' = .error .fuelExhausted := hcut
      rfl
  | ok a =>
      obtain ⟨r, m₂, n', hne', hcount', hfree', hpaid', hshort'⟩ := hk a m₁
      refine ⟨r, m₂, n + n', hne', fun j => ?_, hfree', fun j => ?_, fun j hj => ?_⟩
      · exact (hcount' (j + n)).trans (by rw [Nat.add_assoc])
      · rw [Nat.add_assoc, hpaid]
        exact hpaid' j
      · rcases Nat.lt_or_ge j n with hlt | hge
        · rcases hrun : q (m.withFuel (some j)) with ⟨r', m'⟩
          have hcut := hshort j hlt
          rw [hrun] at hcut
          obtain rfl : r' = .error .fuelExhausted := hcut
          rfl
        · -- The first part is paid for, and too little is left for the second.
          obtain ⟨i, rfl⟩ := Nat.exists_eq_add_of_le hge
          rw [hpaid]
          exact hshort' i (Nat.lt_of_add_lt_add_left hj)

theorem respected_meters : Respected fun {_} => Meters := ⟨meters_of_quiet, Meters.bind⟩

theorem meters_tick : Meters tick spend := fun m =>
  ⟨.ok (), m, 1, nofun, fun _ => rfl, rfl,
    fun k => by rw [Nat.add_comm]; rfl,
    fun k hk => by obtain rfl : k = 0 := Nat.lt_one_iff.1 hk; rfl⟩

/-- Counted entries are the steps that the evaluation takes. -/
theorem meters_entering [Text.Segmentation] (limit left : Nat) (scope : Scope) (e : Core) :
    Meters (entering tick limit left scope e) (entering spend limit left scope e) := by
  induction left generalizing scope e with
  | zero => exact meters_tick.bind fun _ => meters_of_quiet (quiet_throw (by simp))
  | succ left ih => exact meters_tick.bind fun _ => respected_meters.node ih scope e

end Eval

section Limits

variable [Text.Segmentation]

/-- The evaluation without a limit on steps that counts entries into expressions, from `n` on. -/
def Machine.count (m : Machine) (depth : Nat) (scope : Scope) (e : Core) (n : Nat) :
    Except EvalError Value × Machine :=
  Eval.entering Eval.tick depth depth scope e (m.withFuel (some n))

/-- How many expressions the evaluation without a limit on steps enters. -/
def Machine.entries (m : Machine) (depth : Nat) (scope : Scope) (e : Core) : Nat :=
  (m.count depth scope e 0).2.fuel.getD 0

theorem Machine.evaluate_eq (m : Machine) (limits : EvalLimits) (scope : Scope) (e : Core) :
    m.evaluate limits scope e =
      Eval.atLevel limits.depth limits.depth scope e (m.withFuel limits.fuel) := rfl

/-- Limits only cut an evaluation off. Under higher limits, an evaluation that was not cut off ends
in the same way with the same store; and a limit on the steps cuts off exactly the evaluations that
enter more expressions than that without the limit. -/
theorem limits_only_cut_off (m : Machine) (scope : Scope) (e : Core) :
    (∀ l l' : EvalLimits, l ≤ l' →
      (∃ cause, cause.IsCut ∧ (m.evaluate l scope e).1 = .error cause) ∨
      (m.evaluate l' scope e).1 = (m.evaluate l scope e).1 ∧
        ∃ fuel, (m.evaluate l' scope e).2 = (m.evaluate l scope e).2.withFuel fuel) ∧
    (∀ depth, (m.count depth scope e 0).1 = (m.evaluate ⟨none, depth⟩ scope e).1 ∧
      (m.count depth scope e 0).2.withFuel none = (m.evaluate ⟨none, depth⟩ scope e).2 ∧
      ∀ fuel, (m.evaluate ⟨some fuel, depth⟩ scope e).1 = .error .fuelExhausted ↔
        fuel < m.entries depth scope e) := by
  constructor
  · rintro l l' ⟨hfuel, hdepth⟩
    simp only [Machine.evaluate_eq]
    have hstart : (m.withFuel l.fuel).FuelLe (m.withFuel l'.fuel) := ⟨l'.fuel, rfl, hfuel⟩
    rcases Eval.covers_atLevel l.depth l'.depth hdepth scope e _ _ hstart with
      hcut | ⟨hresult, fuel, hstore, -⟩
    · exact .inl hcut
    · exact .inr ⟨hresult.symm, fuel, hstore⟩
  · intro depth
    have hmeters := Eval.meters_entering depth depth scope e
    rw [Eval.entering_spend] at hmeters
    obtain ⟨r, m', n, hne, hcount, hfree, hpaid, hshort⟩ := hmeters m
    have hrun : m.count depth scope e 0 = (r, m'.withFuel (some n)) := by
      rw [Machine.count, hcount, Nat.zero_add]
    have hentries : m.entries depth scope e = n := by
      rw [Machine.entries, hrun]
      rfl
    rw [hrun, hentries, Machine.evaluate_eq, hfree]
    refine ⟨rfl, rfl, fun fuel => ⟨fun hcut => ?_, fun hlt => hshort fuel hlt⟩⟩
    by_contra hge
    obtain ⟨k, rfl⟩ := Nat.exists_eq_add_of_le (Nat.le_of_not_lt hge)
    rw [Machine.evaluate_eq, hpaid] at hcut
    exact hne hcut

end Limits

theorem limits_only_cut_off_identityCall :
    let e : Core := .apply (.lambda "x" (.base .int default) (.var "x")) (.literal (.int 7))
    let m : Machine := {}
    (⟨some 4, 2⟩ : EvalLimits) ≤ ⟨none, 30000⟩ ∧
      (m.evaluate ⟨none, 30000⟩ [] e).1 = .ok (.int 7) ∧
      (m.evaluate ⟨some 3, 2⟩ [] e).1 = .error .fuelExhausted := by
  intro e m
  have hle : (⟨some 4, 2⟩ : EvalLimits) ≤ ⟨none, 30000⟩ := ⟨nofun, by decide⟩
  have hrun : (m.evaluate ⟨some 4, 2⟩ [] e).1 = .ok (.int 7) := rfl
  obtain ⟨hmore, hcount⟩ := limits_only_cut_off m [] e
  refine ⟨hle, ?_, (hcount 2).2.2 3 |>.2 ?_⟩
  · rcases hmore _ _ hle with ⟨cause, hcut, hfail⟩ | ⟨hsame, -⟩
    · rw [hrun] at hfail
      cases hfail
    · exact hsame.trans hrun
  · have hentries : m.entries 2 [] e = 4 := rfl
    rw [hentries]
    decide

end FieldML
