import FieldML.Proofs.Check.Order
import FieldML.Proofs.Check.Scheme

/-!
# Generalized types

A generalized type mentions no variables but those of the environment, exactly if no variable that
is quantified leads back to itself through kinds.
-/

namespace FieldML

open Check

/-- The free variables of a quantified type. A kind is in the scope of the quantifiers outside its
own. -/
def Ty.openVars : Ty → List TypeVar
  | .all v k t _ => k.freeVars ++ t.openVars.filter (· ≠ v)
  | t => t.freeVars

namespace Ty

variable {syn : Prop} {t : Ty} {v w : TypeVar} {bound : List TypeVar} {n : TypeVar}

theorem Simple.openVars_eq (ht : t.Simple syn) : t.openVars = t.freeVars := by
  cases ht <;> rfl

theorem Simple.mem_freeVars_of_under (ht : t.Simple syn) (hv : v ∈ t.freeVarsUnder bound) :
    v ∈ t.freeVars := by
  induction ht with
  | base b r => exact hv
  | var w r =>
      simp only [freeVarsUnder] at hv
      split at hv
      · simp at hv
      · simpa using hv
  | func r hp hq ihp ihq =>
      exact mem_freeVars_func.2 ((List.mem_append.1 hv).imp ihp ihq)
  | list r ht ih => exact ih hv
  | ref r ht ih => exact ih hv
  | product r hts ih =>
      obtain ⟨t, ht, hv⟩ := mem_freeVarsOfList.1 hv
      exact mem_freeVars_product.2 ⟨t, ht, ih t ht hv⟩
  | variant n r hts ih =>
      obtain ⟨t, ht, hv⟩ := mem_freeVarsOfList.1 hv
      exact mem_freeVars_variant.2 ⟨t, ht, ih t ht hv⟩
  | synonym n r hsyn hts ht hvars ihts iht =>
      obtain ⟨t, ht, hv⟩ := mem_freeVarsOfList.1 hv
      exact mem_freeVars_synonym.2 ⟨t, ht, ihts t ht hv⟩
  | record r hsorted hfs ih =>
      obtain ⟨p, hp, hv⟩ := mem_freeVarsOfFields.1 hv
      exact mem_freeVars_record.2 ⟨p, hp, ih p hp hv⟩

/-- A replacement that stays below `n` keeps the free variables of a scheme below `n`. -/
theorem Scheme.freeVars_mapVars_lt {f : Replacement} (ht : t.Scheme n)
    (hsimple : ∀ bound v r, (f bound v r).Simple True)
    (hplace : ∀ bound v r r' w, w ∈ (f bound v r).freeVars → w ∈ (f bound v r').freeVars)
    (hf : ∀ bound v r, v < n → (f bound v r).Inside (· < n)) :
    ∀ w ∈ (t.mapVars f bound).freeVarsUnder bound, w < n := by
  have hplain : ∀ bound (t : Ty), t.Known n →
      ∀ w ∈ (t.mapVars f bound).freeVarsUnder bound, w < n := by
    intro bound t ht w hw
    have hmap := ht.simple.mapVars (fun v _ r => hsimple bound v r) (hplace bound)
    obtain ⟨v, hv, r, hw⟩ :=
      ht.simple.exists_of_mem_freeVars_mapVars (hmap.mem_freeVars_of_under hw)
    exact hf bound v r (ht.below v hv) w hw
  induction ht generalizing bound with
  | plain ht => exact hplain bound _ ht
  | @all v k t r hv hk ht ih =>
      intro w hw
      rcases List.mem_append.1 hw with hw | hw
      · cases k with
        | universal => simp [Kind.mapVars, Kind.freeVarsUnder] at hw
        | record fs =>
            rw [Kind.mapVars, mapVarsFields_eq_map, Kind.freeVarsUnder, mem_freeVarsOfFields] at hw
            obtain ⟨_, hmem, hw⟩ := hw
            obtain ⟨p, hp, rfl⟩ := List.mem_map.1 hmem
            exact hplain _ _ ⟨hk.simple.2 p hp, hk.below p hp⟩ w hw
      · exact ih w hw

end Ty

namespace CheckState

variable {s : CheckState} {env : TypeEnv} {t : Ty} {v w : TypeVar} {vars : List TypeVar}

/-- The kind of a variable, as far as is known. -/
def kind (s : CheckState) (v : TypeVar) : Kind := s.solver.subst.applyKind (s.solver.kindOf v)

/-- The second variable is mentioned in the kind of the first one. -/
abbrev KindStep (s : CheckState) (v w : TypeVar) : Prop := TypeVar.Step (kindVars s) v w

theorem mem_kindVars : w ∈ kindVars s v ↔ ∃ p ∈ (s.kind v).fields, w ∈ p.2.freeVars := by
  rw [kindVars, TypeVar.mem_ascending]
  exact Kind.mem_freeVars

namespace Wf

theorem kindVars_lt (hs : s.Wf) (hv : v < s.next) (hw : w ∈ kindVars s v) : w < s.next := by
  obtain ⟨p, hp, hw⟩ := mem_kindVars.1 hw
  exact (hs.applyKind hv).below p hp w hw

theorem closedUnderKinds (hs : s.Wf) (hvars : ∀ v ∈ vars, v < s.next) :
    vars ⊆ closedUnderKinds s vars ∧
      ∀ v ∈ closedUnderKinds s vars, ∀ w ∈ kindVars s v, w ∈ closedUnderKinds s vars := by
  have hnext : ∀ u < s.next, ∀ x ∈ kindVars s u, x < s.next := fun _ hu _ hx =>
    hs.kindVars_lt hu hx
  obtain ⟨hsub, hstep⟩ := TypeVar.reach_closed (n := s.next) hnext List.nodup_nil (by simp) hvars
    (by simp) (by simp)
  exact ⟨fun v hv => hsub v (by simpa using hv), hstep⟩

theorem lt_of_mem_closedUnderKinds (hs : s.Wf) (hvars : ∀ v ∈ vars, v < s.next)
    (hv : v ∈ Check.closedUnderKinds s vars) : v < s.next := by
  rcases TypeVar.exists_of_mem_reach hv with hv | ⟨u, hu, hchain⟩
  · simp at hv
  · clear hv
    induction hchain with
    | refl => exact hvars u hu
    | tail _ hstep ih => exact hs.kindVars_lt ih hstep

/-- The variables of a scheme in the environment are below the variables that are handed out
next. -/
theorem freeVars_apply_lt (hs : s.Wf) (ht : t.Scheme s.next) :
    ∀ w ∈ (s.solver.subst.apply t).freeVars, w < s.next :=
  ht.freeVars_mapVars_lt (fun bound v r => hs.simple.subst.follow bound _ v r)
    (fun _ _ r r' _ => Substitution.mem_freeVars_follow _ r r')
    fun bound _ r hv => hs.closed.follow hs.simple.subst bound _ r hv

theorem envVars (hs : s.Wf) (henv : TypeEnv.Known s.next env) :
    (∀ v ∈ envVars s env, v < s.next) ∧
      ∀ v ∈ Check.envVars s env, ∀ w ∈ kindVars s v, w ∈ Check.envVars s env := by
  refine ⟨fun v hv => hs.lt_of_mem_closedUnderKinds ?hvars hv, (hs.closedUnderKinds ?hvars).2⟩
  intro v hv
  obtain ⟨⟨name, t⟩, hmem, hv⟩ := List.mem_flatMap.1 hv
  exact hs.freeVars_apply_lt (henv _ hmem) v hv

end Wf

/-- The variables that generalizing a type quantifies. -/
def quantified (s : CheckState) (env : TypeEnv) (t : Ty) : List TypeVar :=
  quantifiable s env (s.solver.subst.apply t)

/-- The generalized type of an expression. -/
def scheme (s : CheckState) (env : TypeEnv) (t : Ty) : Ty :=
  quantify s (TypeVar.orderBy (kindVars s) (s.quantified env t)) (s.solver.subst.apply t)

theorem mem_quantified : v ∈ s.quantified env t ↔
    v ∈ closedUnderKinds s (s.solver.subst.apply t).freeVars ∧ v ∉ envVars s env := by
  simp [quantified, quantifiable]

/-- What a quantified type mentions: variables of the type, and variables of the kinds that are not
quantified outside them. -/
theorem mem_openVars_quantify (ht : t.Simple True) :
    v ∈ (quantify s vars t).openVars ↔ v ∈ t.freeVars ∧ v ∉ vars ∨
      ∃ before u after, vars = before ++ u :: after ∧ v ∈ kindVars s u ∧ v ∉ before := by
  induction vars with
  | nil => simp [quantify, ht.openVars_eq]
  | cons u vars ih =>
      have hcons : v ∈ (quantify s (u :: vars) t).openVars ↔
          v ∈ kindVars s u ∨ v ∈ (quantify s vars t).openVars ∧ v ≠ u := by
        simp [quantify, Ty.openVars, kindVars]
      rw [hcons, ih]
      constructor
      · rintro (hu | ⟨⟨ht, hvars⟩ | ⟨before, x, after, rfl, hx, hbefore⟩, hne⟩)
        · exact Or.inr ⟨[], u, vars, rfl, hu, by simp⟩
        · exact Or.inl ⟨ht, by simp [hne, hvars]⟩
        · exact Or.inr ⟨u :: before, x, after, rfl, hx, by simp [hne, hbefore]⟩
      · rintro (⟨ht, hvars⟩ | ⟨before, x, after, heq, hx, hbefore⟩)
        · simp only [List.mem_cons, not_or] at hvars
          exact Or.inr ⟨Or.inl ⟨ht, hvars.2⟩, hvars.1⟩
        · cases before with
          | nil =>
              obtain ⟨rfl, -⟩ := List.cons.inj heq
              exact Or.inl hx
          | cons y before =>
              obtain ⟨rfl, rfl⟩ := List.cons.inj heq
              simp only [List.mem_cons, not_or] at hbefore
              exact Or.inr ⟨Or.inr ⟨before, x, after, rfl, hx, hbefore.2⟩, hbefore.1⟩

namespace Wf

/-- A step from a quantifiable variable leads to one, or into the environment. -/
theorem quantified_step (hs : s.Wf) (ht : t.Known s.next) (hv : v ∈ s.quantified env t)
    (hw : s.KindStep v w) : w ∈ s.quantified env t ∨ w ∈ Check.envVars s env := by
  rw [mem_quantified] at hv ⊢
  by_cases hmem : w ∈ Check.envVars s env
  · exact Or.inr hmem
  · exact Or.inl ⟨(hs.closedUnderKinds (hs.apply ht).below).2 v hv.1 w hw, hmem⟩

/-- The environment is never left through kinds. -/
theorem mem_envVars_of_chain (hs : s.Wf) (henv : TypeEnv.Known s.next env)
    (hv : v ∈ Check.envVars s env) (hchain : Relation.ReflTransGen s.KindStep v w) :
    w ∈ Check.envVars s env := by
  induction hchain with
  | refl => exact hv
  | tail _ hstep ih => exact (hs.envVars henv).2 _ ih _ hstep

/-- A quantifiable variable that leads to a quantifiable one does so through such variables only. -/
theorem quantified_of_chain (hs : s.Wf) (henv : TypeEnv.Known s.next env) (ht : t.Known s.next)
    {u : TypeVar} (hv : v ∈ s.quantified env t) (hw : w ∈ s.quantified env t)
    (hstep : s.KindStep v u) (hchain : Relation.ReflTransGen s.KindStep u w) :
    u ∈ s.quantified env t := by
  refine (hs.quantified_step ht hv hstep).resolve_right fun hu => ?_
  exact (mem_quantified.1 hw).2 (hs.mem_envVars_of_chain henv hu hchain)

end Wf

/-- None of the variables leads back to itself through kinds. -/
def Acyclic (s : CheckState) (vars : List TypeVar) : Prop :=
  ∀ v ∈ vars, ¬Relation.TransGen s.KindStep v v

namespace Wf

/-- Unless a quantifiable variable leads back to itself, everything that a scheme mentions is
quantified or belongs to the environment. -/
theorem mem_envVars_of_mem_openVars (hs : s.Wf) (ht : t.Known s.next)
    (hacyclic : s.Acyclic (s.quantified env t))
    (hv : v ∈ (s.scheme env t).openVars) : v ∈ Check.envVars s env := by
  have ht' := hs.apply ht
  have hclosed := hs.closedUnderKinds ht'.below
  have hsettled := TypeVar.settled_orderBy hacyclic
  have hout : ∀ w ∈ Check.closedUnderKinds s (s.solver.subst.apply t).freeVars,
      w ∉ s.quantified env t → w ∈ Check.envVars s env := by
    intro w hw hnot
    by_contra hmem
    exact hnot (mem_quantified.2 ⟨hw, hmem⟩)
  rcases (mem_openVars_quantify ht'.simple).1 hv with ⟨hv, hnot⟩ | ⟨before, u, after, heq, hv, hnot⟩
  · exact hout v (hclosed.1 hv) fun hmem => hnot (TypeVar.mem_orderBy.2 hmem)
  · have hu : u ∈ s.quantified env t :=
      TypeVar.mem_orderBy.1 (heq ▸ List.mem_append_right _ List.mem_cons_self)
    refine hout v (hclosed.2 u (mem_quantified.1 hu).1 v hv) fun hmem => ?_
    exact hnot (hsettled before u after heq v hv hmem)

/-- If a quantifiable variable leads back to itself, the scheme mentions a quantifiable variable. -/
theorem exists_mem_openVars (hs : s.Wf) (henv : TypeEnv.Known s.next env) (ht : t.Known s.next)
    (hv : v ∈ s.quantified env t)
    (hcycle : Relation.TransGen s.KindStep v v) :
    ∃ w ∈ (s.scheme env t).openVars, w ∈ s.quantified env t := by
  classical
  have ht' := hs.apply ht
  let onCycle : TypeVar → Bool := fun w =>
    decide (Relation.TransGen s.KindStep v w ∧ Relation.TransGen s.KindStep w v)
  -- The outermost quantifier on the cycle: its kind mentions the next variable of the cycle.
  have hsome : ((TypeVar.orderBy (kindVars s)
      (s.quantified env t)).find? onCycle).isSome :=
    List.find?_isSome.2 ⟨v, TypeVar.mem_orderBy.2 hv, by simp [onCycle, hcycle]⟩
  obtain ⟨u, hu⟩ := Option.isSome_iff_exists.1 hsome
  obtain ⟨hon, before, after, heq, hbefore⟩ := List.find?_eq_some_iff_append.1 hu
  obtain ⟨hto, hfrom⟩ : Relation.TransGen s.KindStep v u ∧ Relation.TransGen s.KindStep u v := by
    simpa [onCycle] using hon
  obtain ⟨w, hstep, hchain⟩ := Relation.TransGen.head'_iff.1 hfrom
  have huq : u ∈ s.quantified env t :=
    TypeVar.mem_orderBy.1 (heq ▸ List.mem_append_right _ List.mem_cons_self)
  have hwq := hs.quantified_of_chain henv ht huq hv hstep hchain
  refine ⟨w, (mem_openVars_quantify ht'.simple).2 (Or.inr ⟨before, u, after, heq, hstep, ?_⟩), hwq⟩
  intro hmem
  have hwon : onCycle w = true := by
    simp only [onCycle, decide_eq_true_eq]
    exact ⟨hto.tail hstep, .trans_right hchain hcycle⟩
  simpa [hwon] using hbefore w hmem

/-- A scheme mentions only variables of the environment, exactly if none of the variables that are
quantified in it leads back to itself. -/
theorem openVars_scheme_iff (hs : s.Wf) (henv : TypeEnv.Known s.next env) (ht : t.Known s.next) :
    (∀ v ∈ (s.scheme env t).openVars, v ∈ Check.envVars s env) ↔
      s.Acyclic (s.quantified env t) := by
  constructor
  · intro hclosed v hv hcycle
    obtain ⟨w, hopen, hw⟩ := hs.exists_mem_openVars henv ht hv hcycle
    exact (mem_quantified.1 hw).2 (hclosed w hopen)
  · exact fun hacyclic v hv => hs.mem_envVars_of_mem_openVars ht hacyclic hv

end Wf

theorem generalize_apply (t : Ty) (env : TypeEnv) (o : CheckOptions) (s : CheckState) :
    ∃ events, generalize t env o s = (.ok (s.scheme env t), { s with events := events }) := by
  simp only [generalize, bind_apply, get_apply]
  split
  · next hempty =>
      refine ⟨s.events, ?_⟩
      rw [scheme, quantified, List.isEmpty_iff.1 hempty]
      rfl
  · exact ⟨_, rfl⟩

theorem quantified_lt (hs : s.Wf) (ht : t.Known s.next) (hv : v ∈ s.quantified env t) :
    v < s.next :=
  hs.lt_of_mem_closedUnderKinds (hs.apply ht).below (mem_quantified.1 hv).1

end CheckState

end FieldML

/-! ## Copies of quantified types

Opening the quantifiers of a type, where every kind mentions only variables that are quantified
outside it, renames the quantified variables in the type and in their kinds. -/

namespace FieldML

open Check

/-- Some variables give way to others, which all stem from one place. -/
def Replacement.renaming (vars : List TypeVar) (ρ : TypeVar → TypeVar) (range : Range) :
    Replacement := fun _ v r =>
  if v ∈ vars then .var (ρ v) range else .var v r

namespace Check

variable {o : CheckOptions} {s s' s₁ s₂ s₃ : CheckState} {K : TypeVar → Kind}
  {vars : List TypeVar} {ρ : TypeVar → TypeVar} {range r : Range} {t u : Ty} {v w : TypeVar}
  {bound : List TypeVar} {env : TypeEnv}

/-- The type with a quantifier for each variable, which has a given kind, the first one outermost. -/
def quantifyWith (K : TypeVar → Kind) (r : Range) (vars : List TypeVar) (t : Ty) : Ty :=
  vars.foldr (fun v body => .all v (K v) body r) t

theorem quantify_eq (s : CheckState) (vars : List TypeVar) (t : Ty) :
    quantify s vars t = quantifyWith s.kind t.range vars t := rfl

theorem quantifiers_quantifyWith {syn : Prop} (ht : t.Simple syn) :
    quantifiers (quantifyWith K r vars t) = vars.length := by
  induction vars with
  | nil => exact quantifiers_eq_zero ht
  | cons v vars ih => exact congrArg (· + 1) ih

/-- A variable that is not quantified gives way below the quantifiers. -/
theorem substitute_quantifyWith (ht : t.Simple True) (hK : ∀ w ∈ vars, (K w).Simple True)
    (hv : v ∉ vars) (hbound : v ∉ bound) :
    (quantifyWith K r vars t).mapVars (.single v u) bound =
      quantifyWith (fun w => (K w).substitute v u) r vars (t.substitute v u) := by
  induction vars generalizing bound with
  | nil =>
      exact ht.mapVars_congr fun w _ r => by simp [Replacement.single, hbound]
  | cons w vars ih =>
      simp only [List.mem_cons, not_or] at hv
      have hbound' : v ∉ w :: bound := by simp [hv.1, hbound]
      have hkind : (K w).mapVars (.single v u) (w :: bound) = (K w).substitute v u :=
        (hK w List.mem_cons_self).mapVars_congr fun x _ r => by
          simp only [Replacement.single, hbound', List.not_mem_nil]
      change Ty.all w ((K w).mapVars _ (w :: bound))
        ((quantifyWith K r vars t).mapVars _ (w :: bound)) r = _
      rw [hkind, ih (fun x hx => hK x (List.mem_cons_of_mem _ hx)) hv.2 hbound']
      rfl

/-- Variables were handed out as copies of some variables: one for each, of the same kind as far as
the copies correspond, while nothing else changed. -/
structure Copied (vars : List TypeVar) (K : TypeVar → Kind) (ρ : TypeVar → TypeVar)
    (range : Range) (s s' : CheckState) : Prop where
  injective : ∀ v ∈ vars, ∀ w ∈ vars, ρ v = ρ w → v = w
  fresh : ∀ v ∈ vars, s.next ≤ ρ v ∧ ρ v < s'.next
  onto : ∀ w, s.next ≤ w → w < s'.next → ∃ v ∈ vars, ρ v = w
  kind : ∀ v ∈ vars, s'.solver.kindOf (ρ v) = (K v).mapVars (.renaming vars ρ range) []
  older : ∀ v < s.next, s'.solver.kindOf v = s.solver.kindOf v
  subst : s'.solver.subst = s.solver.subst

/-- Renaming one variable and then others is renaming all of them. -/
theorem renaming_single (hw : w ∉ vars) (x : TypeVar) (r : Range) :
    (Replacement.single v (.var w range) [] x r).mapVars (.renaming vars ρ range) [] =
      Replacement.renaming (v :: vars) (fun y => if y = v then w else ρ y) range [] x r := by
  by_cases hx : x = v
  · subst hx
    simp [Replacement.single, Replacement.renaming, Ty.mapVars, hw]
  · simp [Replacement.single, Replacement.renaming, Ty.mapVars, hx]

/-- Opening quantifiers makes copies of their variables, if every kind mentions only variables that
are quantified outside it. -/
theorem openQuantifiers_copies (o : CheckOptions) (range : Range) (hs : s.Wf)
    (hnodup : vars.Nodup) (hvars : ∀ v ∈ vars, v < s.next)
    (hK : ∀ v ∈ vars, (K v).Known s.next) (ht : t.Known s.next)
    (hsettled : ∀ before v after, vars = before ++ v :: after →
      ∀ w ∈ (K v).freeVars, w ∉ v :: after) :
    ∃ ρ s', openQuantifiers range vars.length (quantifyWith K r vars t) o s =
        (.ok (t.mapVars (.renaming vars ρ range) []), s') ∧
      Copied vars K ρ range s s' ∧ s.Leads s' ∧ s'.Wf := by
  induction vars generalizing s K t with
  | nil =>
      refine ⟨id, s, ?_, ⟨by simp, by simp, fun w hle hlt => absurd hlt (Nat.not_lt.2 hle),
        by simp, fun _ _ => rfl, rfl⟩, .refl s, hs⟩
      have hself : t.mapVars (.renaming [] id range) [] = t :=
        ht.simple.mapVars_eq_self fun v _ r => by simp [Replacement.renaming]
      rw [hself]
      rfl
  | cons v vars ih =>
      obtain ⟨hv, hnodup⟩ := List.nodup_cons.1 hnodup
      have hKv := hK v List.mem_cons_self
      have hs₁ := hs.give hKv
      have hlead := s.leads_give (K v)
      have hvar : (Ty.var s.next range).Known (s.give (K v)).next :=
        .var (by rw [CheckState.next_give]; exact Nat.lt_succ_self _) range
      have hnew : s.next ∉ vars := fun hmem =>
        Nat.lt_irrefl _ (hvars _ (List.mem_cons_of_mem _ hmem))
      -- The kinds and the type in which the first variable has been renamed.
      obtain ⟨ρ, s', hopen, hcopied, hlead', hs'⟩ := ih (s := s.give (K v))
        (K := fun w => (K w).substitute v (.var s.next range))
        (t := t.substitute v (.var s.next range)) hs₁ hnodup
        (fun w hw => (hvars w (List.mem_cons_of_mem _ hw)).trans_le hlead.next)
        (fun w hw => ((hK w (List.mem_cons_of_mem _ hw)).mono hlead.next).mapVars_single hvar)
        ((ht.mono hlead.next).mapVars_single hvar)
        (by
          rintro before u after rfl x hx hmem
          have hu : (K u).Simple True := (hK u (by simp)).simple
          obtain ⟨p, hp, hx⟩ := Kind.mem_freeVars.1 hx
          rw [Kind.substitute, Kind.fields_mapVars] at hp
          obtain ⟨q, hq, rfl⟩ := List.mem_map.1 hp
          rcases (hu.2 q hq).mem_freeVars_mapVars_single hx with hx | ⟨hx, -⟩
          · obtain rfl := Ty.mem_freeVars_var.1 hx
            exact hnew (List.mem_append_right _ hmem)
          · exact hsettled (v :: before) u after rfl x (Kind.mem_freeVars.2 ⟨q, hq, hx⟩) hmem)
      let ρ' : TypeVar → TypeVar := fun w => if w = v then s.next else ρ w
      have hρ : ∀ w ∈ vars, ρ' w = ρ w := by
        rintro w hw
        have hne : w ≠ v := by
          rintro rfl
          exact hv hw
        exact if_neg hne
      have hρfresh : ∀ w ∈ vars, s.next < ρ w := by
        intro w hw
        have := (hcopied.fresh w hw).1
        rwa [CheckState.next_give] at this
      refine ⟨ρ', s', ?_, ⟨?_, ?_, ?_, ?_, ?_, ?_⟩, hlead.trans hlead', hs'⟩
      · have hmap : (t.substitute v (.var s.next range)).mapVars (.renaming vars ρ range) [] =
            t.mapVars (.renaming (v :: vars) ρ' range) [] := by
          rw [Ty.substitute, ht.simple.mapVars_mapVars]
          exact ht.simple.mapVars_congr fun x _ r => renaming_single hnew x r
        rw [← hmap, ← hopen]
        change
          openQuantifiers range (vars.length + 1) (.all v (K v) (quantifyWith K r vars t) r) o s = _
        rw [openQuantifiers, bind_apply, freshKinded_apply hs]
        change openQuantifiers range vars.length ((quantifyWith K r vars t).mapVars _ []) o _ = _
        rw [substitute_quantifyWith ht.simple
          (fun w hw => (hK w (List.mem_cons_of_mem _ hw)).simple) hv (by simp)]
      · intro x hx y hy heq
        have hρv : ρ' v = s.next := if_pos rfl
        rcases List.mem_cons.1 hx with hxv | hx' <;> rcases List.mem_cons.1 hy with hyv | hy'
        · exact hxv.trans hyv.symm
        · rw [hρ y hy', hxv, hρv] at heq
          exact absurd heq (Nat.ne_of_lt (hρfresh y hy'))
        · rw [hρ x hx', hyv, hρv] at heq
          exact absurd heq.symm (Nat.ne_of_lt (hρfresh x hx'))
        · rw [hρ x hx', hρ y hy'] at heq
          exact hcopied.injective x hx' y hy' heq
      · intro x hx
        rcases List.mem_cons.1 hx with rfl | hx
        · rw [show ρ' x = s.next from if_pos rfl]
          exact ⟨Nat.le_refl _, hvar.below _ (by simp) |>.trans_le hlead'.next⟩
        · rw [hρ x hx]
          exact ⟨Nat.le_of_lt (hρfresh x hx), (hcopied.fresh x hx).2⟩
      · intro w hle hlt
        rcases Nat.eq_or_lt_of_le hle with rfl | hgt
        · exact ⟨v, List.mem_cons_self, if_pos rfl⟩
        · have hle' : (s.give (K v)).next ≤ w := by
            rw [CheckState.next_give]
            exact hgt
          obtain ⟨x, hx, rfl⟩ := hcopied.onto w hle' hlt
          exact ⟨x, List.mem_cons_of_mem _ hx, hρ x hx⟩
      · intro x hx
        rcases List.mem_cons.1 hx with rfl | hx
        · rw [show ρ' x = s.next from if_pos rfl, hcopied.older _ (hvar.below _ (by simp)),
            hs.kindOf_give, if_pos rfl]
          refine (hKv.simple.mapVars_eq_self fun w hw r => ?_).symm
          exact if_neg (hsettled [] x vars rfl w hw)
        · rw [hρ x hx, hcopied.kind x hx, Kind.substitute,
            (hK x (List.mem_cons_of_mem _ hx)).simple.mapVars_mapVars]
          exact (hK x (List.mem_cons_of_mem _ hx)).simple.mapVars_congr fun y _ r =>
            renaming_single hnew y r
      · intro x hx
        rw [hcopied.older x (hx.trans_le hlead.next), hs.kindOf_give,
          if_neg (Nat.ne_of_lt hx)]
      · rw [hcopied.subst, CheckState.subst_give]

end Check

end FieldML
