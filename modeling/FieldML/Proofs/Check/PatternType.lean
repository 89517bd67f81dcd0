import FieldML.Proofs.Check.Pattern
import FieldML.Proofs.Coverage.Matrix
import FieldML.Proofs.Unify.Skeleton

/-!
# Patterns fit the type they are checked against

Every head in a pattern that is accepted against a type is one that values of the type in its place
may have, whatever is found out about the type later.
-/

namespace FieldML

open Check Unify

section Instances

variable {σ : Substitution} {params : List TypeVar} {args : List Ty} {t : Ty}

/-- Replacing parameters one after the other is replacing them at once where no argument mentions a
parameter. -/
theorem bare_instantiateParams (ht : t.Simple True)
    (hargs : ∀ u ∈ args, u.Simple True ∧ ∀ v ∈ u.freeVars, v ∉ params) :
    σ.bare (t.instantiateParams params args) = t.bare.mapVars (fun _ v _ =>
      ((params.zip (args.map σ.bare)).lookup v).getD (σ.bare (.var v .erased))) [] := by
  unfold Ty.instantiateParams
  induction params generalizing t args with
  | nil => exact Substitution.bare_eq_mapVars ht
  | cons p params ih =>
      cases args with
      | nil => exact Substitution.bare_eq_mapVars ht
      | cons u args =>
          obtain ⟨⟨hu, hup⟩, hargs⟩ := List.forall_mem_cons.1 hargs
          have hrest := ih (t := t.substitute p u) (ht.mapVars_single hu) fun x hx =>
            ⟨(hargs x hx).1, fun v hv hmem => (hargs x hx).2 v hv (List.mem_cons_of_mem _ hmem)⟩
          rw [List.zip_cons_cons, List.foldl_cons, hrest]
          have hbare : (t.substitute p u).bare = t.bare.mapVars
              (fun _ v _ => if v = p then u.bare else .var v .erased) [] :=
            ht.bare_mapVars fun v _ r => by
              by_cases hv : v = p <;> simp [Replacement.single, hv, Ty.bare]
          rw [hbare, ht.bare.mapVars_mapVars]
          refine ht.bare.mapVars_congr fun v _ r => ?_
          by_cases hv : v = p
          · subst hv
            simp only [if_true, List.map_cons, List.zip_cons_cons, List.lookup_cons_self,
              Option.getD_some]
            rw [Substitution.bare_eq_mapVars hu]
            refine hu.bare.mapVars_congr fun w hw r => ?_
            -- The argument mentions no parameter, so the later replacements leave it alone.
            have hnone : (params.zip (args.map σ.bare)).lookup w = none := by
              refine List.lookup_eq_none_iff.2 fun p hp => ?_
              have hne : w ≠ p.1 := by
                rintro rfl
                exact hup _ (hu.mem_freeVars_of_bare hw)
                  (List.mem_cons_of_mem _ (List.of_mem_zip hp).1)
              simpa using hne
            rw [hnone, Option.getD_none]
          · have hlookup : (v == p) = false := by simpa using hv
            simp only [hv, if_false, Ty.mapVars, List.map_cons, List.zip_cons_cons,
              List.lookup_cons, hlookup]

theorem map_bare_instantiateArgs {c : Constructor}
    (hc : ∀ t ∈ c.args, t.Simple True ∧ ∀ v ∈ t.freeVars, v ∈ c.params)
    (hlength : c.params.length = args.length)
    (hargs : ∀ u ∈ args, u.Simple True ∧ ∀ v ∈ u.freeVars, v ∉ c.params) :
    (c.instantiateArgs args).map σ.bare = c.partTypes (args.map σ.bare) := by
  simp only [Constructor.instantiateArgs, Constructor.partTypes, List.map_map]
  refine List.map_congr_left fun t ht => ?_
  obtain ⟨hsimple, hvars⟩ := hc t ht
  refine (bare_instantiateParams hsimple hargs).trans ?_
  refine hsimple.bare.mapVars_congr fun v hv r => ?_
  have hmem : v ∈ (c.params.zip (args.map σ.bare)).map Prod.fst := by
    rw [List.map_fst_zip (by simp [hlength])]
    exact hvars v (hsimple.mem_freeVars_of_bare hv)
  cases hlookup : (c.params.zip (args.map σ.bare)).lookup v with
  | some u => rfl
  | none =>
      obtain ⟨p, hp, rfl⟩ := List.mem_map.1 hmem
      simpa using List.lookup_eq_none_iff.1 hlookup p hp

end Instances

namespace CheckState

variable {s s' s₁ : CheckState}

/-- From the first state to the second a check went on: variables were handed out and types were
compared, and everything that was known about variables stayed. -/
structure Later (s s' : CheckState) : Prop extends s.Leads s' where
  wf : s'.Wf
  triangular : s'.solver.subst.Triangular True
  extended : s.solver.subst.ExtendedBy s'.solver.subst

theorem Later.refl (hs : s.Wf) (htri : s.solver.subst.Triangular True) : s.Later s :=
  ⟨.refl s, hs, htri, .refl _⟩

theorem Later.trans (h₁ : s.Later s₁) (h₂ : s₁.Later s') : s.Later s' :=
  ⟨h₁.toLeads.trans h₂.toLeads, h₂.wf, h₂.triangular, h₁.extended.trans h₂.extended⟩

theorem Idle.later (h : s.Idle s') (hs : s.Wf) (htri : s.solver.subst.Triangular True) :
    s.Later s' :=
  ⟨h.leads, hs.of_idle h, h.solver ▸ htri, h.solver ▸ .refl _⟩

/-- The state after some variables were handed out. -/
def skip (s : CheckState) (n : Nat) : CheckState := { s with next := s.next + n }

theorem idle_skip (s : CheckState) (n : Nat) : s.Idle (s.skip n) :=
  ⟨Nat.le_add_right _ _, rfl, rfl, rfl, rfl⟩

end CheckState

namespace Check

variable {α β : Type} {m : Check α} {f : α → Check β} {o : CheckOptions} {s s' : CheckState}
  {Q : α → CheckState → Prop} {Q' : β → CheckState → Prop}

/-- If a part of a check succeeds, the check went on, with an outcome for which `Q` holds. -/
def Finds (m : Check α) (o : CheckOptions) (s : CheckState) (Q : α → CheckState → Prop) : Prop :=
  ∀ a s', m o s = (.ok a, s') → s.Later s' ∧ Q a s'

theorem Finds.bind (hm : Finds m o s Q)
    (hf : ∀ a s₁, s.Later s₁ → Q a s₁ → Finds (f a) o s₁ Q') : Finds (m >>= f) o s Q' := by
  intro b s' hrun
  rw [bind_apply] at hrun
  rcases hm₁ : m o s with ⟨e | a, s₁⟩
  · rw [hm₁] at hrun
    cases hrun
  · rw [hm₁] at hrun
    obtain ⟨hlater, hq⟩ := hm a s₁ hm₁
    obtain ⟨hlater', hq'⟩ := hf a s₁ hlater hq b s' hrun
    exact ⟨hlater.trans hlater', hq'⟩

theorem Finds.pure {a : α} (hs : s.Wf) (htri : s.solver.subst.Triangular True) (ha : Q a s) :
    Finds (Pure.pure a : Check α) o s Q := by
  rintro _ _ ⟨rfl, rfl⟩
  exact ⟨.refl hs htri, ha⟩

/-- A step that succeeds and only hands out variables. -/
theorem Finds.bind_idle {a : α} {s₁ : CheckState} (hrun : m o s = (.ok a, s₁)) (hidle : s.Idle s₁)
    (hs : s.Wf) (htri : s.solver.subst.Triangular True) (hf : Finds (f a) o s₁ Q') :
    Finds (m >>= f) o s Q' := by
  intro b s' hout
  rw [bind_apply, hrun] at hout
  obtain ⟨hlater, hq⟩ := hf b s' hout
  exact ⟨(hidle.later hs htri).trans hlater, hq⟩

theorem Finds.bind_error {e : TypeError} {s₁ : CheckState} (hrun : m o s = (.error e, s₁)) :
    Finds (m >>= f) o s Q' := by
  intro b s' hout
  rw [bind_apply, hrun] at hout
  cases hout

theorem finds_fail (cause : TypeError.Cause) (range : Range) :
    Finds (fail cause range : Check α) o s Q := by
  rintro _ _ ⟨⟩

theorem finds_bindName (hs : s.Wf) (htri : s.solver.subst.Triangular True)
    (bindings : PatternBindings) (name : Ident) (t : Ty) :
    Finds (bindName bindings name t) o s fun _ _ => True := by
  unfold bindName
  split
  · exact finds_fail _ _
  · exact .pure hs htri trivial

theorem mapM_fresh_apply (l : List α) (g : α → Range) (o : CheckOptions) (s : CheckState) :
    (l.mapM fun a => fresh (g a)) o s =
      (.ok (newVars s.next (l.map g)), s.skip (l.map g).length) := by
  induction l generalizing s with
  | nil => rfl
  | cons a l ih =>
      have hskip : (s.skip 1).skip (l.map g).length = s.skip ((l.map g).length + 1) := by
        simp [CheckState.skip, Nat.add_assoc, Nat.add_comm 1]
      have hgive : s.give .universal = s.skip 1 := rfl
      simp only [List.mapM_cons, bind_apply, fresh_apply, hgive, ih, hskip, pure_apply]
      rfl

/-- A type that is compared with a skeleton over new variables is alike to it from then on. -/
theorem finds_unify_skeleton {t S : Ty} {rs : List Range} (hs : s.Wf)
    (htri : s.solver.subst.Triangular True) (ht : t.Known s.next)
    (hS : IsSkeleton True s.next rs S) (range : Range) :
    Finds (unify t S range) o (s.skip rs.length) fun _ s' =>
      s'.solver.subst.bare t = s'.solver.subst.bare S := by
  have hs₁ : (s.skip rs.length).Wf := hs.of_idle (s.idle_skip _)
  have ht₁ : t.Known (s.skip rs.length).next := ht.mono (Nat.le_add_right _ _)
  have hS₁ : S.Known (s.skip rs.length).next := ⟨hS.simple, fun v hv => (hS.free v hv).2⟩
  obtain ⟨r, solver, hrun, hunify⟩ := Solver.unify_runs hs₁.simple ht.simple hS.simple
  intro a s' hout
  rw [unify_apply, hunify] at hout
  cases r with
  | some e => cases hout
  | none =>
      obtain rfl : (s.skip rs.length).learn o solver = s' := (Prod.mk.inj hout).2
      have hproper : s.solver.forget.Proper True := ⟨htri, hs.simple.kind⟩
      have hnew : s.solver.forget.NewFrom s.next := ⟨⟨hs.closed.binding, hs.closed.kind⟩, hs.fresh⟩
      obtain ⟨hlearns, halike⟩ :=
        Runs.learns_skeleton hrun hS hproper hnew ht.simple ht.below
      exact ⟨⟨(s.skip rs.length).leads_learn o solver, hs₁.learn ht₁ hS₁ hrun,
        hlearns.proper.triangular, hlearns.extended⟩, halike⟩

/-- Whatever the variables stand for, values of the type may have the head, and then their parts have
these types. -/
def Opens (env : VariantEnv) (h : Head) (t : Ty) (ts : List Ty) : Prop :=
  ∀ σ : Substitution, h.Splits env (σ.bare t) (ts.map σ.bare) ∧ (σ.bare t).Saturated env

section Opens

variable (env : VariantEnv) (t : Ty) {ts : List Ty} {n : Nat} (range : Range)

theorem opens_literal (v : Literal) :
    Opens env (Case.headOfLiteral v) (literalType v range) [] := by
  intro σ
  cases v with
  | unit => exact ⟨.unit _, nofun⟩
  | bool b => exact ⟨.bool b _, nofun⟩
  | int n => exact ⟨.int n _, nofun⟩
  | string s => exact ⟨.string s _, nofun⟩

theorem opens_product (hn : ts.length = n) : Opens env (.tuple n) (.product ts range) ts := by
  intro σ
  have hbare : σ.bare (.product ts range) = .product (ts.map σ.bare) .erased := by
    simp [Substitution.bare, Function.comp_def]
  rw [hbare]
  exact ⟨.tuple _ (by rw [List.length_map, hn]), by rintro _ _ _ _ _ ⟨⟩⟩

theorem opens_list_nil : Opens env .nil (.list t range) [] := fun σ =>
  ⟨.nil (σ.bare t) .erased, nofun⟩

theorem opens_list_cons : Opens env .cons (.list t range) [t, .list t range] := fun σ =>
  ⟨.cons (σ.bare t) .erased, nofun⟩

variable {env}

theorem opens_variant {c : Constructor} {name : String} {args : List Ty} (henv : env.Wf)
    (hc : env.constructor? name = some c) (hlength : c.params.length = args.length)
    (hargs : ∀ u ∈ args, u.Simple True ∧ ∀ v ∈ u.freeVars, v ∉ c.params) :
    Opens env (.ctor name) (.variant c.variant args range) (c.instantiateArgs args) := by
  intro σ
  have hbare : σ.bare (.variant c.variant args range) =
      .variant c.variant (args.map σ.bare) .erased := by
    simp [Substitution.bare, Function.comp_def]
  rw [hbare, map_bare_instantiateArgs (henv.args name c hc) hlength hargs]
  refine ⟨.ctor _ _ hc rfl, ?_⟩
  rintro variant _ _ params ctors ⟨⟩ hdef
  obtain ⟨ctors', hlisted, -⟩ := henv.listed name c hc
  obtain ⟨rfl, -⟩ := TypeDefinition.variant.inj (Option.some.inj (hdef.symm.trans hlisted))
  rw [hlength, List.length_map]

end Opens

/-- The cases have only heads that values of these types may have, whatever is found out about the
types from this state on. -/
def Suit (cs : List Case) (ts : List Ty) (env : VariantEnv) (s : CheckState) : Prop :=
  ∀ σ : Substitution, σ.Triangular True → s.solver.subst.ExtendedBy σ →
    List.Forall₂ (Case.Fits env) cs (ts.map σ.bare)

section Suit

variable {c : Case} {cs : List Case} {t S : Ty} {ts : List Ty} {env : VariantEnv}
  {s₁ : CheckState}

theorem Suit.later (h : Suit cs ts env s) (hlater : s.Later s') : Suit cs ts env s' :=
  fun σ hσ hext => h σ hσ (hlater.extended.trans hext)

theorem Suit.length_eq (h : Suit cs ts env s) (htri : s.solver.subst.Triangular True) :
    cs.length = ts.length := by
  simpa using (h _ htri (.refl _)).length_eq

theorem suit_nil : Suit [] [] env s := fun _ _ _ => .nil

theorem Suit.cons (hc : Suit [c] [t] env s) (hcs : Suit cs ts env s) :
    Suit (c :: cs) (t :: ts) env s := fun σ hσ hext =>
  .cons (List.forall₂_cons.1 (hc σ hσ hext)).1 (hcs σ hσ hext)

theorem suit_any (t : Ty) : Suit [.any] [t] env s := fun _ _ _ => .cons (.any _) .nil

theorem suit_wildcards (ts : List Ty) :
    Suit (Case.ofPatterns (ts.map fun _ => .wildcard)) ts env s := by
  induction ts with
  | nil => exact suit_nil
  | cons t ts ih => exact (suit_any t).cons ih

/-- A case suits a type that was made equal to one that it suits. -/
theorem Suit.of_alike (hlater : s.Later s') (htri : s.solver.subst.Triangular True)
    (heq : s.solver.subst.bare t = s.solver.subst.bare S) (ht : t.Simple True)
    (hS : S.Simple True) (h : Suit [c] [S] env s') : Suit [c] [t] env s' := by
  intro σ hσ hext
  rw [List.map_singleton, htri.bare_extend hσ (hlater.extended.trans hext) ht hS heq]
  exact h σ hσ hext

/-- Suiting a type is suiting the types of the parts behind a head that its values may have. -/
theorem Opens.suit_iff {h : Head} (hopen : Opens env h t ts) :
    Suit [.of h cs] [t] env s ↔ Suit cs ts env s := by
  constructor
  · intro hsuit σ hσ hext
    cases (List.forall₂_cons.1 (hsuit σ hσ hext)).1 with
    | of hsplits _ hcs => exact hsplits.unique (hopen σ).1 ▸ hcs
  · intro hsuit σ hσ hext
    exact .cons (.of (hopen σ).1 (hopen σ).2 (hsuit σ hσ hext)) .nil

end Suit

theorem known_newVars {n m : TypeVar} {rs : List Range} (hm : n + rs.length ≤ m) {t : Ty}
    (ht : t ∈ newVars n rs) : t.Known m := by
  obtain ⟨v, r, rfl, -, hlt⟩ := mem_newVars ht
  exact .var (hlt.trans_le hm) r

theorem instantiateConstructor_error {ctor : Ident}
    (hnone : s.variants.constructor? ctor.text = none) :
    instantiateConstructor ctor o s =
      (.error ⟨.variant (.constructorNotFound ctor.text), ctor.range⟩, s) := by
  have hlookup : s.variants.lookupConstructor ctor.text ctor.range =
      .error ⟨.constructorNotFound ctor.text, ctor.range⟩ := by
    simp [VariantEnv.lookupConstructor, hnone]
  simp only [instantiateConstructor, bind_apply, get_apply, hlookup]
  rfl

theorem instantiateConstructor_apply {ctor : Ident} {c : Constructor}
    (hc : s.variants.constructor? ctor.text = some c) :
    let rs := c.params.map fun _ => ctor.range
    instantiateConstructor ctor o s =
      (.ok (.variant c.variant (newVars s.next rs) ctor.range,
        c.instantiateArgs (newVars s.next rs)), s.skip rs.length) := by
  have hlookup : s.variants.lookupConstructor ctor.text ctor.range = .ok c := by
    simp [VariantEnv.lookupConstructor, hc]
  simp only [instantiateConstructor, bind_apply, get_apply, hlookup, liftVariant, pure_apply,
    mapM_fresh_apply]

/-- Of a constructor over new variables the arguments are what its type has behind the head. -/
theorem opens_constructor {ctor : Ident} {c : Constructor} (hs : s.Wf)
    (hctor : s.variants.constructor? ctor.text = some c) :
    let vars := newVars s.next (c.params.map fun _ => ctor.range)
    Opens s.variants (.ctor ctor.text) (.variant c.variant vars ctor.range)
      (c.instantiateArgs vars) := by
  intro vars
  refine opens_variant ctor.range hs.variants.toWf hctor (by simp [vars, length_newVars]) ?_
  intro u hu
  obtain ⟨v, r, rfl, hle, -⟩ := mem_newVars hu
  refine ⟨.var v r, fun w hw hmem => ?_⟩
  obtain rfl := Ty.mem_freeVars_var.1 hw
  exact Nat.not_lt.2 hle ((hs.variants.params ctor.text c hctor).2 w hmem)

/-- Once a type was compared with that of a constructor, a pattern with the constructor suits it if
the patterns for the arguments suit their types. -/
theorem finds_constructor {ctor : Ident} {c : Constructor} (hs : s.Wf)
    (htri : s.solver.subst.Triangular True) {t : Ty} (ht : t.Known s.next)
    (hctor : s.variants.constructor? ctor.text = some c) (range : Range) :
    let rs := c.params.map fun _ => ctor.range
    let types := c.instantiateArgs (newVars s.next rs)
    Finds (unify t (.variant c.variant (newVars s.next rs) ctor.range) range) o (s.skip rs.length)
      fun _ s' => (∀ u ∈ types, u.Known s'.next) ∧ ∀ s₁ args, s'.Later s₁ →
        Suit (Case.ofPatterns args) types s.variants s₁ →
        Suit [Case.ofPattern (.construct ctor.text args)] [t] s.variants s₁ := by
  intro rs types a s' hrun
  have hS : IsSkeleton True s.next rs _ := isSkeleton_variant s.next c.variant rs ctor.range
  obtain ⟨hlater, heq⟩ := finds_unify_skeleton hs htri ht hS range a s' hrun
  have hknown := (idles_instantiateConstructor (o := o) hs.variants.toWf ctor).2
  rw [instantiateConstructor_apply hctor] at hknown
  refine ⟨hlater, fun u hu => (hknown.2 u hu).mono hlater.next, fun s₁ args h₁ hargs => ?_⟩
  refine .of_alike h₁ hlater.triangular heq ht.simple hS.simple ?_
  exact (opens_constructor hs hctor).suit_iff.2 hargs

mutual

/-- A pattern that is accepted against a type suits it. -/
theorem finds_pattern {s : CheckState} {t : Ty} (hs : s.Wf)
    (htri : s.solver.subst.Triangular True) (ht : t.Known s.next) (bindings : PatternBindings)
    (p : Pattern) :
    Finds (pattern t bindings p) o s fun r s' =>
      Suit [Case.ofPattern r.1] [t] s.variants s' := by
  match p with
  | .wildcard _ => exact .pure hs htri (suit_any t)
  | .var name =>
      exact (finds_bindName hs htri bindings name t).bind fun _ s₁ h₁ _ =>
        .pure h₁.wf h₁.triangular (suit_any t)
  | .literal v range =>
      have hS : IsSkeleton True s.next [] (literalType v range) := by
        cases v <;> exact isSkeleton_base s.next _ range
      refine (finds_unify_skeleton hs htri ht hS range).bind fun _ s₁ h₁ heq => ?_
      refine .pure h₁.wf h₁.triangular ?_
      exact .of_alike (.refl h₁.wf h₁.triangular) h₁.triangular heq ht.simple hS.simple
        ((opens_literal s.variants range v).suit_iff.2 suit_nil)
  | .tuple items range =>
      have hS : IsSkeleton True s.next (items.map Pattern.range) _ :=
        isSkeleton_product s.next (items.map Pattern.range) range
      refine .bind_idle (mapM_fresh_apply items Pattern.range o s) (s.idle_skip _) hs htri ?_
      refine (finds_unify_skeleton hs htri ht hS range).bind fun _ s₂ h₂ heq => ?_
      refine (finds_patterns h₂.wf h₂.triangular (fun u hu => known_newVars h₂.next hu) bindings
        items (by simp [length_newVars])).bind fun r s₃ h₃ hr => ?_
      refine .pure h₃.wf h₃.triangular (.of_alike h₃ h₂.triangular heq ht.simple hS.simple ?_)
      rw [h₂.variants] at hr
      have hlength : _ = r.1.length :=
        (hr.length_eq h₃.triangular).symm.trans (Case.length_ofPatterns r.1)
      exact (opens_product s.variants range hlength).suit_iff.2 hr
  | .nil range =>
      have hS : IsSkeleton True s.next [range] _ := isSkeleton_list s.next range range
      refine .bind_idle (fresh_apply range o s) (s.idle_skip 1) hs htri ?_
      refine (finds_unify_skeleton hs htri ht hS range).bind fun _ s₂ h₂ heq => ?_
      exact .pure h₂.wf h₂.triangular (.of_alike (.refl h₂.wf h₂.triangular) h₂.triangular heq
        ht.simple hS.simple ((opens_list_nil s.variants _ range).suit_iff.2 suit_nil))
  | .cons head tail range =>
      have hS : IsSkeleton True s.next [head.range] _ :=
        isSkeleton_list s.next head.range range
      refine .bind_idle (fresh_apply head.range o s) (s.idle_skip 1) hs htri ?_
      refine (finds_unify_skeleton hs htri ht hS range).bind fun _ s₂ h₂ heq => ?_
      have helem : (Ty.var s.next head.range).Known s₂.next :=
        .var (Nat.lt_of_succ_le h₂.next) head.range
      refine (finds_pattern h₂.wf h₂.triangular helem bindings head).bind fun r s₃ h₃ hr => ?_
      refine (finds_pattern h₃.wf h₃.triangular ((helem.list range).mono h₃.next) r.2 tail).bind
        fun r' s₄ h₄ hr' => ?_
      refine .pure h₄.wf h₄.triangular
        (.of_alike (h₃.trans h₄) h₂.triangular heq ht.simple hS.simple ?_)
      rw [h₂.variants] at hr
      rw [h₃.variants, h₂.variants] at hr'
      exact (opens_list_cons s.variants _ range).suit_iff.2 ((hr.later h₄).cons hr')
  | .construct ctor arg range =>
      rw [pattern]
      cases hctor : s.variants.constructor? ctor.text with
      | none => exact .bind_error (instantiateConstructor_error hctor)
      | some c =>
          refine .bind_idle (instantiateConstructor_apply hctor) (s.idle_skip _) hs htri ?_
          refine (finds_constructor hs htri ht hctor range).bind fun _ s₂ h₂ ⟨htypes, hfinish⟩ => ?_
          -- From here on only the number of the argument types matters.
          generalize c.instantiateArgs (newVars s.next (c.params.map fun _ => ctor.range)) = types
            at htypes hfinish
          have hdone := CheckState.Later.refl h₂.wf h₂.triangular
          match arg with
          | none =>
              dsimp only
              split
              · next hempty =>
                  obtain rfl := List.isEmpty_iff.1 hempty
                  exact .pure h₂.wf h₂.triangular (hfinish s₂ [] hdone suit_nil)
              · exact finds_fail _ _
          | some arg =>
              match types with
              | [] => exact finds_fail _ _
              | [type] =>
                  refine (finds_pattern h₂.wf h₂.triangular (htypes type List.mem_cons_self)
                    bindings arg).bind fun r s₃ h₃ hr => ?_
                  exact .pure h₃.wf h₃.triangular (hfinish s₃ [r.1] h₃ (h₂.variants ▸ hr))
              | type :: type' :: types =>
                  match arg with
                  | .wildcard _ =>
                      exact .pure h₂.wf h₂.triangular (hfinish s₂ _ hdone (suit_wildcards _))
                  | .tuple items _ =>
                      dsimp only
                      split
                      · next hlength =>
                          refine (finds_patterns h₂.wf h₂.triangular htypes bindings items
                            hlength).bind fun r s₃ h₃ hr => ?_
                          exact .pure h₃.wf h₃.triangular (hfinish s₃ r.1 h₃ (h₂.variants ▸ hr))
                      · exact finds_fail _ _
                  | .var _ | .literal _ _ | .nil _ | .cons _ _ _ | .construct _ _ _
                  | .alias _ _ _ => exact finds_fail _ _
  | .alias inner name _ =>
      refine (finds_pattern hs htri ht bindings inner).bind fun r s₁ h₁ hr => ?_
      exact (finds_bindName h₁.wf h₁.triangular r.2 name t).bind fun _ s₂ h₂ _ =>
        .pure h₂.wf h₂.triangular (hr.later h₂)

theorem finds_patterns {s : CheckState} {ts : List Ty} (hs : s.Wf)
    (htri : s.solver.subst.Triangular True) (hts : ∀ t ∈ ts, t.Known s.next)
    (bindings : PatternBindings) (ps : List Pattern) (hlength : ps.length = ts.length) :
    Finds (patterns ts bindings ps) o s fun r s' =>
      Suit (Case.ofPatterns r.1) ts s.variants s' := by
  match ps, ts with
  | [], [] => exact .pure hs htri suit_nil
  | p :: ps, t :: ts =>
      obtain ⟨ht, hts⟩ := List.forall_mem_cons.1 hts
      refine (finds_pattern hs htri ht bindings p).bind fun r s₁ h₁ hr => ?_
      refine (finds_patterns h₁.wf h₁.triangular (fun u hu => (hts u hu).mono h₁.next) r.2 ps
        (by simpa using hlength)).bind fun rs s₂ h₂ hrs => ?_
      exact .pure h₂.wf h₂.triangular ((hr.later h₂).cons (h₁.variants ▸ hrs))

end

end Check

end FieldML
