import FieldML.Proofs.Check.Coverage
import FieldML.Proofs.Reading.CaseText
import FieldML.Proofs.Unify.Granted

/-!
# The missing case as an arm

The text for the missing case of a match is read as a pattern. It is accepted against the type of the
scrutinee and covers something that no other arm covers, unless the record kind of some variable
mentions the variable itself: then the type cannot even be compared with itself over new variables.
-/

namespace FieldML

theorem Case.Fits.exists_constructor {env : VariantEnv} {name : String} {cs : List Case} {t : Ty}
    (h : Case.Fits env (.of (.ctor name) cs) t) : ∃ c, env.constructor? name = some c := by
  cases h with
  | of hsplits _ _ =>
      cases hsplits with
      | ctor _ _ hc _ => exact ⟨_, hc⟩

namespace Check

open Unify

variable {o : CheckOptions} {s s' : CheckState} {t u S : Ty} {ts us : List Ty} {h : Head} {c : Case}
  {cs : List Case} {env : VariantEnv} {rs : List Range} {p : Pattern}

/-- Two types whose values may have the same head differ in the parts behind it only. -/
theorem parts_of_splits (henv : env.Wf) (ht : h.Splits env t ts) (hu : h.Splits env u us)
    (hargs : t.Saturated env) (hargs' : u.Saturated env) : (parts t u).2 = none := by
  cases ht with
  | unit | bool | int | string =>
      cases hu
      simp [parts]
  | nil | cons =>
      cases hu
      rfl
  | tuple r hn =>
      cases hu with
      | tuple r' hn' => simp [parts, componentPairs, hn, hn']
  | ctor args r hc hvariant =>
      cases hu with
      | ctor args' r' hd hvariant' =>
          obtain rfl := Option.some.inj (hc.symm.trans hd)
          subst hvariant hvariant'
          obtain ⟨ctors, hdef, -⟩ := henv.listed _ _ hc
          have hlength := hargs _ _ _ _ _ rfl hdef
          have hlength' := hargs' _ _ _ _ _ rfl hdef
          simp [parts, componentPairs, ← hlength, ← hlength']

theorem isRigid_of_splits (hu : (∃ v r, u = .var v r) ∨ IsRigid u) (h : h.Splits env u.bare ts) :
    IsRigid u := by
  rcases hu with ⟨v, r, rfl⟩ | hu
  · cases h
  · exact hu

/-- A type whose values may have some head can be made equal to the skeleton of that head. -/
theorem unify_opens (hs : s.Wf) (htri : s.solver.subst.Triangular True)
    (hself : s.solver.SelfFree) (ht : t.Known s.next) (hS : IsSkeleton True s.next rs S)
    (hopen : Opens s.variants h S ts) (hsuit : Suit [.of h cs] [t] s.variants s) (range : Range) :
    ∃ s₁, unify t S range o (s.skip rs.length) = (.ok (), s₁) ∧ (s.skip rs.length).Later s₁ ∧
      s₁.solver.SelfFree ∧ Suit cs ts s.variants s₁ := by
  have hproper : s.solver.forget.Proper True := ⟨htri, hs.simple.kind⟩
  have hnew : s.solver.forget.NewFrom s.next := ⟨⟨hs.closed.binding, hs.closed.kind⟩, hs.fresh⟩
  have hbare : ∀ u, (s.solver.head u).bare = s.solver.subst.bare u := fun u => Ty.bare_expand _
  have hhead : s.solver.head S = S := hS.head_eq (s := s.solver.forget) hnew
  -- What the type is at its head and the skeleton have the same head.
  obtain ⟨hsplits, hargs⟩ := hopen s.solver.subst
  rw [← hbare, hhead] at hsplits hargs
  obtain ⟨us, hsplits', hargs'⟩ : ∃ us, h.Splits s.variants (s.solver.head t).bare us ∧
      (s.solver.head t).bare.Saturated s.variants := by
    rw [hbare]
    cases (List.forall₂_cons.1 (hsuit _ htri (.refl _))).1 with
    | of hsplits' hargs' _ => exact ⟨_, hsplits', hargs'⟩
  have hrigid : IsRigid (s.solver.head t) :=
    isRigid_of_splits (var_or_isRigid_head hs.simple ht.simple) hsplits'
  have hparts : (parts (s.solver.head t) S).2 = none := by
    have heq := parts_of_splits hs.variants.toWf hsplits' hsplits hargs' hargs
    rw [parts_bare hrigid hS.rigid] at heq
    exact heq
  -- So the comparison does not fail.
  obtain ⟨r, solver, hrun, hunify⟩ := Solver.unify_runs hs.simple ht.simple hS.simple
  obtain ⟨n, hn⟩ : ∃ n, s.solver.fuel (t.size + S.size) = n + 2 := s.solver.exists_fuel_eq _
  rw [hn] at hrun
  obtain ⟨rfl, hself'⟩ :=
    hrun.grants_skeleton hS hproper hnew hself.forget ht.simple ht.below hrigid hparts
  have hout : unify t S range o (s.skip rs.length) =
      (.ok (), (s.skip rs.length).learn o solver) := by
    have hskip : (s.skip rs.length).solver = s.solver := rfl
    rw [unify_apply, hskip, hunify]
    rfl
  obtain ⟨hlater, halike⟩ := finds_unify_skeleton hs htri ht hS range _ _ hout
  refine ⟨_, hout, hlater, hself', hopen.suit_iff.1 ?_⟩
  have hsuit' := hsuit.later (((s.idle_skip rs.length).later hs htri).trans hlater)
  exact .of_alike (.refl hlater.wf hlater.triangular) hlater.triangular halike.symm hS.simple
    ht.simple hsuit'

theorem Suit.head (hsuit : Suit (c :: cs) (t :: ts) env s) : Suit [c] [t] env s :=
  fun σ hσ hext => .cons (List.forall₂_cons.1 (hsuit σ hσ hext)).1 .nil

theorem Suit.tail (hsuit : Suit (c :: cs) (t :: ts) env s) : Suit cs ts env s :=
  fun σ hσ hext => (List.forall₂_cons.1 (hsuit σ hσ hext)).2

/-- The check succeeds, with an outcome and in a state for which `Q` holds. -/
def Succeeds {α : Type} (m : Check α) (o : CheckOptions) (s : CheckState)
    (Q : α → CheckState → Prop) : Prop :=
  ∃ a s', m o s = (.ok a, s') ∧ Q a s'

theorem succeeds_bind {α β : Type} {m : Check α} {f : α → Check β} {a : α} {s₁ : CheckState}
    {Q : β → CheckState → Prop} (hm : m o s = (.ok a, s₁)) (hf : Succeeds (f a) o s₁ Q) :
    Succeeds (m >>= f) o s Q := by
  obtain ⟨b, s', hrun, hq⟩ := hf
  refine ⟨b, s', ?_, hq⟩
  rw [bind_apply, hm]
  exact hrun

theorem succeeds_pure {α : Type} {a : α} {Q : α → CheckState → Prop} (h : Q a s) :
    Succeeds (pure a : Check α) o s Q := ⟨a, s, rfl, h⟩

/-- A type that a case with a constructor suits can be made equal to the type of the constructor. -/
theorem unify_constructor {ctor : Ident} (hs : s.Wf) (htri : s.solver.subst.Triangular True)
    (hself : s.solver.SelfFree) (ht : t.Known s.next)
    (hsuit : Suit [.of (.ctor ctor.text) cs] [t] s.variants s) (range : Range) :
    ∃ variant types s₁ s₂, instantiateConstructor ctor o s = (.ok (variant, types), s₁) ∧
      unify t variant range o s₁ = (.ok (), s₂) ∧ s₁.Later s₂ ∧ s₂.solver.SelfFree ∧
      (∀ u ∈ types, u.Known s₂.next) ∧ types.length = cs.length ∧ Suit cs types s₂.variants s₂ := by
  obtain ⟨c, hc⟩ := (List.forall₂_cons.1 (hsuit _ htri (.refl _))).1.exists_constructor
  obtain ⟨s₂, hunify, h₂, hself₂, hsuit₂⟩ := unify_opens hs htri hself ht
    (isSkeleton_variant s.next c.variant (c.params.map fun _ => ctor.range) ctor.range)
    (opens_constructor hs hc) hsuit range
  obtain ⟨-, hknown, -⟩ := finds_constructor hs htri ht hc range _ _ hunify
  have hvariants : s₂.variants = s.variants := h₂.variants
  rw [← hvariants] at hsuit₂
  exact ⟨_, _, _, s₂, instantiateConstructor_apply hc, hunify, h₂, hself₂, hknown,
    (hsuit₂.length_eq h₂.triangular).symm, hsuit₂⟩

mutual

/-- A pattern for a case that suits a type is accepted against the type. -/
theorem accepts_pattern {s : CheckState} {t : Ty} {c : Case} (hs : s.Wf)
    (htri : s.solver.subst.Triangular True) (hself : s.solver.SelfFree) (ht : t.Known s.next)
    (hsuit : Suit [c] [t] s.variants s) (bindings : PatternBindings) (p : Pattern)
    (hp : c.Written p) : Succeeds (pattern t bindings p) o s fun r s' =>
      (Case.ofPattern r.1 = c ∧ r.2 = bindings) ∧ s'.solver.SelfFree := by
  match p, hp with
  | _, .any r => exact succeeds_pure ⟨⟨rfl, rfl⟩, hself⟩
  | _, .bool b r =>
      obtain ⟨s₁, hunify, -, hself₁, -⟩ := unify_opens hs htri hself ht
        (isSkeleton_base s.next .bool r) (opens_literal s.variants r (.bool b)) hsuit r
      exact succeeds_bind hunify (succeeds_pure ⟨⟨rfl, rfl⟩, hself₁⟩)
  | _, .unit r =>
      obtain ⟨s₁, hunify, -, hself₁, -⟩ := unify_opens hs htri hself ht
        (isSkeleton_base s.next .unit r) (opens_literal s.variants r .unit) hsuit r
      exact succeeds_bind hunify (succeeds_pure ⟨⟨rfl, rfl⟩, hself₁⟩)
  | _, .nil r =>
      obtain ⟨s₁, hunify, -, hself₁, -⟩ := unify_opens hs htri hself ht
        (isSkeleton_list s.next r r) (opens_list_nil s.variants _ r) hsuit r
      refine succeeds_bind (fresh_apply r o s) (succeeds_bind hunify ?_)
      exact succeeds_pure ⟨⟨rfl, rfl⟩, hself₁⟩
  | .cons head tail r, .cons _ hc hd =>
      obtain ⟨s₁, hunify, h₁, hself₁, hsuit₁⟩ := unify_opens hs htri hself ht
        (isSkeleton_list s.next head.range r) (opens_list_cons s.variants _ r) hsuit r
      have helem : (Ty.var s.next head.range).Known s₁.next :=
        .var (Nat.lt_of_succ_le h₁.next) head.range
      have hvariants : s₁.variants = s.variants := h₁.variants
      rw [← hvariants] at hsuit₁
      obtain ⟨r₂, s₂, hhead, ⟨hhead_case, hbindings₂⟩, hself₂⟩ := accepts_pattern h₁.wf h₁.triangular
        hself₁ helem hsuit₁.head bindings head hc
      obtain ⟨h₂, -⟩ := finds_pattern h₁.wf h₁.triangular helem _ head _ _ hhead
      rw [← h₂.variants] at hsuit₁
      obtain ⟨r₃, s₃, htail, ⟨htail_case, hbindings₃⟩, hself₃⟩ := accepts_pattern h₂.wf
        h₂.triangular hself₂ ((helem.list r).mono h₂.next) (hsuit₁.tail.later h₂) r₂.2 tail hd
      refine succeeds_bind (fresh_apply head.range o s) (succeeds_bind hunify ?_)
      refine succeeds_bind hhead (succeeds_bind htail ?_)
      exact succeeds_pure ⟨⟨by rw [Case.ofPattern, hhead_case, htail_case],
        hbindings₃.trans hbindings₂⟩, hself₃⟩
  | .tuple items r, @Case.Written.tuple cs _ _ hcs =>
      have hlength : (newVars s.next (items.map Pattern.range)).length = cs.length := by
        rw [length_newVars, List.length_map, hcs.length_eq]
      obtain ⟨s₁, hunify, h₁, hself₁, hsuit₁⟩ := unify_opens hs htri hself ht
        (isSkeleton_product s.next (items.map Pattern.range) r)
        (opens_product s.variants r hlength) hsuit r
      have hvariants : s₁.variants = s.variants := h₁.variants
      rw [← hvariants] at hsuit₁
      obtain ⟨r₂, s₂, hitems, ⟨hcores, hbindings⟩, hself₂⟩ := accepts_patterns h₁.wf
        h₁.triangular hself₁ (fun u hu => known_newVars h₁.next hu) hsuit₁ bindings items hcs
      refine succeeds_bind (mapM_fresh_apply items Pattern.range o s) (succeeds_bind hunify ?_)
      refine succeeds_bind hitems (succeeds_pure ⟨⟨?_, hbindings⟩, hself₂⟩)
      rw [Case.ofPattern, ← Case.length_ofPatterns, hcores]
  | _, .constant ctor r =>
      obtain ⟨variant, types, s₁, s₂, hctor, hunify, -, hself₂, -, hlength, -⟩ :=
        unify_constructor hs htri hself ht hsuit r
      obtain rfl := List.length_eq_zero_iff.1 hlength
      refine succeeds_bind hctor (succeeds_bind hunify ?_)
      exact succeeds_pure ⟨⟨rfl, rfl⟩, hself₂⟩
  | .construct _ (some arg) _, .single ctor r hc =>
      obtain ⟨variant, types, s₁, s₂, hctor, hunify, h₂, hself₂, hknown, hlength, hsuit₂⟩ :=
        unify_constructor (o := o) hs htri hself ht hsuit r
      obtain ⟨type, rfl⟩ := List.length_eq_one_iff.1 hlength
      obtain ⟨r₃, s₃, hrun, ⟨hcore, hbindings⟩, hself₃⟩ := accepts_pattern h₂.wf h₂.triangular
        hself₂ (hknown type List.mem_cons_self) hsuit₂ bindings arg hc
      rw [pattern]
      refine succeeds_bind hctor (succeeds_bind hunify (succeeds_bind hrun ?_))
      refine succeeds_pure ⟨⟨?_, hbindings⟩, hself₃⟩
      rw [Case.ofPattern, Case.ofPatterns, Case.ofPatterns, hcore]
  | .construct _ (some (.tuple items _)) _, .several ctor r _ htwo hcs =>
      obtain ⟨variant, types, s₁, s₂, hctor, hunify, h₂, hself₂, hknown, hlength, hsuit₂⟩ :=
        unify_constructor (o := o) hs htri hself ht hsuit r
      obtain ⟨r₃, s₃, hrun, ⟨hcores, hbindings⟩, hself₃⟩ := accepts_patterns h₂.wf h₂.triangular
        hself₂ hknown hsuit₂ bindings items hcs
      rw [pattern]
      match types, htwo.trans_eq hlength.symm with
      | type :: type' :: types, _ =>
          refine succeeds_bind hctor (succeeds_bind hunify ?_)
          dsimp only
          rw [if_pos (hcs.length_eq.symm.trans hlength.symm)]
          refine succeeds_bind hrun (succeeds_pure ⟨⟨?_, hbindings⟩, hself₃⟩)
          rw [Case.ofPattern, hcores]

theorem accepts_patterns {s : CheckState} {ts : List Ty} {cs : List Case} (hs : s.Wf)
    (htri : s.solver.subst.Triangular True) (hself : s.solver.SelfFree)
    (hts : ∀ t ∈ ts, t.Known s.next) (hsuit : Suit cs ts s.variants s)
    (bindings : PatternBindings) (ps : List Pattern) (hps : List.Forall₂ Case.Written cs ps) :
    Succeeds (patterns ts bindings ps) o s fun r s' =>
      (Case.ofPatterns r.1 = cs ∧ r.2 = bindings) ∧ s'.solver.SelfFree := by
  match ps, hps with
  | _, .nil => exact succeeds_pure ⟨⟨rfl, rfl⟩, hself⟩
  | p :: ps, @List.Forall₂.cons _ _ _ c _ cs _ hp hps =>
      obtain ⟨t, ts, rfl⟩ := List.exists_cons_of_length_eq_add_one (hsuit.length_eq htri).symm
      obtain ⟨ht, hts⟩ := List.forall_mem_cons.1 hts
      obtain ⟨r₁, s₁, hrun, ⟨rfl, rfl⟩, hself₁⟩ := accepts_pattern hs htri hself ht
        hsuit.head bindings p hp
      obtain ⟨h₁, -⟩ := finds_pattern hs htri ht _ p _ _ hrun
      rw [← h₁.variants] at hsuit
      obtain ⟨r₂, s₂, hruns, ⟨rfl, hbindings⟩, hself₂⟩ := accepts_patterns h₁.wf
        h₁.triangular hself₁ (fun u hu => (hts u hu).mono h₁.next) (hsuit.tail.later h₁) r₁.2 ps hps
      refine succeeds_bind hrun (succeeds_bind hruns ?_)
      exact succeeds_pure ⟨⟨rfl, hbindings⟩, hself₂⟩

end

/-- The missing case suits the type of the scrutinee. -/
theorem Accepted.suit_missing {cores : List CorePattern} (h : Accepted o t s cores s')
    (henv : s.variants.Registered) (hs : s.Wf) (htri : s.solver.subst.Triangular True)
    (ht : t.Known s.next) (hmissing : (Coverage.analyze s.variants cores).missing = some c) :
    Suit [c] [t] s.variants s' := by
  obtain ⟨-, hsuit⟩ := h.suit hs htri ht
  intro σ hσ hext
  have hfit : ∀ core ∈ cores, (Case.ofPattern core).Fits s.variants (σ.bare t) := fun core hcore =>
    (List.forall₂_cons.1 (hsuit core hcore σ hσ hext)).1
  exact .cons (Coverage.fits_of_missing (henv.listsAll hs.variants.toWf) hfit hmissing) .nil

/-- The text of the missing case is a legal and useful arm. If the names of all constructors are
spelled like constructors and tuples have at least two components, as those that are read have, then
the text is read as a pattern that is accepted against the type of the scrutinee. As one more arm it
is not among those that are never selected. -/
theorem missing_case_useful_arm {cores : List CorePattern} (henv : s.variants.Registered)
    (hnames : ∀ name c, s.variants.constructor? name = some c → Token.Spells .constructor name)
    (hs : s.Wf) (htri : s.solver.subst.Triangular True) (ht : t.Known s.next)
    (harms : Accepted o t s cores s')
    (hsized : ∀ core ∈ cores, (Case.ofPattern core).Each Head.Sized) (hself : s'.solver.SelfFree)
    (hmissing : (Coverage.analyze s.variants cores).missing = some c) :
    ∃ tokens, Token.lex (c.print false) = .ok tokens ∧
      Parser.ReadsAs (Parser.ofTokens Parser.pattern tokens) fun p =>
        ∃ core s₁, pattern t [] p o s' = (.ok (core, []), s₁) ∧ Case.ofPattern core = c ∧
          cores.length ∉ (Coverage.analyze s.variants (cores ++ [core])).unused := by
  obtain ⟨hlater, -⟩ := harms.suit hs htri ht
  have hsuit := harms.suit_missing henv hs htri ht hmissing
  have hfits := (List.forall₂_cons.1 (hsuit _ hlater.triangular (.refl _))).1
  have hwritable := Coverage.writable_missing (henv.listsAll hs.variants.toWf) hnames hsized hmissing
    hfits
  obtain ⟨tokens, hlex, hreads⟩ := hwritable.reads
  refine ⟨tokens, hlex, hreads.mono fun p _ hp => ?_⟩
  rw [← hlater.variants] at hsuit
  obtain ⟨⟨core, _⟩, s₁, hrun, ⟨rfl, rfl⟩, -⟩ := accepts_pattern (o := o) hlater.wf
    hlater.triangular hself (ht.mono hlater.next) hsuit [] p hp
  exact ⟨core, s₁, hrun, rfl, Coverage.notMem_unused_missing hmissing⟩

theorem spells_initialVariantEnv : ∀ name c, initialVariantEnv.constructor? name = some c →
    Token.Spells .constructor name := by
  intro name c hc
  have hmem : (name, c) ∈ initialVariantEnv.constructors := Fields.mem_of_get? hc
  simp only [initialVariantEnv, List.mem_cons, List.not_mem_nil, or_false, Prod.mk.injEq] at hmem
  rcases hmem with ⟨rfl, -⟩ | ⟨rfl, -⟩ <;> exact ⟨_, _, rfl, rfl⟩

theorem sized_optionArms :
    ∀ core ∈ optionArms.map (·.pattern), (Case.ofPattern core).Each Head.Sized := by
  have hnone : (Case.of (.ctor "None") []).Each Head.Sized := .of nofun nofun
  have htrue : (Case.of (.bool true) []).Each Head.Sized := .of nofun nofun
  have hsome : (Case.of (.ctor "Some") [.of (.bool true) []]).Each Head.Sized :=
    .of nofun (List.forall_mem_singleton.2 htrue)
  exact List.forall_mem_cons.2 ⟨hnone, List.forall_mem_singleton.2 hsome⟩

/-- No variable has a record kind there. -/
theorem selfFree_optionEnd : optionEnd.solver.SelfFree := by
  intro v _
  have hkinds : optionEnd.solver.kinds = .empty := rfl
  have hkind : optionEnd.solver.kindOf v = .universal := by
    rw [Solver.kindOf, hkinds]
    exact Solver.plain_empty v
  rw [hkind]
  exact List.not_mem_nil

/-- The arm for the missing optional truth value can be read off the report. -/
theorem missing_case_useful_arm_optionArms :
    let cores := optionArms.map (·.pattern)
    Accepted {} optionalBool optionStart cores optionEnd ∧ optionEnd.solver.SelfFree ∧
      (Coverage.analyze initialVariantEnv cores).missing =
        some (.of (.ctor "Some") [.of (.bool false) []]) ∧
      ∃ tokens, Token.lex "Some false" = .ok tokens ∧
        Parser.ReadsAs (Parser.ofTokens Parser.pattern tokens) fun p =>
          ∃ core s₁, pattern optionalBool [] p {} optionEnd = (.ok (core, []), s₁) ∧
            Case.ofPattern core = .of (.ctor "Some") [.of (.bool false) []] ∧
            2 ∉ (Coverage.analyze initialVariantEnv (cores ++ [core])).unused :=
  ⟨accepted_optionArms, selfFree_optionEnd, missing_optionArms,
    missing_case_useful_arm (s := optionStart) .initial spells_initialVariantEnv wf_optionStart
      triangular_optionStart (known_optionalBool _) accepted_optionArms sized_optionArms
      selfFree_optionEnd missing_optionArms⟩

/-! ### A kind that mentions its own variable -/

/-- An optional value with a field. -/
def optionalField : Ty := .variant "option" [.var 6 .erased] .erased

/-- The state in which the type of the field is a variable. -/
def fieldStart : CheckState :=
  (optionStart.give .universal).give (.record [("f", .var 5 .erased)])

def fieldNone : CheckState := (pattern optionalField [] nonePattern {} fieldStart).2

/-- The state in which the field is found to be a list of values with the field. -/
def fieldEnd : CheckState :=
  (unify (.var 5 .erased) (.list (.var 6 .erased) .erased) .erased {} fieldNone).2

theorem wf_fieldStart : fieldStart.Wf := by
  have huniversal : Kind.universal.Known optionStart.next := ⟨⟨by decide, nofun⟩, nofun⟩
  refine (wf_optionStart.give huniversal).give ⟨⟨by decide, ?_⟩, ?_⟩
  · exact List.forall_mem_singleton.2 (.var 5 .erased)
  · refine List.forall_mem_singleton.2 fun v hv => ?_
    obtain rfl := Ty.mem_freeVars_var.1 hv
    decide

theorem known_optionalField : optionalField.Known fieldStart.next :=
  .variant (List.forall_mem_singleton.2 (.var (by decide) .erased)) "option" .erased

theorem accepted_optionalField :
    Accepted {} optionalField fieldStart [.construct "None" []] fieldEnd := by
  have hnone : pattern optionalField [] nonePattern {} fieldStart =
      (.ok (.construct "None" [], []), fieldNone) := rfl
  have htri : fieldStart.solver.subst.Triangular True := triangular_optionStart
  obtain ⟨h₁, -⟩ := finds_pattern wf_fieldStart htri known_optionalField [] nonePattern _ _ hnone
  have hlist : (Ty.list (.var 6 .erased) .erased).Known fieldNone.next :=
    (Ty.Known.var (by decide) .erased).list .erased
  have hkeeps := keeps_unify (o := {}) h₁.wf (Ty.Known.var (by decide : 5 < fieldNone.next) .erased)
    hlist .erased
  have hsubst : fieldEnd.solver.subst =
      fieldNone.solver.subst.bind 5 (.list (.var 7 .erased) .erased) := rfl
  have hunbound : fieldNone.solver.subst.find? 5 = none := rfl
  have h₂ : fieldNone.Later fieldEnd := by
    refine ⟨hkeeps.1, hkeeps.2.1, ?_, ?_⟩
    · rw [hsubst]
      refine h₁.triangular.bind (.list .erased (.var 7 .erased)) (fun w hw => ?_) (by decide)
      obtain rfl := Ty.mem_freeVars_var.1 (Ty.mem_freeVars_list.1 hw)
      rfl
    · rw [hsubst]
      exact Substitution.extendedBy_bind hunbound
  exact .cons hnone h₂ (.nil (.refl h₂.wf h₂.triangular))

theorem missing_optionalField :
    (Coverage.analyze initialVariantEnv [.construct "None" []]).missing =
      some (.of (.ctor "Some") [.any]) := by
  change (Coverage.missing initialVariantEnv [[.of (.ctor "None") []]] 1).bind List.head? = _
  rw [Coverage.missing_of_incomplete rfl, Coverage.missing]
  rfl

/-- Once the kind of a variable mentions the variable itself, the pattern for the missing case is
refused. -/
theorem missing_case_refused_optionalField :
    fieldStart.Wf ∧ fieldStart.solver.subst.Triangular True ∧ optionalField.Known fieldStart.next ∧
      Accepted {} optionalField fieldStart [.construct "None" []] fieldEnd ∧
      (Coverage.analyze initialVariantEnv [.construct "None" []]).missing =
        some (.of (.ctor "Some") [.any]) ∧
      ∃ tokens p, Token.lex ((Case.of (.ctor "Some") [.any]).print false) = .ok tokens ∧
        Parser.ofTokens Parser.pattern tokens = .ok p ∧
        ∃ e s₁, pattern optionalField [] p {} fieldEnd = (.error e, s₁) := by
  have htext : (Case.of (.ctor "Some") [.any]).print false = "Some _" := rfl
  have hlex : Token.lex "Some _" = .ok [⟨.constructor, "Some", .source ⟨1, 1⟩ ⟨1, 5⟩⟩,
      ⟨.ident, "_", .source ⟨1, 6⟩ ⟨1, 7⟩⟩, ⟨.eof, "", .source ⟨1, 7⟩ ⟨1, 7⟩⟩] := by
    decide +kernel
  refine ⟨wf_fieldStart, triangular_optionStart, known_optionalField, accepted_optionalField,
    missing_optionalField, _, _, htext ▸ hlex, rfl, _, _, rfl⟩

end Check

end FieldML
