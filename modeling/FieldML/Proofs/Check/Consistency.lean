import FieldML.Proofs.Check.Register
import FieldML.Proofs.Check.Basic

/-!
# Declared types stay consistent

Types and constructors are kept in two tables, and three kinds of declarations change them in place.
Whatever is declared, in whatever order and whether or not it is refused, a variant lists exactly the
constructors that belong to it. A declaration that is accepted is in the tables afterwards, and
nothing that was declared before is changed.
-/

namespace FieldML

/-- What can be declared. -/
inductive Declaration where
  | ofVariant (name : String) (params : List TypeVar)
  | ofConstructor (variant name : String) (args : List Ty)
  | ofSynonym (name : String) (params : List TypeVar) (body : Ty)

/-- The change that makes a declaration at a place. -/
def Declaration.change (range : Range) : Declaration → VariantEnv.Change
  | .ofVariant name params => .declareVariant name params range
  | .ofConstructor variant name args => .addConstructor variant name args range
  | .ofSynonym name params body => .addSynonym name params body range

namespace VariantEnv

variable {env env' : VariantEnv} {d : Declaration} {range : Range}

/-- The tables with one more declaration, or why it is refused. -/
def answer (env : VariantEnv) (range : Range) : Declaration → Except VariantError VariantEnv
  | .ofVariant name params => env.define name (.variant params []) range
  | .ofConstructor variant name args => env.addConstructor variant name args range
  | .ofSynonym name params body => env.define name (.synonym params body) range

theorem run_change (env : VariantEnv) (range : Range) (d : Declaration) :
    (d.change range).run.run env = env.committed (env.answer range d) := by
  cases d with
  | ofVariant name params => exact Change.commits_declareVariant name params range env
  | ofConstructor variant name args => exact Change.commits_addConstructor variant name args range env
  | ofSynonym name params body => exact Change.commits_addSynonym name params body range env

/-- The tables that a declaration leaves, whether or not it is refused. -/
def after (env : VariantEnv) (range : Range) (d : Declaration) : VariantEnv :=
  ((d.change range).run.run env).2

/-- The tables after some more declarations, each at its place. -/
def afterAll (env : VariantEnv) (ds : List (Range × Declaration)) : VariantEnv :=
  ds.foldl (fun env d => env.after d.1 d.2) env

theorem after_of_ok (h : env.answer range d = .ok env') : env.after range d = env' := by
  rw [after, run_change, h]
  rfl

theorem after_of_error {e : VariantError} (h : env.answer range d = .error e) :
    env.after range d = env := by
  rw [after, run_change, h]
  rfl

/-- In a check only the tables are changed. -/
theorem changeVariants_change (o : CheckOptions) (s : CheckState) (range : Range)
    (d : Declaration) : (Check.changeVariants (d.change range) o s).2 =
      { s with variants := s.variants.after range d } := by
  change (Check.liftVariant ((d.change range).run.run s.variants).1 o
    { s with variants := s.variants.after range d }).2 = _
  cases ((d.change range).run.run s.variants).1 <;> rfl

/-! ### What the tables have to do with each other -/

/-- The tables of types and of constructors agree. -/
structure Consistent (env : VariantEnv) : Prop where
  /-- A constructor belongs to a variant exactly if the variant lists it. -/
  owned_iff : ∀ name variant, (∃ c, env.constructor? name = some c ∧ c.variant = variant) ↔
    ∃ params ctors, env.definition? variant = some (.variant params ctors) ∧ name ∈ ctors
  /-- It is listed once, and by no other variant. -/
  once : ∀ variant params ctors, env.definition? variant = some (.variant params ctors) →
    ∀ name ∈ ctors, ctors.count name = 1 ∧
      ∀ other params' ctors', env.definition? other = some (.variant params' ctors') →
        name ∈ ctors' → other = variant
  /-- It has the parameters of its variant. -/
  params : ∀ name c, env.constructor? name = some c →
    ∃ ctors, env.definition? c.variant = some (.variant c.params ctors)
  /-- Nothing has the name of a type that needs no declaration. -/
  reserves : env.Reserves

/-- No variant lists a constructor twice. -/
def ListsOnce (env : VariantEnv) : Prop :=
  ∀ variant params ctors, env.definition? variant = some (.variant params ctors) → ctors.Nodup

/-- What makes the tables agree, in a form that each declaration preserves. -/
structure Balanced (env : VariantEnv) : Prop where
  listed : env.Listed
  backed : env.Backed
  listsOnce : env.ListsOnce
  reserves : env.Reserves

theorem Balanced.consistent (h : env.Balanced) : env.Consistent where
  owned_iff name variant := by
    constructor
    · rintro ⟨c, hc, rfl⟩
      obtain ⟨ctors, hdef, hmem⟩ := h.listed name c hc
      exact ⟨c.params, ctors, hdef, hmem⟩
    · rintro ⟨params, ctors, hdef, hmem⟩
      exact h.backed variant params ctors hdef name hmem
  once variant params ctors hdef name hmem := by
    obtain ⟨c, hc, hvariant⟩ := h.backed variant params ctors hdef name hmem
    refine ⟨List.count_eq_one_of_mem (h.listsOnce variant params ctors hdef) hmem, ?_⟩
    intro other params' ctors' hother hmem'
    obtain ⟨c', hc', hvariant'⟩ := h.backed other params' ctors' hother name hmem'
    obtain rfl : c = c' := Option.some.inj (hc.symm.trans hc')
    exact hvariant'.symm.trans hvariant
  params name c hc := by
    obtain ⟨ctors, hdef, -⟩ := h.listed name c hc
    exact ⟨ctors, hdef⟩
  reserves := h.reserves

theorem balanced_empty : Balanced {} :=
  ⟨nofun, nofun, nofun, fun _ _ => rfl⟩

theorem balanced_initialVariantEnv : initialVariantEnv.Balanced where
  listed := known_initialVariantEnv.listed
  backed := backed_initialVariantEnv
  listsOnce variant params ctors hdef := by
    have hall : ∀ p ∈ initialVariantEnv.definitions, ∀ params ctors,
        p.2 = TypeDefinition.variant params ctors → ctors.Nodup := by
      simp only [initialVariantEnv, List.forall_mem_singleton, TypeDefinition.variant.injEq]
      rintro _ _ ⟨-, rfl⟩
      decide
    exact hall _ (Fields.mem_of_get? hdef) params ctors rfl
  reserves := reserves_initialVariantEnv

theorem ListsOnce.define (henv : env.ListsOnce) {name : String} {d : TypeDefinition}
    (hd : ∀ params ctors, d = .variant params ctors → ctors = [])
    (h : env.define name d range = .ok env') : env'.ListsOnce := by
  intro variant params ctors hdef
  rw [definition?_define h] at hdef
  split at hdef
  · rw [hd params ctors (Option.some.inj hdef)]
    exact List.nodup_nil
  · exact henv variant params ctors hdef

/-- A constructor that is declared nowhere is listed nowhere, so it may be added to a list. -/
theorem ListsOnce.addConstructor (henv : env.ListsOnce) (hbacked : env.Backed)
    {variant name : String} {args : List Ty}
    (h : env.addConstructor variant name args range = .ok env') : env'.ListsOnce := by
  obtain ⟨hnew, params, ctors, hdef, hdefs, -⟩ := addConstructor_eq_ok h
  have hfresh : name ∉ ctors := by
    intro hmem
    obtain ⟨c, hc, -⟩ := hbacked variant params ctors hdef name hmem
    cases hnew.symm.trans hc
  intro other params' ctors' hother
  rw [hdefs] at hother
  split at hother
  · obtain ⟨rfl, rfl⟩ := TypeDefinition.variant.inj (Option.some.inj hother)
    have hctors := henv variant params ctors hdef
    exact List.nodup_append.2 ⟨hctors, List.nodup_singleton name, fun a ha b hb =>
      List.mem_singleton.1 hb ▸ fun heq => hfresh (heq ▸ ha)⟩
  · exact henv other params' ctors' hother

theorem Balanced.define (h : env.Balanced) {name : String} {d : TypeDefinition}
    (hd : ∀ params ctors, d = .variant params ctors → ctors = [])
    (hok : env.define name d range = .ok env') : env'.Balanced :=
  ⟨h.listed.define hok, h.backed.define hd hok, h.listsOnce.define hd hok, h.reserves.define hok⟩

theorem Balanced.addConstructor (h : env.Balanced) {variant name : String} {args : List Ty}
    (hok : env.addConstructor variant name args range = .ok env') : env'.Balanced :=
  ⟨h.listed.addConstructor hok, h.backed.addConstructor hok,
    h.listsOnce.addConstructor h.backed hok, h.reserves.addConstructor hok⟩

theorem Balanced.answer (h : env.Balanced) (hok : env.answer range d = .ok env') :
    env'.Balanced := by
  cases d with
  | ofVariant name params => exact h.define (by simp) hok
  | ofConstructor variant name args => exact h.addConstructor hok
  | ofSynonym name params body => exact h.define (by simp) hok

theorem Balanced.after (h : env.Balanced) (range : Range) (d : Declaration) :
    (env.after range d).Balanced := by
  cases hanswer : env.answer range d with
  | ok env' => exact after_of_ok hanswer ▸ h.answer hanswer
  | error e => exact (after_of_error hanswer).symm ▸ h

theorem Balanced.afterAll (h : env.Balanced) (ds : List (Range × Declaration)) :
    (env.afterAll ds).Balanced := by
  induction ds generalizing env with
  | nil => exact h
  | cons d ds ih => exact ih (h.after d.1 d.2)

/-! ### What a declaration changes -/

/-- The second tables have all that the first ones have, where the list of a variant may have got
the constructor that is declared. -/
structure Extends (d : Declaration) (env env' : VariantEnv) : Prop where
  constructor? : ∀ name c, env.constructor? name = some c → env'.constructor? name = some c
  definition? : ∀ name t, env.definition? name = some t → env'.definition? name = some t ∨
    ∃ ctor args params ctors, d = .ofConstructor name ctor args ∧ t = .variant params ctors ∧
      env'.definition? name = some (.variant params (ctors ++ [ctor]))

theorem extends_of_define {name : String} {t : TypeDefinition}
    (h : env.define name t range = .ok env') : Extends d env env' where
  constructor? other c hc := (constructor?_define h).trans hc
  definition? other t' ht' := by
    have hne : name ≠ other := by
      rintro rfl
      cases (define_eq_ok h).1.symm.trans ht'
    exact .inl (by rw [definition?_define h, if_neg hne, ht'])

theorem extends_of_addConstructor {variant name : String} {args : List Ty}
    (h : env.addConstructor variant name args range = .ok env') :
    Extends (.ofConstructor variant name args) env env' := by
  obtain ⟨hnew, params, ctors, hdef, hdefs, hctors⟩ := addConstructor_eq_ok h
  refine ⟨fun other c hc => ?_, fun other t ht => ?_⟩
  · have hne : name ≠ other := by
      rintro rfl
      cases hnew.symm.trans hc
    rw [hctors, if_neg hne, hc]
  · by_cases heq : variant = other
    · subst heq
      obtain rfl : t = .variant params ctors := Option.some.inj (ht.symm.trans hdef)
      exact .inr ⟨name, args, params, ctors, rfl, rfl, by rw [hdefs, if_pos rfl]⟩
    · exact .inl (by rw [hdefs, if_neg heq, ht])

theorem extends_of_answer (h : env.answer range d = .ok env') : Extends d env env' := by
  cases d with
  | ofVariant name params => exact extends_of_define h
  | ofConstructor variant name args => exact extends_of_addConstructor h
  | ofSynonym name params body => exact extends_of_define h

/-- The declaration was not in the first tables, is in the second ones, and is all that they differ
in. -/
def Records (env env' : VariantEnv) : Declaration → Prop
  | .ofVariant name params => env.definition? name = none ∧
      (∀ other, env'.definition? other =
        if name = other then some (.variant params []) else env.definition? other) ∧
      ∀ other, env'.constructor? other = env.constructor? other
  | .ofSynonym name params body => env.definition? name = none ∧
      (∀ other, env'.definition? other =
        if name = other then some (.synonym params body) else env.definition? other) ∧
      ∀ other, env'.constructor? other = env.constructor? other
  | .ofConstructor variant name args => env.constructor? name = none ∧
      ∃ params ctors, env.definition? variant = some (.variant params ctors) ∧
        (∀ other, env'.definition? other =
          if variant = other then some (.variant params (ctors ++ [name]))
          else env.definition? other) ∧
        ∀ other, env'.constructor? other =
          if name = other then some ⟨variant, params, args⟩ else env.constructor? other

theorem records_of_answer (h : env.answer range d = .ok env') : Records env env' d := by
  cases d with
  | ofVariant name params =>
      exact ⟨(define_eq_ok h).1, fun _ => definition?_define h, fun _ => constructor?_define h⟩
  | ofConstructor variant name args => exact addConstructor_eq_ok h
  | ofSynonym name params body =>
      exact ⟨(define_eq_ok h).1, fun _ => definition?_define h, fun _ => constructor?_define h⟩

/-- Whatever is declared after one another, from nothing or from the types that every program can
use, the tables stay consistent. A declaration that is refused changes nothing, and one that is
accepted is recorded and leaves all that was there as it was, except that the list of a variant may
get one more constructor at its end. In a check, nothing but the tables changes. -/
theorem tables_stay_consistent {start : VariantEnv}
    (hstart : start = {} ∨ start = initialVariantEnv)
    (ds : List (Range × Declaration)) :
    (start.afterAll ds).Consistent ∧
    (∀ (range : Range) (d : Declaration) (env env' : VariantEnv),
      (∀ e, (d.change range).run.run env = (.error e, env') → env' = env) ∧
      ((d.change range).run.run env = (.ok (), env') → Records env env' d ∧ Extends d env env')) ∧
    ∀ (o : CheckOptions) (s : CheckState) (range : Range) (d : Declaration),
      (Check.changeVariants (d.change range) o s).2 =
        { s with variants := s.variants.after range d } := by
  have hbalanced : start.Balanced := by
    rcases hstart with rfl | rfl
    · exact balanced_empty
    · exact balanced_initialVariantEnv
  refine ⟨(hbalanced.afterAll ds).consistent, fun range d env env' => ?_, changeVariants_change⟩
  rw [run_change]
  cases hanswer : env.answer range d with
  | ok env₁ =>
      refine ⟨fun e h => ?_, fun h => ?_⟩
      · cases h
      · obtain rfl : env₁ = env' := (Prod.mk.inj h).2
        exact ⟨records_of_answer hanswer, extends_of_answer hanswer⟩
  | error e =>
      refine ⟨fun _ h => (Prod.mk.inj h).2.symm, fun h => ?_⟩
      cases h

/-- A constructor is declared twice and a synonym takes the name of its variant, which is refused
both times. Then a variant with the same name is refused too, and one with another name is not. -/
theorem tables_stay_consistent_twoRefused :
    let ds : List (Range × Declaration) :=
      [(.erased, .ofVariant "shape" [0]), (.erased, .ofConstructor "shape" "Dot" []),
        (.erased, .ofConstructor "shape" "Dot" [.var 0 .erased]),
        (.erased, .ofSynonym "shape" [] (.base .int .erased)),
        (.erased, .ofConstructor "shape" "Box" [.var 0 .erased])]
    let env := initialVariantEnv.afterAll ds
    env.variantCtors? "shape" = some ["Dot", "Box"] ∧
      (env.constructor? "Dot").map (·.args.length) = some 0 ∧ env.Consistent ∧
      env.after .erased (.ofVariant "shape" []) = env ∧
      Records env (env.after .erased (.ofVariant "line" [])) (.ofVariant "line" []) := by
  intro ds env
  obtain ⟨hconsistent, hchanges, -⟩ := tables_stay_consistent (.inr rfl) ds
  obtain ⟨hrefused, -⟩ := hchanges .erased (.ofVariant "shape" []) env
    (env.after .erased (.ofVariant "shape" []))
  obtain ⟨-, haccepted⟩ := hchanges .erased (.ofVariant "line" []) env
    (env.after .erased (.ofVariant "line" []))
  exact ⟨by decide +kernel, by decide +kernel, hconsistent, hrefused _ rfl, (haccepted rfl).1⟩

end VariantEnv

end FieldML
