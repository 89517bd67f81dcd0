import FieldML.Proofs.Unify.Transparent
import FieldML.VariantEnv

/-!
# Expanding all synonyms

Unification from nothing known is compared with unification where every synonym is expanded from the
start. Both grant the same calls and agree on every type, but for synonyms that leave an argument
unused: a variable of such an argument counts as occurring in the type.
-/

namespace FieldML

namespace Ty

variable {syn : Prop} {f : Replacement} {bound : List TypeVar} {t : Ty} {v : TypeVar}

/-- A simple type whose synonyms use all their arguments: what a synonym stands for mentions every
variable that an argument mentions. -/
inductive Full : Ty → Prop
  | base (b : BaseTy) (r : Range) : Full (.base b r)
  | var (v : TypeVar) (r : Range) : Full (.var v r)
  | func {p q : Ty} (r : Range) (hp : Full p) (hq : Full q) : Full (.func p q r)
  | list {t : Ty} (r : Range) (ht : Full t) : Full (.list t r)
  | ref {t : Ty} (r : Range) (ht : Full t) : Full (.ref t r)
  | product {ts : List Ty} (r : Range) (hts : ∀ t ∈ ts, Full t) : Full (.product ts r)
  | variant {ts : List Ty} (n : String) (r : Range) (hts : ∀ t ∈ ts, Full t) :
      Full (.variant n ts r)
  | synonym {ts : List Ty} {t : Ty} (n : String) (r : Range) (hts : ∀ t ∈ ts, Full t)
      (ht : Full t) (hvars : ∀ v, v ∈ t.freeVars ↔ v ∈ freeVarsOfList [] ts) :
      Full (.synonym n ts t r)
  | record {fs : List (String × Ty)} (r : Range) (hsorted : Fields.Sorted fs)
      (hfs : ∀ p ∈ fs, Full p.2) : Full (.record fs r)

namespace Full

theorem simple (ht : t.Full) : t.Simple True := by
  induction ht with
  | base b r => exact .base b r
  | var v r => exact .var v r
  | func r _ _ ihp ihq => exact .func r ihp ihq
  | list r _ ih => exact .list r ih
  | ref r _ ih => exact .ref r ih
  | product r _ ih => exact .product r ih
  | variant n r _ ih => exact .variant n r ih
  | synonym n r _ _ hvars ihts iht => exact .synonym n r trivial ihts iht fun v => (hvars v).1
  | record r hsorted _ ih => exact .record r hsorted ih

/-- Expanding the synonyms of such a type loses no variable. -/
theorem mem_freeVars_bare (ht : t.Full) (hv : v ∈ t.freeVars) : v ∈ t.bare.freeVars := by
  induction ht with
  | base b r => exact hv
  | var w r => exact hv
  | func r _ _ ihp ihq => exact mem_freeVars_func.2 ((mem_freeVars_func.1 hv).imp ihp ihq)
  | list r _ ih => exact ih hv
  | ref r _ ih => exact ih hv
  | product r _ ih =>
      obtain ⟨t, ht, hv⟩ := mem_freeVars_product.1 hv
      rw [bare_product, mem_freeVars_product]
      exact ⟨_, List.mem_map_of_mem ht, ih t ht hv⟩
  | variant n r _ ih =>
      obtain ⟨t, ht, hv⟩ := mem_freeVars_variant.1 hv
      rw [bare_variant, mem_freeVars_variant]
      exact ⟨_, List.mem_map_of_mem ht, ih t ht hv⟩
  | synonym n r _ _ hvars _ iht => exact iht ((hvars v).2 hv)
  | record r _ _ ih =>
      obtain ⟨p, hp, hv⟩ := mem_freeVars_record.1 hv
      rw [bare_record, mem_freeVars_record]
      exact ⟨_, List.mem_map_of_mem (f := fun p => (p.1, p.2.bare)) hp, ih p hp hv⟩

theorem of_mem_items (ht : t.Full) (hu : u ∈ t.items) : u.Full := by
  cases ht with
  | base | var | synonym => exact absurd hu List.not_mem_nil
  | func r hp hq =>
      simp only [items, List.mem_cons, List.not_mem_nil, or_false] at hu
      rcases hu with rfl | rfl
      · exact hp
      · exact hq
  | list r ht | ref r ht => exact List.mem_singleton.1 hu ▸ ht
  | product r hts | variant n r hts => exact hts u hu
  | record r hsorted hfs =>
      obtain ⟨p, hp, rfl⟩ := List.mem_map.1 hu
      exact hfs p hp

protected theorem expand (ht : t.Full) : t.expand.Full := by
  induction ht with
  | synonym n r _ _ _ _ iht => exact iht
  | base | var | func | list | ref | product | variant | record =>
      simp only [Ty.expand]
      constructor <;> assumption

protected theorem mapVars (ht : t.Full) (hf : ∀ v r, (f bound v r).Full)
    (hplace : ∀ v r r' w, w ∈ (f bound v r).freeVars → w ∈ (f bound v r').freeVars) :
    (t.mapVars f bound).Full := by
  induction ht with
  | base b r => exact .base b r
  | var v r => exact hf v r
  | func r _ _ ihp ihq => exact .func r ihp ihq
  | list r _ ih => exact .list r ih
  | ref r _ ih => exact .ref r ih
  | product r _ ih =>
      rw [mapVars_product]
      exact .product r (List.forall_mem_map.2 ih)
  | variant n r _ ih =>
      rw [mapVars_variant]
      exact .variant n r (List.forall_mem_map.2 ih)
  | @synonym ts t n r hts ht hvars ihts iht =>
      have hlist : ∀ w, w ∈ freeVarsOfList [] ts ↔ ∃ u ∈ ts, w ∈ u.freeVars :=
        fun w => mem_freeVarsOfList
      rw [mapVars_synonym]
      refine .synonym n r (List.forall_mem_map.2 ihts) iht fun w => ?_
      rw [mem_freeVarsOfList]
      -- Both have the variables that replace those of the synonym.
      constructor
      · intro hw
        obtain ⟨v, hv, r', hw⟩ := ht.simple.exists_of_mem_freeVars_mapVars hw
        obtain ⟨u, hu, hv⟩ := (hlist v).1 ((hvars v).1 hv)
        exact ⟨_, List.mem_map_of_mem hu,
          (hts u hu).simple.mem_freeVars_mapVars hv fun r => hplace v r' r w hw⟩
      · rintro ⟨_, hmem, hw⟩
        obtain ⟨u, hu, rfl⟩ := List.mem_map.1 hmem
        obtain ⟨v, hv, r', hw⟩ := (hts u hu).simple.exists_of_mem_freeVars_mapVars hw
        exact ht.simple.mem_freeVars_mapVars ((hvars v).2 ((hlist v).2 ⟨u, hu, hv⟩))
          fun r => hplace v r' r w hw
  | record r hsorted _ ih =>
      rw [mapVars_record]
      refine .record r ((Fields.sorted_congr (Fields.names_map _ _)).2 hsorted) ?_
      exact List.forall_mem_map.2 ih

end Full

/-- A type without synonyms has none that could leave an argument unused. -/
theorem Simple.full (ht : t.Simple False) : t.Full := by
  induction ht with
  | base b r => exact .base b r
  | var v r => exact .var v r
  | func r _ _ ihp ihq => exact .func r ihp ihq
  | list r _ ih => exact .list r ih
  | ref r _ ih => exact .ref r ih
  | product r _ ih => exact .product r ih
  | variant n r _ ih => exact .variant n r ih
  | synonym n r hsyn => exact hsyn.elim
  | record r hsorted _ ih => exact .record r hsorted ih

theorem Simple.full_bare (ht : t.Simple syn) : t.bare.Full := ht.bare.full

end Ty

namespace Substitution

variable {s : Substitution} {t : Ty}

/-- The synonyms in all types given to variables use all their arguments. -/
def Full (s : Substitution) : Prop := ∀ v t, s.find? v = some t → t.Full

theorem full_empty : empty.Full := fun v t hv => by simp [find?_empty] at hv

theorem Full.follow (h : s.Full) (n : Nat) (v : TypeVar) (r : Range) :
    (s.follow n [] v r).Full := by
  induction n generalizing v r with
  | zero => exact .var v r
  | succ n ih =>
      cases hfind : s.find? v with
      | none =>
          rw [follow_of_none _ hfind]
          exact .var v r
      | some t =>
          rw [follow_of_some _ hfind]
          exact (h v t hfind).mapVars ih fun _ r r' _ => mem_freeVars_follow n r r'

theorem Full.apply (h : s.Full) (ht : t.Full) : (s.apply t).Full :=
  ht.mapVars (h.follow _) fun _ r r' _ => mem_freeVars_follow _ r r'

theorem Full.bind (h : s.Full) (v : TypeVar) (ht : t.Full) : (s.bind v t).Full := by
  intro w u hw
  rw [find?_bind] at hw
  split at hw
  · exact Option.some.inj hw ▸ ht
  · exact h w u hw

end Substitution

namespace Unify

open Solver

variable {s s' : Solver} {a b t u : Ty} {v : TypeVar} {n : Nat} {ps : List (Ty × Ty)}
  {r : Option Reason}

/-- The synonyms in both types of every pair use all their arguments. -/
def AllFull (ps : List (Ty × Ty)) : Prop := ∀ p ∈ ps, p.1.Full ∧ p.2.Full

theorem parts_full (ht : t.Full) (hu : u.Full) : AllFull (parts t u).1 := fun _ hp =>
  ⟨ht.of_mem_items (mem_items_of_mem_parts hp).1, hu.of_mem_items (mem_items_of_mem_parts hp).2⟩

theorem head_full (hs : s.subst.Full) (ht : t.Full) : (s.head t).Full := (hs.apply ht).expand

theorem Meet.full (hm : Meet s a b v t) (hs : s.subst.Full) (ha : a.Full) (hb : b.Full) :
    t.Full := by
  obtain ⟨r, ⟨-, rfl⟩ | ⟨-, rfl⟩⟩ := hm
  · exact head_full hs hb
  · exact head_full hs ha

theorem recordPairs_ne_occurs (fs gs : List (String × Ty)) (v : TypeVar) (t : Ty) :
    (recordPairs fs gs).2 ≠ some (.occurs v t) := by
  unfold recordPairs
  split <;> simp

theorem componentPairs_ne_occurs (ts us : List Ty) (v : TypeVar) (t : Ty) :
    (componentPairs ts us).2 ≠ some (.occurs v t) := by
  unfold componentPairs
  split <;> simp

theorem parts_ne_occurs (a b : Ty) (v : TypeVar) (t : Ty) :
    (parts a b).2 ≠ some (.occurs v t) := by
  unfold parts
  split
  case h_1 => split <;> simp
  case h_5 => exact componentPairs_ne_occurs _ _ v t
  case h_6 =>
    split
    · exact componentPairs_ne_occurs _ _ v t
    · simp
  case h_7 => exact recordPairs_ne_occurs _ _ v t
  all_goals simp

/-- Comparing types whose synonyms use all their arguments leads to no others, also where it
fails. -/
theorem Runs.full (hrun : Runs n s ps r s') (hplain : s.Plain) (hs : s.subst.Full)
    (hps : AllFull ps) :
    s'.Plain ∧ s'.subst.Full ∧ ∀ v t, r = some (.occurs v t) → t.Full := by
  induction hrun with
  | nil | tooDeep | same => exact ⟨hplain, hs, by simp⟩
  | cons _ _ ih₁ ih₂ =>
      obtain ⟨hp, hps⟩ := List.forall_mem_cons.1 hps
      obtain ⟨hplain₁, hs₁, -⟩ := ih₁ hplain hs (by simpa [AllFull] using hp)
      exact ih₂ hplain₁ hs₁ hps
  | stop _ ih => exact ih hplain hs fun p hp => hps p (by simp_all)
  | @rigid n s a b r s₁ _ _ _ ih =>
      obtain ⟨ha, hb⟩ := hps (a, b) List.mem_cons_self
      obtain ⟨hplain₁, hs₁, hoccurs⟩ :=
        ih hplain hs (parts_full (head_full hs ha) (head_full hs hb))
      refine ⟨hplain₁, hs₁, fun v t hr => ?_⟩
      cases r with
      | none => exact absurd hr (parts_ne_occurs _ _ v t)
      | some e => exact hoccurs v t hr
  | @occurs n s a b v t hm _ _ =>
      obtain ⟨ha, hb⟩ := hps (a, b) List.mem_cons_self
      refine ⟨hplain, hs, fun w u hr => ?_⟩
      obtain ⟨rfl, rfl⟩ := Reason.occurs.inj (Option.some.inj hr)
      exact hm.full hs ha hb
  | @bind n s a b v t r s₁ hm _ _ hrun _ =>
      obtain ⟨ha, hb⟩ := hps (a, b) List.mem_cons_self
      obtain ⟨hnone, rfl⟩ := hrun.of_kindPairs_plain hplain
      rw [hnone]
      exact ⟨hplain, hs.bind v (hm.full hs ha hb), by simp⟩
  | @join n s a b v w r r' s₁ _ _ _ hrun _ _ =>
      obtain ⟨-, rfl⟩ := hrun.of_sharedPairs_plain hplain
      rw [strengthen_plain hplain]
      exact ⟨hplain, hs.bind v (.var w r'), by simp⟩
  | @joinOccurs n s a b v w r r' s₁ shape _ _ _ _ hw _ =>
      rw [hplain v, hplain w] at hw
      exact absurd hw List.not_mem_nil
  | joinStop _ _ _ hrun _ =>
      obtain ⟨hnone, -⟩ := hrun.of_sharedPairs_plain hplain
      simp at hnone

end Unify

namespace Substitution

variable {syn : Prop} {s : Substitution}

/-- The substitution with all synonyms expanded. -/
def expandAll (s : Substitution) : Substitution := ⟨s.bindings.map fun _ t => t.bare⟩

theorem find?_expandAll (v : TypeVar) : s.expandAll.find? v = (s.find? v).map Ty.bare := by
  simp [find?, expandAll]

theorem Simple.alike_expandAll (hs : s.Simple syn) : s.Alike s.expandAll := by
  intro v
  rw [find?_expandAll]
  cases hv : s.find? v with
  | none => rfl
  | some t => simp [(hs v t hv).bare_bare]

theorem Simple.full_expandAll (hs : s.Simple syn) : s.expandAll.Full := by
  intro v u hv
  rw [find?_expandAll, Option.map_eq_some_iff] at hv
  obtain ⟨t, ht, rfl⟩ := hv
  exact (hs v t ht).full_bare

theorem Triangular.expandAll (hs : s.Triangular syn) : s.expandAll.Triangular True := by
  obtain ⟨order, horder⟩ := hs.ordered
  refine ⟨fun v u hv => (hs.simple.full_expandAll v u hv).simple, order,
    fun v u hv w hw hbound => ?_⟩
  rw [find?_expandAll, Option.map_eq_some_iff] at hv
  obtain ⟨t, ht, rfl⟩ := hv
  refine horder v t ht w ((hs.simple v t ht).mem_freeVars_of_bare hw) fun hnone => hbound ?_
  rw [find?_expandAll, hnone, Option.map_none]

end Substitution

namespace Solver

open Unify

variable {syn : Prop} {s : Solver} {a b : Ty}

/-- The state with all synonyms expanded. -/
def expandAll (s : Solver) : Solver := { s with subst := s.subst.expandAll }

theorem Proper.expandAll (hs : s.Proper syn) (hplain : s.Plain) : s.expandAll.Proper True :=
  Plain.proper (s := s.expandAll) hplain hs.triangular.expandAll

/-- A call from a state of full types fails an occurs check only with a full type. -/
theorem Plain.full_of_occurs {e : Contradiction} {v : TypeVar} {t : Ty} (hplain : s.Plain)
    (hs : s.Simple True) (hfull : s.subst.Full) (ha : a.Full) (hb : b.Full)
    (herr : (s.unify a b).1 = .error e) (hreason : e.reason = .occurs v t) : t.Full := by
  obtain ⟨r, s₁, hrun, hunify⟩ := unify_runs hs ha.simple hb.simple
  obtain ⟨-, -, hoccurs⟩ := hrun.full hplain hfull (by simp [AllFull, ha, hb])
  rw [hunify] at herr
  cases r with
  | none => simp at herr
  | some e' =>
      obtain rfl := Except.error.inj herr
      exact hoccurs v t (congrArg some hreason)

theorem Plain.full_unify (hplain : s.Plain) (hs : s.Simple True) (hfull : s.subst.Full)
    (ha : a.Full) (hb : b.Full) : (s.unify a b).2.subst.Full := by
  obtain ⟨r, s₁, hrun, hunify⟩ := unify_runs hs ha.simple hb.simple
  obtain ⟨-, hfull₁, -⟩ := hrun.full hplain hfull (by simp [AllFull, ha, hb])
  rw [hunify]
  cases r with
  | none => exact hfull₁
  | some e => exact hfull

theorem Plain.full_unifyAll (hplain : s.Plain) (hs : s.Proper True) (hfull : s.subst.Full)
    {calls : List (Ty × Ty)} (hcalls : AllFull calls) : (s.unifyAll calls).subst.Full := by
  induction calls generalizing s with
  | nil => exact hfull
  | cons call calls ih =>
      obtain ⟨⟨ha, hb⟩, hcalls⟩ := List.forall_mem_cons.1 hcalls
      obtain ⟨hbinds, -⟩ := hplain.unify hs ha.simple hb.simple
      exact ih hbinds.plain hbinds.proper (hplain.full_unify hs.simple hfull ha hb) hcalls

/-- What becomes of a call after some calls, compared with the call of its types with all synonyms
expanded, in the state with all synonyms expanded. -/
structure Transparent (calls : List (Ty × Ty)) (a b : Ty) (s : Solver) : Prop where
  expanded : (s.unify a b).1 = .ok () → (s.expandAll.unify a.bare b.bare).1 = .ok ()
  /-- A call that is granted only with the synonyms expanded fails since a variable occurs in an
  argument that the body of a synonym does not mention. -/
  kept : (s.expandAll.unify a.bare b.bare).1 = .ok () →
    (s.unify a b).1 = .ok () ∨ ∃ e v t, (s.unify a b).1 = .error e ∧ e.reason = .occurs v t ∧
      v ∈ t.freeVars ∧ v ∉ t.bare.freeVars
  kept_of_full : AllFull calls → a.Full → b.Full →
    (s.expandAll.unify a.bare b.bare).1 = .ok () → (s.unify a b).1 = .ok ()
  /-- The resulting substitutions agree on every type once all synonyms are expanded. -/
  agree : (s.unify a b).1 = .ok () → ∀ t, t.Simple True →
    (s.unify a b).2.subst.bare t = (s.expandAll.unify a.bare b.bare).2.subst.bare t.bare

/-- Synonyms are transparent to unification, whichever calls were made before and whichever of them
succeeded, but for variables that occur only where no synonym uses them. -/
theorem transparent_unifyAll {calls : List (Ty × Ty)} (hcalls : AllSimple True calls)
    (ha : a.Simple True) (hb : b.Simple True) :
    Transparent calls a b (({} : Solver).unifyAll calls) := by
  have hbinds : Binds True {} (({} : Solver).unifyAll calls) :=
    plain_empty.unifyAll proper_empty hcalls
  have hfull : AllFull calls → (({} : Solver).unifyAll calls).subst.Full :=
    plain_empty.full_unifyAll proper_empty fun v t hv => by
      simp [show ({} : Solver).subst.find? v = none from Substitution.find?_empty] at hv
  generalize ({} : Solver).unifyAll calls = s at hbinds hfull ⊢
  obtain ⟨hs, hplain, -⟩ := hbinds
  have hs' := hs.expandAll hplain
  have hplain' : s.expandAll.Plain := hplain
  have hfa := ha.full_bare
  have hfb := hb.full_bare
  have hss : s.subst.Alike s.expandAll.subst := hs.triangular.simple.alike_expandAll
  have hkept (hok : (s.expandAll.unify a.bare b.bare).1 = .ok ()) :=
    unify_transparent hs' hs hplain' hplain hss.symm hfa.simple hfb.simple ha hb ha.bare_bare
      hb.bare_bare hok
  have hresult : (s.unify a b).1 = .ok () → (s.expandAll.unify a.bare b.bare).1 = .ok () ∧
      (s.unify a b).2.subst.Alike (s.expandAll.unify a.bare b.bare).2.subst := by
    intro hok
    rcases unify_transparent hs hs' hplain hplain' hss ha hb hfa.simple hfb.simple
      ha.bare_bare.symm hb.bare_bare.symm hok with hresult | ⟨e, v, t, herr, hreason, hv, hbare⟩
    · exact hresult
    · have ht := hplain'.full_of_occurs hs'.simple hs.triangular.simple.full_expandAll hfa hfb herr
        hreason
      exact absurd (ht.mem_freeVars_bare hv) hbare
  refine ⟨fun hok => (hresult hok).1, fun hok => (hkept hok).imp_left And.left, ?_, ?_⟩
  · intro hcalls ha hb hok
    rcases hkept hok with ⟨hok, -⟩ | ⟨e, v, t, herr, hreason, hv, hbare⟩
    · exact hok
    · have ht := hplain.full_of_occurs hs.simple (hfull hcalls) ha hb herr hreason
      exact absurd (ht.mem_freeVars_bare hv) hbare
  · intro hok t ht
    obtain ⟨hbinds₁, -⟩ := hplain.unify hs ha hb
    obtain ⟨hbinds₂, -⟩ := hplain'.unify hs' hfa.simple hfb.simple
    exact (hresult hok).2.bare_eq hbinds₁.proper.triangular hbinds₂.proper.triangular ht
      ht.full_bare.simple ht.bare_bare.symm

/-- A pair of one type is unified with a pair of variables, then a function from one of them with a
function from a text. -/
def twiceCalls : List (Ty × Ty) :=
  let twice := Ty.synonym "twice" [.var 0 .erased]
    (.product [.var 0 .erased, .var 0 .erased] .erased) .erased
  [(.list twice .erased, .list (.product [.var 1 .erased, .var 2 .erased] .erased) .erased),
    (.func (.var 2 .erased) twice .erased, .func (.base .string .erased) (.var 3 .erased) .erased)]

theorem full_twiceCalls : AllFull twiceCalls := by
  have htwice : (Ty.synonym "twice" [.var 0 .erased]
      (.product [.var 0 .erased, .var 0 .erased] .erased) .erased).Full :=
    .synonym _ _ (by simp [Ty.Full.var]) (.product _ (by simp [Ty.Full.var]))
      (by simp [Ty.freeVars, Ty.freeVarsUnder, Ty.freeVarsOfList])
  intro p hp
  simp only [twiceCalls, List.mem_cons, List.not_mem_nil, or_false] at hp
  rcases hp with rfl | rfl
  · exact ⟨.list _ htwice, .list _ (.product _ (by simp [Ty.Full.var]))⟩
  · exact ⟨.func _ (.var _ _) htwice, .func _ (.base _ _) (.var _ _)⟩

theorem transparent_unifyAll_twiceCalls :
    AllFull twiceCalls ∧
      ((({} : Solver).unifyAll (twiceCalls.take 1)).unify twiceCalls[1].1
        twiceCalls[1].2).1.isOk = true ∧
      Transparent (twiceCalls.take 1) twiceCalls[1].1 twiceCalls[1].2
        (({} : Solver).unifyAll (twiceCalls.take 1)) := by
  have hfull := full_twiceCalls
  have hlast : twiceCalls[1].1.Full ∧ twiceCalls[1].2.Full := hfull _ (List.getElem_mem _)
  refine ⟨hfull, by rfl, transparent_unifyAll (fun p hp => ?_) hlast.1.simple hlast.2.simple⟩
  obtain ⟨h₁, h₂⟩ := hfull p (List.mem_of_mem_take hp)
  exact ⟨h₁.simple, h₂.simple⟩

/-- A variable is refused as its own list of a synonym for integers that ignores its argument, and
is granted as a list of integers. -/
theorem unify_refuses_unusedArgument :
    let int := Ty.base .int .erased
    let ignores := Ty.synonym "k" [.var 0 .erased] int .erased
    let own := Ty.list ignores .erased
    let env := ((VariantEnv.Change.addSynonym "k" [7] int .erased).run.run {}).2
    (env.resolve "k" [.var 0 .erased] .erased).toOption = some ignores ∧
      (({} : Solver).unify (.var 0 .erased) own).1.isOk = false ∧
      (({} : Solver).expandAll.unify (.var 0 .erased) own.bare).1.isOk = true :=
  ⟨by rfl, by rfl, by rfl⟩

end Solver

end FieldML
