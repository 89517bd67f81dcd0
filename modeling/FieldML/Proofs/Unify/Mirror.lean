import FieldML.Proofs.Unify.Apart
import FieldML.Proofs.Unify.General
import Mathlib.Data.List.Zip
import Mathlib.Logic.Equiv.Basic

/-!
# Comparisons the other way round

While no variable has a record kind, it does not matter which of two types comes first: both
comparisons succeed or both fail. Where two variables meet, the one or the other is bound, and so
the states afterwards are the same up to a renaming.
-/

namespace FieldML

open Unify

variable {syn : Prop} {ρ ρ' : Equiv.Perm TypeVar} {t u : Ty} {v w : TypeVar} {r : Range}

namespace Ty

/-- The second type is the first one with other variables, apart from ranges. -/
def Matches (ρ : Equiv.Perm TypeVar) (t u : Ty) : Prop := (t.rename ρ).erase = u.erase

theorem expand_rename (f : TypeVar → TypeVar) (t : Ty) :
    (t.rename f).expand = t.expand.rename f := by
  match t with
  | synonym _ _ body _ => exact expand_rename f body
  | base _ _ | var _ _ | func _ _ _ | list _ _ | ref _ _ | product _ _ | variant _ _ _
  | all _ _ _ _ | record _ _ => rfl

theorem partwise_erase : Partwise erase :=
  ⟨fun _ _ => rfl, fun _ _ _ => rfl, fun _ _ => rfl, fun _ _ => rfl,
    fun ts _ => by rw [erase, eraseList_eq_map], fun n ts _ => by rw [erase, eraseList_eq_map],
    fun fs _ => by rw [erase, eraseFields_eq_map]⟩

theorem partwise_erase_rename (f : TypeVar → TypeVar) : Partwise fun t => (t.rename f).erase where
  base _ _ := rfl
  func _ _ _ := rfl
  list _ _ := rfl
  ref _ _ := rfl
  product ts r := by
    rw [rename, mapVars_product, partwise_erase.product, List.map_map]
    rfl
  variant n ts r := by
    rw [rename, mapVars_variant, partwise_erase.variant, List.map_map]
    rfl
  record fs r := by
    rw [rename, mapVars_record, partwise_erase.record, List.map_map]
    rfl

namespace Matches

protected theorem expand (h : t.Matches ρ u) : t.expand.Matches ρ u.expand := by
  rw [Matches, ← expand_rename, erase_expand, h, ← erase_expand]

theorem eq_var (h : (var v r).Matches ρ u) : ∃ r', u = .var (ρ v) r' := by
  cases u <;> simp only [Matches, rename, mapVars, erase, reduceCtorEq] at h
  obtain ⟨rfl, -⟩ := var.inj h
  exact ⟨_, rfl⟩

theorem isRigid (h : t.Matches ρ u) (ht : IsRigid t) : IsRigid u := by
  have hu : IsRigid u.erase := h ▸ (partwise_erase_rename ρ).isRigid ht
  cases u <;> first | exact hu.elim | trivial

theorem mem_freeVars (h : t.Matches ρ u) (ht : t.Simple syn) :
    ρ v ∈ u.freeVars ↔ v ∈ t.freeVars := by
  rw [← freeVars_erase u, ← h, freeVars_erase]
  refine ⟨fun hv => ?_, ht.mem_freeVars_rename⟩
  obtain ⟨w, hw, heq⟩ := ht.exists_of_mem_freeVars_rename hv
  exact ρ.injective heq ▸ hw

theorem sameUpTo (h : t.Matches ρ u) (ht : t.Simple syn) (hu : u.Simple syn) : t.SameUpTo ρ u := by
  calc
    t.mono (fun v => .var (ρ v)) = (t.rename ρ).mono .var := (ht.mono_mapVars fun _ _ _ => rfl).symm
    _ = (t.rename ρ).erase.mono .var := (ht.rename ρ).mono_erase.symm
    _ = u.erase.mono .var := by rw [h]
    _ = u.mono .var := hu.mono_erase

end Matches

/-- Replacements that put in the same types apart from ranges lead to the same type apart from
ranges. -/
theorem Simple.erase_mapVars_congr {f g : Replacement} (ht : t.Simple syn)
    (h : ∀ v ∈ t.freeVars, ∀ r r', (f [] v r).erase = (g [] v r').erase) :
    (t.mapVars f []).erase = (t.mapVars g []).erase := by
  -- Elsewhere the replacements do not matter.
  let f' : Replacement := fun _ v r => if v ∈ t.freeVars then f [] v r else .var v r
  let g' : Replacement := fun _ v r => if v ∈ t.freeVars then g [] v r else .var v r
  let common : Replacement := fun _ v _ =>
    if v ∈ t.freeVars then (g [] v .erased).erase else .var v .erased
  have hf : f'.Erased common := fun _ v r => by
    dsimp only [f', common]
    split
    · next hv => exact h v hv r .erased
    · rfl
  have hg : g'.Erased common := fun _ v r => by
    dsimp only [g', common]
    split
    · next hv => exact (h v hv r r).symm.trans (h v hv r .erased)
    · rfl
  calc
    (t.mapVars f []).erase = (t.mapVars f' []).erase :=
      congrArg erase (ht.mapVars_congr fun v hv r => (if_pos hv).symm)
    _ = t.erase.mapVars common [] := erase_mapVars hf [] t
    _ = (t.mapVars g' []).erase := (erase_mapVars hg [] t).symm
    _ = (t.mapVars g []).erase := congrArg erase (ht.mapVars_congr fun v hv r => if_pos hv)

end Ty

namespace Substitution

variable {s s' z z' : Substitution}

theorem erased_follow (s : Substitution) (n : Nat) :
    (s.follow n).Erased fun bound v _ => (s.follow n bound v .erased).erase := by
  intro bound v r
  cases n with
  | zero => rfl
  | succ n =>
      change (s.follow (n + 1) bound v r).erase = (s.follow (n + 1) bound v .erased).erase
      rw [follow, follow]
      split
      · rfl
      · split <;> rfl

theorem erase_apply_congr (s : Substitution) (h : t.erase = u.erase) :
    (s.apply t).erase = (s.apply u).erase := by
  rw [apply, apply, Ty.erase_mapVars (s.erased_follow _), h, ← Ty.erase_mapVars (s.erased_follow _)]

theorem erase_apply_var (s : Substitution) (v : TypeVar) (r r' : Range) :
    (s.apply (.var v r)).erase = (s.apply (.var v r')).erase := s.erase_apply_congr rfl

/-- What the first substitution makes of the first type is what the second one makes of the second
type, up to the renaming. -/
def Corresponds (ρ : Equiv.Perm TypeVar) (s z : Substitution) (t u : Ty) : Prop :=
  (s.apply t).Matches ρ (z.apply u)

theorem corresponds_var_of_none (hs : s.find? v = none) (hz : z.find? (ρ v) = none) :
    Corresponds ρ s z (.var v .erased) (.var (ρ v) .erased) := by
  rw [Corresponds, apply_var_of_none hs, apply_var_of_none hz]
  rfl

/-- Matching types correspond if their variables do. -/
theorem corresponds_of_matches (h : t.Matches ρ u) (ht : t.Simple syn)
    (hvar : ∀ v ∈ t.freeVars, Corresponds ρ' s z (.var v .erased) (.var (ρ v) .erased)) :
    Corresponds ρ' s z t u := by
  have hfollow : ∀ v ∈ t.freeVars, ∀ r r',
      ((s.follow s.size [] v r).rename ρ').erase = (z.follow z.size [] (ρ v) r').erase := by
    intro v hv r r'
    calc
      ((s.apply (.var v r)).rename ρ').erase = ((s.apply (.var v .erased)).rename ρ').erase := by
        rw [Ty.erase_rename, s.erase_apply_var v r .erased, ← Ty.erase_rename]
      _ = (z.apply (.var (ρ v) .erased)).erase := hvar v hv
      _ = (z.apply (.var (ρ v) r')).erase := z.erase_apply_var _ _ _
  have hcompose : z.apply (t.rename ρ) = t.mapVars (fun _ v r => z.follow z.size [] (ρ v) r) [] :=
    ht.mapVars_mapVars
  calc
    ((s.apply t).rename ρ').erase =
        (t.mapVars (fun _ v r => (s.follow s.size [] v r).rename ρ') []).erase :=
      congrArg Ty.erase ht.mapVars_mapVars
    _ = (t.mapVars (fun _ v r => z.follow z.size [] (ρ v) r) []).erase :=
      ht.erase_mapVars_congr hfollow
    _ = (z.apply (t.rename ρ)).erase := congrArg Ty.erase hcompose.symm
    _ = (z.apply u).erase := z.erase_apply_congr h

/-- Types that correspond keep doing so if the variables do that were free. -/
theorem Corresponds.extend (h : Corresponds ρ s z t u) (hs : s.Triangular syn)
    (hs' : s'.Triangular syn) (hext : s.ExtendedBy s') (hz : z.Triangular syn)
    (hz' : z'.Triangular syn) (hextz : z.ExtendedBy z') (ht : t.Simple syn) (hu : u.Simple syn)
    (hvar : ∀ v, s.find? v = none →
      Corresponds ρ' s' z' (.var v .erased) (.var (ρ v) .erased)) : Corresponds ρ' s' z' t u := by
  rw [Corresponds, ← hs.apply_apply hs' hext ht, ← hz.apply_apply hz' hextz hu]
  exact corresponds_of_matches h (hs.simple.apply ht) fun v hv =>
    hvar v (hs.find?_of_mem_freeVars_apply ht hv)

end Substitution

namespace Unify

open Solver Substitution

variable {s s' s₁ z z' z₁ : Solver} {a b a' b' : Ty} {n m : Nat} {ps ps' : List (Ty × Ty)}
  {o o' : Option Reason}

section Swap

/-- The pairs and the reason for a failure are those of the comparison the other way round. -/
theorem componentPairs_swap (ts us : List Ty) :
    (componentPairs us ts).1 = (componentPairs ts us).1.map Prod.swap ∧
      ((componentPairs us ts).2 = none ↔ (componentPairs ts us).2 = none) := by
  unfold componentPairs
  by_cases hlength : ts.length = us.length
  · rw [if_pos hlength, if_pos hlength.symm]
    exact ⟨List.zip_swap ts us |>.symm, Iff.rfl⟩
  · rw [if_neg hlength, if_neg (Ne.symm hlength)]
    simp

theorem recordPairs_swap {fs gs : List (String × Ty)} (hfs : Fields.Sorted fs)
    (hgs : Fields.Sorted gs) :
    (recordPairs gs fs).1 = (recordPairs fs gs).1.map Prod.swap ∧
      ((recordPairs gs fs).2 = none ↔ (recordPairs fs gs).2 = none) := by
  by_cases hnames : Fields.names fs = Fields.names gs
  · rw [recordPairs_eq_zip hgs hnames, recordPairs_eq_zip hfs hnames.symm]
    exact ⟨(List.zip_swap _ _).symm, Iff.rfl⟩
  · obtain ⟨hnil, hsome⟩ := recordPairs_of_names_ne hfs hgs hnames
    obtain ⟨hnil', hsome'⟩ := recordPairs_of_names_ne hgs hfs (Ne.symm hnames)
    rw [hnil, hnil']
    exact ⟨rfl, iff_of_false hsome' hsome⟩

theorem parts_swap (ht : t.Simple syn) (hu : u.Simple syn) :
    (parts u t).1 = (parts t u).1.map Prod.swap ∧
      ((parts u t).2 = none ↔ (parts t u).2 = none) := by
  cases ht <;> cases hu
  case base.base b _ c _ => simp [parts, eq_comm]
  case product.product => exact componentPairs_swap _ _
  case variant.variant ts n _ _ us m _ _ =>
    by_cases hnm : n = m
    · rw [parts, parts, if_pos hnm, if_pos hnm.symm]
      exact componentPairs_swap _ _
    · rw [parts, parts, if_neg hnm, if_neg (Ne.symm hnm)]
      simp
  case record.record hfs _ _ _ hgs _ => exact recordPairs_swap hfs hgs
  all_goals simp [parts]

/-- What is found under the names of sorted lists is the same if it is found under common names
only. -/
theorem filterMap_congr_of_sorted {α : Type} {ns ms : List String} {f : String → Option α}
    (hns : ns.Pairwise (· < ·)) (hms : ms.Pairwise (· < ·))
    (h : ∀ n, (f n).isSome → n ∈ ns ∧ n ∈ ms) : ns.filterMap f = ms.filterMap f := by
  have hfound : ∀ l : List String,
      l.filterMap f = (l.filter fun n => (f n).isSome).filterMap f := by
    intro l
    rw [List.filterMap_filter]
    refine List.filterMap_congr fun n _ => ?_
    cases f n <;> rfl
  have hnodup : ∀ {l : List String}, l.Pairwise (· < ·) → l.Nodup := fun hl =>
    hl.imp fun h => String.ne_of_lt h
  rw [hfound ns, hfound ms]
  refine congrArg (List.filterMap f) (List.Perm.eq_of_pairwise
    (fun _ _ _ _ h h' => absurd h' (String.lt_asymm h)) (hns.filter _) (hms.filter _)
    ((List.perm_ext_iff_of_nodup ((hnodup hns).filter _) ((hnodup hms).filter _)).2 fun n => ?_))
  simp only [List.mem_filter]
  exact ⟨fun hn => ⟨(h n hn.2).2, hn.2⟩, fun hn => ⟨(h n hn.2).1, hn.2⟩⟩

theorem sharedPairs_swap {k l : Kind} (hk : Fields.Sorted k.fields) (hl : Fields.Sorted l.fields) :
    sharedPairs l k = (sharedPairs k l).map Prod.swap := by
  let shared (n : String) : Option (Ty × Ty) :=
    (Fields.get? k.fields n).bind fun t => (Fields.get? l.fields n).map (·, t)
  have hleft : sharedPairs l k = (Fields.names k.fields).filterMap shared := by
    rw [sharedPairs, Fields.names, List.filterMap_map]
    refine List.filterMap_congr fun p hp => ?_
    dsimp only [Function.comp_apply, shared]
    rw [Fields.get?_of_mem hk hp, Option.bind_some]
  have hright : (sharedPairs k l).map Prod.swap = (Fields.names l.fields).filterMap shared := by
    rw [sharedPairs, Fields.names, List.filterMap_map, List.map_filterMap]
    refine List.filterMap_congr fun p hp => ?_
    dsimp only [Function.comp_apply, shared]
    rw [Fields.get?_of_mem hl hp]
    cases Fields.get? k.fields p.1 <;> rfl
  rw [hleft, hright]
  refine filterMap_congr_of_sorted hk hl fun n hn => ?_
  obtain ⟨p, hp⟩ := Option.isSome_iff_exists.1 hn
  obtain ⟨t, ht, hmap⟩ := Option.bind_eq_some_iff.1 hp
  obtain ⟨u, hu, -⟩ := Option.map_eq_some_iff.1 hmap
  exact ⟨Fields.mem_names.2 ⟨t, Fields.mem_of_get? ht⟩,
    Fields.mem_names.2 ⟨u, Fields.mem_of_get? hu⟩⟩

end Swap

/-- What holds of two states that are the same up to the renaming, as far as free variables go. -/
structure Twins (syn : Prop) (ρ : Equiv.Perm TypeVar) (s z : Solver) : Prop where
  left : s.Proper syn
  right : z.Proper syn
  leftPlain : s.Plain
  rightPlain : z.Plain
  free : ∀ v, s.subst.find? v = none → z.subst.find? (ρ v) = none

/-- The states before and after two comparisons of which one is the other one up to a renaming. -/
structure Mirrors (syn : Prop) (ρ ρ' : Equiv.Perm TypeVar) (s z s' z' : Solver) : Prop where
  left : Binds syn s s'
  right : Binds syn z z'
  free : ∀ v, s'.subst.find? v = none → z'.subst.find? (ρ' v) = none
  var : ∀ v, s.subst.find? v = none →
    Corresponds ρ' s'.subst z'.subst (.var v .erased) (.var (ρ v) .erased)

/-- Each pair of the second list corresponds to the one of the first list, but the other way round.
-/
def Mirrored (ρ : Equiv.Perm TypeVar) (s z : Substitution) :
    List (Ty × Ty) → List (Ty × Ty) → Prop :=
  List.Forall₂ fun p q => Corresponds ρ s z p.1 q.2 ∧ Corresponds ρ s z p.2 q.1

/-- A state is its own twin. -/
theorem Twins.same (hs : s.Proper syn) (hplain : s.Plain) : Twins syn (Equiv.refl _) s s :=
  ⟨hs, hs, hplain, hplain, fun _ hv => hv⟩

theorem corresponds_self (s : Substitution) (ht : t.Simple syn) (hs : s.Simple syn) :
    Corresponds (Equiv.refl _) s s t t :=
  congrArg Ty.erase ((hs.apply ht).mapVars_eq_self fun _ _ _ => rfl)

theorem mirrored_swap (hs : s.subst.Simple syn) (hps : AllSimple syn ps) :
    Mirrored (Equiv.refl _) s.subst s.subst ps (ps.map Prod.swap) := by
  rw [Mirrored, List.forall₂_map_right_iff, List.forall₂_same]
  exact fun p hp => ⟨corresponds_self _ (hps p hp).1 hs, corresponds_self _ (hps p hp).2 hs⟩

namespace Mirrors

variable {ρ₁ : Equiv.Perm TypeVar}

theorem twins (h : Mirrors syn ρ ρ' s z s' z') : Twins syn ρ' s' z' :=
  ⟨h.left.proper, h.right.proper, h.left.plain, h.right.plain, h.free⟩

/-- Nothing was learned. -/
theorem of_eq (h : Twins syn ρ s z) (hs : Binds syn s s') (hz : Binds syn z z')
    (hss : s'.subst = s.subst) (hzz : z'.subst = z.subst) : Mirrors syn ρ ρ s z s' z' where
  left := hs
  right := hz
  free v hv := by
    rw [hss] at hv
    rw [hzz]
    exact h.free v hv
  var v hv := by
    rw [hss, hzz]
    exact corresponds_var_of_none hv (h.free v hv)

theorem corresponds (h : Mirrors syn ρ ρ' s z s' z') (htwins : Twins syn ρ s z)
    (ht : t.Simple syn) (hu : u.Simple syn) (htu : Corresponds ρ s.subst z.subst t u) :
    Corresponds ρ' s'.subst z'.subst t u :=
  htu.extend htwins.left.triangular h.left.proper.triangular h.left.extended htwins.right.triangular
    h.right.proper.triangular h.right.extended ht hu h.var

theorem mirrored (h : Mirrors syn ρ ρ' s z s' z') (htwins : Twins syn ρ s z)
    (hps : AllSimple syn ps) (hps' : AllSimple syn ps')
    (hpairs : Mirrored ρ s.subst z.subst ps ps') : Mirrored ρ' s'.subst z'.subst ps ps' := by
  induction hpairs with
  | nil => exact .nil
  | @cons p q ps ps' hpq _ ih =>
      obtain ⟨hp₁, hp₂⟩ := hps p List.mem_cons_self
      obtain ⟨hq₁, hq₂⟩ := hps' q List.mem_cons_self
      exact .cons ⟨h.corresponds htwins hp₁ hq₂ hpq.1, h.corresponds htwins hp₂ hq₁ hpq.2⟩
        (ih hps.tail hps'.tail)

theorem trans (h₁ : Mirrors syn ρ ρ₁ s z s₁ z₁) (h₂ : Mirrors syn ρ₁ ρ' s₁ z₁ s' z') :
    Mirrors syn ρ ρ' s z s' z' where
  left := h₁.left.trans h₂.left
  right := h₁.right.trans h₂.right
  free := h₂.free
  var v hv := h₂.corresponds h₁.twins (.var v _) (.var _ _) (h₁.var v hv)

end Mirrors

/-- Heads of types that correspond match. -/
theorem matches_heads (h : Corresponds ρ s.subst z.subst t u) : (s.head t).Matches ρ (z.head u) :=
  Ty.Matches.expand h

/-- The parts of types that match correspond, since their variables are free. -/
theorem mirrored_parts (h : Twins syn ρ s z) (hab : AllSimple syn [(a, b)])
    (hab' : AllSimple syn [(b', a')]) (ha : Corresponds ρ s.subst z.subst a a')
    (hb : Corresponds ρ s.subst z.subst b b') (hra : IsRigid (s.head a))
    (hrb : IsRigid (s.head b)) :
    Mirrored ρ s.subst z.subst (parts (s.head a) (s.head b)).1 (parts (z.head b') (z.head a')).1 ∧
      ((parts (s.head a) (s.head b)).2 = none ↔ (parts (z.head b') (z.head a')).2 = none) := by
  obtain ⟨hsa, hsb⟩ := hab.pair
  obtain ⟨hsb', hsa'⟩ := hab'.pair
  have hha := matches_heads ha
  have hhb := matches_heads hb
  have heq := (Ty.partwise_erase_rename ρ).parts hra hrb
  rw [hha, hhb, Ty.partwise_erase.parts (hha.isRigid hra) (hhb.isRigid hrb)] at heq
  obtain ⟨hparts, hreason⟩ := Prod.mk.inj heq
  obtain ⟨hswap, hnone⟩ := parts_swap (h.right.simple.head hsa') (h.right.simple.head hsb')
  refine ⟨?_, by rw [hnone, hreason]⟩
  -- The parts are renamed one by one.
  have hmatch := (List.forall₂_eq_eq_eq (α := Ty × Ty)).symm ▸ hparts.symm
  rw [List.forall₂_map_left_iff, List.forall₂_map_right_iff] at hmatch
  have hsimple := parts_simple (h.left.simple.head hsa) (h.left.simple.head hsb)
  have hfree := parts_inside (V := fun v => s.subst.find? v = none)
    (W := fun v => s.subst.find? v = none) (fun v => h.left.find?_of_mem_head hsa)
    (fun v => h.left.find?_of_mem_head hsb)
  have hcorresponds : ∀ {t u : Ty}, t.Simple syn → (∀ v ∈ t.freeVars, s.subst.find? v = none) →
      t.Matches ρ u → Corresponds ρ s.subst z.subst t u := fun ht hfree htu =>
    corresponds_of_matches htu ht fun v hv =>
      corresponds_var_of_none (hfree v hv) (h.free v (hfree v hv))
  rw [Mirrored, hswap, List.forall₂_map_right_iff]
  have hfacts : ∀ p ∈ (parts (s.head a) (s.head b)).1, _ ∧ _ := fun p hp =>
    And.intro (hsimple p hp) (hfree p hp)
  refine ((List.forall₂_and_left _ _).2 ⟨hfacts, hmatch⟩).imp
    fun p q ⟨⟨hsimple, hfree⟩, hpq⟩ => ?_
  obtain ⟨h₁, h₂⟩ := Prod.mk.inj hpq
  exact ⟨hcorresponds hsimple.1 hfree.1 h₁, hcorresponds hsimple.2 hfree.2 h₂⟩

/-- A variable that meets a type meets a matching one the other way round. -/
theorem Meet.mirror (hm : Meet s a b v t) (ha : Corresponds ρ s.subst z.subst a a')
    (hb : Corresponds ρ s.subst z.subst b b') : ∃ u, Meet z b' a' (ρ v) u ∧ t.Matches ρ u := by
  have hha := matches_heads ha
  have hhb := matches_heads hb
  obtain ⟨r, ⟨hv, rfl⟩ | ⟨hv, rfl⟩⟩ := hm
  · rw [hv] at hha
    obtain ⟨r', hv'⟩ := hha.eq_var
    exact ⟨_, ⟨r', Or.inr ⟨hv', rfl⟩⟩, hhb⟩
  · rw [hv] at hhb
    obtain ⟨r', hv'⟩ := hhb.eq_var
    exact ⟨_, ⟨r', Or.inl ⟨hv', rfl⟩⟩, hha⟩

/-- Both comparisons bind the variable to matching types. -/
theorem Mirrors.bind (h : Twins syn ρ s z)
    (hs : Binds syn s ((s.log (s.head a) (s.head b)).assign v t))
    (hz : Binds syn z ((z.log (z.head b') (z.head a')).assign (ρ v) u)) (ht : t.Simple syn)
    (hfree : ∀ w ∈ t.freeVars, s.subst.find? w = none) (hvt : v ∉ t.freeVars)
    (htu : t.Matches ρ u) :
    Mirrors syn ρ ρ s z ((s.log (s.head a) (s.head b)).assign v t)
      ((z.log (z.head b') (z.head a')).assign (ρ v) u) := by
  have hother : ∀ w, w ≠ v → s.subst.find? w = none →
      (s.subst.bind v t).find? w = none ∧ (z.subst.bind (ρ v) u).find? (ρ w) = none := by
    intro w hw hnone
    rw [find?_bind, if_neg (Ne.symm hw), find?_bind, if_neg fun heq => hw (ρ.injective heq).symm]
    exact ⟨hnone, h.free w hnone⟩
  refine ⟨hs, hz, fun w hw => ?_, fun w hw => ?_⟩
  · rw [subst_assign, subst_log, find?_bind] at hw
    split at hw
    · simp at hw
    · next hne => exact (hother w (Ne.symm hne) hw).2
  · by_cases hwv : w = v
    · subst hwv
      rw [Corresponds, hs.proper.triangular.apply_var_of_some (t := t) (by simp [find?_bind]),
        hz.proper.triangular.apply_var_of_some (t := u) (by simp [find?_bind])]
      refine corresponds_of_matches htu ht fun x hx => ?_
      obtain ⟨hx₁, hx₂⟩ := hother x (fun heq => hvt (heq ▸ hx)) (hfree x hx)
      exact corresponds_var_of_none hx₁ hx₂
    · obtain ⟨hw₁, hw₂⟩ := hother w hwv hw
      exact corresponds_var_of_none hw₁ hw₂

/-- Where two variables meet, the one stands for the other one afterwards, or the other way round.
-/
theorem Mirrors.join {rv rw' : Range} (h : Twins syn ρ s z) (hvw : v ≠ w)
    (hv : s.subst.find? v = none) (hw : s.subst.find? w = none)
    (hs : Binds syn s ((s.log (s.head a) (s.head b)).assign v (.var w rw')))
    (hz : Binds syn z ((z.log (z.head b') (z.head a')).assign (ρ w) (.var (ρ v) rv))) :
    Mirrors syn ρ ((Equiv.swap v w).trans ρ) s z
      ((s.log (s.head a) (s.head b)).assign v (.var w rw'))
      ((z.log (z.head b') (z.head a')).assign (ρ w) (.var (ρ v) rv)) := by
  have hne : ∀ {x y : TypeVar}, x ≠ y → ρ x ≠ ρ y := fun hxy heq => hxy (ρ.injective heq)
  have hleft : ∀ x, x ≠ v → s.subst.find? x = none →
      (s.subst.bind v (.var w rw')).find? x = none := fun x hx hnone => by
    rw [find?_bind, if_neg (Ne.symm hx), hnone]
  have hright : ∀ x, x ≠ w → s.subst.find? x = none →
      (z.subst.bind (ρ w) (.var (ρ v) rv)).find? (ρ x) = none := fun x hx hnone => by
    rw [find?_bind, if_neg (hne (Ne.symm hx)), h.free x hnone]
  have hswapw : ((Equiv.swap v w).trans ρ) w = ρ v := by simp
  have hother : ∀ x, x ≠ v → x ≠ w → ((Equiv.swap v w).trans ρ) x = ρ x := fun x hxv hxw => by
    rw [Equiv.trans_apply, Equiv.swap_apply_of_ne_of_ne hxv hxw]
  -- Both variables become the one that is still free.
  have hboth : ∀ {t u : Ty} {r r' : Range}, (s.subst.bind v (.var w rw')).apply t = .var w r →
      (z.subst.bind (ρ w) (.var (ρ v) rv)).apply u = .var (ρ v) r' →
      Corresponds ((Equiv.swap v w).trans ρ) (s.subst.bind v (.var w rw'))
        (z.subst.bind (ρ w) (.var (ρ v) rv)) t u := by
    intro t u r r' ht hu
    rw [Corresponds, ht, hu, Ty.Matches, Ty.rename, Ty.mapVars, hswapw]
    rfl
  refine ⟨hs, hz, fun x hx => ?_, fun x hx => ?_⟩
  · rw [subst_assign, subst_log, find?_bind] at hx
    split at hx
    · simp at hx
    · next hxv =>
        by_cases hxw : x = w
        · subst hxw
          rw [hswapw]
          exact hright v hvw hv
        · rw [hother x (Ne.symm hxv) hxw]
          exact hright x hxw hx
  · have hlast : ∀ r, (s.subst.bind v (.var w rw')).apply (.var w r) = .var w r := fun r =>
      apply_var_of_none (hleft w (Ne.symm hvw) hw)
    have hlast' : ∀ r, (z.subst.bind (ρ w) (.var (ρ v) rv)).apply (.var (ρ v) r) = .var (ρ v) r :=
      fun r => apply_var_of_none (hright v hvw hv)
    by_cases hxv : x = v
    · subst hxv
      refine hboth (r := rw') ?_ (hlast' _)
      exact (hs.proper.triangular.apply_var_of_some (by simp [find?_bind])).trans (hlast rw')
    · by_cases hxw : x = w
      · subst hxw
        exact hboth (hlast _)
          ((hz.proper.triangular.apply_var_of_some (by simp [find?_bind])).trans (hlast' rv))
      · rw [← hother x hxv hxw]
        refine corresponds_var_of_none (hleft x hxv hx) ?_
        rw [hother x hxv hxw]
        exact hright x hxw hx

/-- Comparing the other way round succeeds exactly if the comparison does, with the same results up
to a renaming. -/
theorem Runs.mirror (hrun : Runs n s ps o s') (hrun' : Runs m z ps' o' z') (h : Twins syn ρ s z)
    (hps : AllSimple syn ps) (hps' : AllSimple syn ps')
    (hpairs : Mirrored ρ s.subst z.subst ps ps') (ho : o ≠ some .outOfFuel)
    (ho' : o' ≠ some .outOfFuel) :
    (o = none ↔ o' = none) ∧ (o = none → ∃ ρ', Mirrors syn ρ ρ' s z s' z') := by
  induction hrun generalizing m z ps' o' z' ρ with
  | nil =>
      cases hpairs
      obtain ⟨rfl, rfl⟩ := hrun'.of_nil
      exact ⟨Iff.rfl, fun _ => ⟨ρ, .of_eq h (.refl h.left h.leftPlain) (.refl h.right h.rightPlain)
        rfl rfl⟩⟩
  | tooDeep => exact absurd rfl ho
  | @cons n s s₁ s₂ p ps o hrun₁ hrun₂ ih₁ ih₂ =>
      obtain _ | @⟨_, q, _, ps', hpq, hpairs⟩ := hpairs
      have hfirst : Mirrored ρ s.subst z.subst [p] [q] := .cons hpq .nil
      rcases hrun'.of_cons with ⟨z₁, hrun₁', hrun₂'⟩ | ⟨e, rfl, hrun₁'⟩
      · obtain ⟨ρ₁, h₁⟩ := (ih₁ hrun₁' h hps.head hps'.head hfirst (by simp) (by simp)).2 rfl
        obtain ⟨hiff, hmirrors⟩ := ih₂ hrun₂' h₁.twins hps.tail hps'.tail
          (h₁.mirrored h hps.tail hps'.tail hpairs) ho ho'
        exact ⟨hiff, fun hnone => (hmirrors hnone).imp fun ρ' h₂ => h₁.trans h₂⟩
      · have hfails := (ih₁ hrun₁' h hps.head hps'.head hfirst (by simp) ho').1.1 rfl
        simp at hfails
  | @stop n s s₁ p ps e hrun₁ ih =>
      obtain _ | @⟨_, q, _, ps', hpq, hpairs⟩ := hpairs
      have hfirst : Mirrored ρ s.subst z.subst [p] [q] := .cons hpq .nil
      rcases hrun'.of_cons with ⟨z₁, hrun₁', -⟩ | ⟨e', rfl, -⟩
      · have hfails := (ih hrun₁' h hps.head hps'.head hfirst ho (by simp)).1.2 rfl
        simp at hfails
      · simp
  | @same n s a b v r r' hva hvb =>
      obtain _ | @⟨_, ⟨b', a'⟩, _, _, ⟨ha, hb⟩, ⟨⟩⟩ := hpairs
      have hha := matches_heads ha
      have hhb := matches_heads hb
      rw [hva] at hha
      rw [hvb] at hhb
      obtain ⟨ra', hva'⟩ := hha.eq_var
      obtain ⟨rb', hvb'⟩ := hhb.eq_var
      rcases (hrun'.plainEnd h.rightPlain).of_vars hvb' hva' with rfl | ⟨-, rfl, rfl⟩ | ⟨hne, -⟩
      · exact absurd rfl ho'
      · exact ⟨Iff.rfl, fun _ => ⟨ρ, .of_eq h (.log h.left h.leftPlain)
          (.log h.right h.rightPlain) rfl rfl⟩⟩
      · exact absurd rfl hne
  | @rigid n s a b o s₁ hra hrb hrun ih =>
      obtain _ | @⟨_, ⟨b', a'⟩, _, _, ⟨ha, hb⟩, ⟨⟩⟩ := hpairs
      obtain ⟨hsa, hsb⟩ := hps.pair
      obtain ⟨hsb', hsa'⟩ := hps'.pair
      have hra' := (matches_heads ha).isRigid hra
      have hrb' := (matches_heads hb).isRigid hrb
      obtain ⟨hparts, hreason⟩ := mirrored_parts h hps hps' ha hb hra hrb
      rcases (hrun'.plainEnd h.rightPlain).of_rigid hrb' hra' with rfl | ⟨m', o₀, hrun₀, rfl⟩
      · exact absurd rfl ho'
      · have hlog : Binds syn s (s.log (s.head a) (s.head b)) := .log h.left h.leftPlain
        have hlog' : Binds syn z (z.log (z.head b') (z.head a')) := .log h.right h.rightPlain
        have hone : Mirrors syn ρ ρ s z _ _ := .of_eq h hlog hlog' rfl rfl
        obtain ⟨hiff, hmirrors⟩ := ih hrun₀ hone.twins
          (parts_simple (h.left.simple.head hsa) (h.left.simple.head hsb))
          (parts_simple (h.right.simple.head hsb') (h.right.simple.head hsa')) hparts
          (by rintro rfl; exact ho rfl) (by rintro rfl; exact ho' rfl)
        rw [Option.or_eq_none_iff, Option.or_eq_none_iff, hiff, hreason]
        exact ⟨Iff.rfl, fun hnone =>
          (hmirrors (hiff.2 hnone.1)).imp fun ρ' hmirrors => hone.trans hmirrors⟩
  | @occurs n s a b v t hm ht hvt =>
      obtain _ | @⟨_, ⟨b', a'⟩, _, _, ⟨ha, hb⟩, ⟨⟩⟩ := hpairs
      obtain ⟨hsa, hsb⟩ := hps.pair
      obtain ⟨u, hm', htu⟩ := hm.mirror ha hb
      rcases (hrun'.plainEnd h.rightPlain).of_meet hm' (htu.isRigid ht) with
        rfl | ⟨-, rfl⟩ | ⟨hvu, -⟩
      · exact absurd rfl ho'
      · simp
      · exact absurd ((htu.mem_freeVars (hm.simple h.left.simple hsa hsb)).2 hvt) hvu
  | @bind n s a b v t o s₁ hm ht hvt hrun _ =>
      obtain _ | @⟨_, ⟨b', a'⟩, _, _, ⟨ha, hb⟩, ⟨⟩⟩ := hpairs
      obtain ⟨hsa, hsb⟩ := hps.pair
      obtain ⟨hsb', hsa'⟩ := hps'.pair
      obtain ⟨u, hm', htu⟩ := hm.mirror ha hb
      obtain ⟨hnone, rfl⟩ := hrun.of_kindPairs_plain h.leftPlain
      rcases (hrun'.plainEnd h.rightPlain).of_meet hm' (htu.isRigid ht) with
        rfl | ⟨hvu, -⟩ | ⟨hvu, rfl, rfl⟩
      · exact absurd rfl ho'
      · exact absurd ((htu.mem_freeVars (hm.simple h.left.simple hsa hsb)).1 hvu) hvt
      · rw [hnone]
        exact ⟨Iff.rfl, fun _ => ⟨ρ, .bind h (hm.binds hvt h.left h.leftPlain hsa hsb)
          (hm'.binds hvu h.right h.rightPlain hsb' hsa') (hm.simple h.left.simple hsa hsb)
          (hm.free h.left hsa hsb).2 hvt htu⟩⟩
  | @join n s a b v w r r' s₁ hva hwb hvw hrun _ _ =>
      obtain _ | @⟨_, ⟨b', a'⟩, _, _, ⟨ha, hb⟩, ⟨⟩⟩ := hpairs
      obtain ⟨hsa, hsb⟩ := hps.pair
      obtain ⟨hsb', hsa'⟩ := hps'.pair
      have hha := matches_heads ha
      have hhb := matches_heads hb
      rw [hva] at hha
      rw [hwb] at hhb
      obtain ⟨ra', hva'⟩ := hha.eq_var
      obtain ⟨rb', hwb'⟩ := hhb.eq_var
      have hvw' : ρ w ≠ ρ v := fun heq => hvw (ρ.injective heq).symm
      obtain ⟨-, rfl⟩ := hrun.of_sharedPairs_plain h.leftPlain
      rw [strengthen_plain h.leftPlain]
      rcases (hrun'.plainEnd h.rightPlain).of_vars hwb' hva' with rfl | ⟨heq, -⟩ | ⟨-, rfl, rfl⟩
      · exact absurd rfl ho'
      · exact absurd heq hvw'
      · exact ⟨Iff.rfl, fun _ => ⟨_, .join h hvw (h.left.find?_of_head_eq hsa hva)
          (h.left.find?_of_head_eq hsb hwb) (binds_join h.left h.leftPlain hsa hsb hva hwb hvw)
          (binds_join h.right h.rightPlain hsb' hsa' hwb' hva' hvw')⟩⟩
  | @joinOccurs n s a b v w r r' s₁ _ _ _ _ _ hw _ =>
      rw [h.leftPlain v, h.leftPlain w] at hw
      exact absurd hw List.not_mem_nil
  | joinStop _ _ _ hrun _ =>
      obtain ⟨hnone, -⟩ := hrun.of_sharedPairs_plain h.leftPlain
      simp at hnone

end Unify

end FieldML
