import FieldML.Proofs.Check.PatternType
import FieldML.Proofs.Check.Scheme
import FieldML.Proofs.Script.Basic
import FieldML.Proofs.Script.Program

/-!
# New variables are new

A variable that is handed out is above every variable that occurs anywhere: in the declared types, in
the kinds, in the substitution, and in the types that the check has at hand. So a new variable has no
kind yet, and arguments made of new variables mention no parameter of a declaration.
-/

namespace FieldML

open Check

/-- Every variable in the declarations, also the parameters that a constructor has from its variant. -/
def VariantEnv.vars (env : VariantEnv) : List TypeVar :=
  env.allVars ++ env.constructors.flatMap (·.2.params)

/-- Every variable that occurs in what is declared and known, free or as a binder. -/
def CheckState.vars (s : CheckState) : List TypeVar :=
  s.variants.vars ++ s.solver.kinds.kinds.toList.flatMap (fun p => p.1 :: p.2.allVars) ++
    s.solver.subst.bindings.toList.flatMap (fun p => p.1 :: p.2.allVars)

/-- What is demanded of a call. The variable handed out must be above all that occurs;
a variable that is given a kind must have none, and no fault says otherwise; and replacing parameters
by arguments one after the other must be replacing them at once, since no argument mentions one. -/
def Check.Call.Sound : ∀ {α : Type}, Call α → CheckState → List Ty → Prop
  | _, .freshId, s, ts => ∀ o new s', Check.freshId o s = (.ok new, s') →
      ∀ v ∈ s.vars ++ ts.flatMap Ty.allVars, v < new
  | _, .giveKind v kind kinds, s, _ => s.solver.kinds.extend v kind = .ok kinds
  | _, .fail cause _ _, _, _ => ∀ c, cause ≠ .alreadyKinded c
  | _, .instantiateArgs c typeArgs _, _, _ => ApartFrom c.params typeArgs ∧
      c.instantiateArgs typeArgs = c.args.map (Ty.instantiateAll c.params typeArgs)
  | _, .resolve variants name args _, _, _ => ∀ params body,
      variants.definition? name.text = some (.synonym params body) → params.length = args.length →
        ApartFrom params args ∧ body.instantiateParams params args = body.instantiateAll params args
  | _, _, _, _ => True

section Below

variable {n : TypeVar} {t : Ty} {v : TypeVar}

theorem Ty.Known.lt_of_mem_allVars (ht : t.Known n) (hv : v ∈ t.allVars) : v < n :=
  ht.below v (ht.simple.mem_allVars.1 hv)

theorem Kind.Known.lt_of_mem_allVars {k : Kind} (hk : k.Known n) (hv : v ∈ k.allVars) : v < n := by
  obtain ⟨p, hp, hv⟩ := Kind.mem_allVars.1 hv
  exact Ty.Known.lt_of_mem_allVars ⟨hk.simple.2 p hp, hk.below p hp⟩ hv

theorem Ty.Scheme.lt_of_mem_allVars (ht : t.Scheme n) (hv : v ∈ t.allVars) : v < n := by
  induction ht with
  | plain ht => exact ht.lt_of_mem_allVars hv
  | all r hw hk ht ih =>
      rw [Ty.allVars, List.mem_cons, List.mem_append] at hv
      rcases hv with rfl | hv | hv
      · exact hw
      · exact hk.lt_of_mem_allVars hv
      · exact ih hv

end Below

namespace CheckState

variable {s s' : CheckState} {ts : List Ty}

/-- The state is as it should be, and all that occurs lies below the next variable. -/
structure Ready (s : CheckState) (ts : List Ty) : Prop where
  wf : s.Wf
  declared : ∀ v ∈ s.variants.vars, v < s.next
  held : ∀ t ∈ ts, t.Scheme s.next

theorem Ready.vars_lt (hs : s.Ready ts) {v : TypeVar} (hv : v ∈ s.vars ++ ts.flatMap Ty.allVars) :
    v < s.next := by
  simp only [vars, List.mem_append, List.mem_flatMap] at hv
  rcases hv with ((hv | ⟨⟨w, k⟩, hp, hv⟩) | ⟨⟨w, t⟩, hp, hv⟩) | ⟨t, ht, hv⟩
  · exact hs.declared v hv
  · have hfind : s.solver.kinds.kinds[w]? = some k := Std.TreeMap.mem_toList_iff_getElem?_eq_some.1 hp
    have hw : w < s.next := by
      by_contra hge
      rw [(hs.wf.fresh w (Nat.le_of_not_lt hge)).2] at hfind
      cases hfind
    have hkind : s.solver.kindOf w = k := by
      rw [Solver.kindOf, KindEnv.kindOf, Std.TreeMap.getD_eq_getD_getElem?, hfind, Option.getD_some]
    rcases List.mem_cons.1 hv with rfl | hv
    · exact hw
    · exact Kind.Known.lt_of_mem_allVars (k := k)
        ⟨hkind ▸ hs.wf.simple.kind w, hkind ▸ hs.wf.closed.kind w hw⟩ hv
  · have hfind : s.solver.subst.find? w = some t := Std.TreeMap.mem_toList_iff_getElem?_eq_some.1 hp
    have hw : w < s.next := by
      by_contra hge
      rw [(hs.wf.fresh w (Nat.le_of_not_lt hge)).1] at hfind
      cases hfind
    rcases List.mem_cons.1 hv with rfl | hv
    · exact hw
    · exact Ty.Known.lt_of_mem_allVars (t := t)
        ⟨hs.wf.simple.subst w t hfind, hs.wf.closed.binding w t hw hfind⟩ hv
  · exact (hs.held t ht).lt_of_mem_allVars hv

theorem Ready.leads (hs : s.Ready ts) (hlead : s.Leads s') (hs' : s'.Wf) : s'.Ready ts :=
  ⟨hs', fun v hv => (hs.declared v (hlead.variants ▸ hv)).trans_le hlead.next,
    fun t ht => (hs.held t ht).mono hlead.next⟩

theorem Ready.hold (hs : s.Ready ts) {us : List Ty} (hus : ∀ t ∈ us, t.Scheme s.next) :
    s.Ready (us ++ ts) :=
  ⟨hs.wf, hs.declared, fun t ht => (List.mem_append.1 ht).elim (hus t) (hs.held t)⟩

end CheckState

namespace Check

open Script CheckState

variable {α β : Type} {p q : Check α} {o : CheckOptions} {s s' : CheckState} {ts : List Ty}
  {x : Script p} {Q R : α → CheckState → Prop} {Q' : β → CheckState → Prop}

/-- The types that the call compares are known, and only a comparison is refused like one. -/
def Call.Proper (n : TypeVar) : ∀ {α : Type}, Call α → Prop
  | _, .unify expected found _ => expected.Known n ∧ found.Known n
  | _, .fail cause _ _ => ∀ c, cause ≠ .contradiction c
  | _, _ => True

/-- The call is proper and sound, and the state in which it is made is as it should be. -/
structure Call.Made (c : Call α) (s : CheckState) (ts : List Ty) : Prop where
  wf : s.Wf
  proper : c.Proper s.next
  sound : c.Sound s ts

/-- All calls of the script are sound in a run from this state, and what occurs in the end lies below
the next variable again. -/
def Tracks (x : Script p) (o : CheckOptions) (s : CheckState) (ts : List Ty)
    (Q : α → CheckState → Prop) : Prop :=
  x.Follows Call.Made o (fun a s' ts' => s.Leads s' ∧ s'.Ready ts' ∧ Q a s') s ts

theorem Tracks.bind {k : α → Check β} {f : ∀ a, Script (k a)} (hx : Tracks x o s ts Q)
    (hf : ∀ a s₁ ts₁, s.Leads s₁ → s₁.Ready ts₁ → Q a s₁ → Tracks (f a) o s₁ ts₁ Q') :
    Tracks (x.bind f) o s ts Q' :=
  hx.of_run fun a s₁ ts₁ _ ⟨hlead, hs₁, hq⟩ => (hf a s₁ ts₁ hlead hs₁ hq).of_run
    fun _ _ _ _ ⟨hlead', hs', hq'⟩ => ⟨hlead.trans hlead', hs', hq'⟩

theorem Tracks.pure (hs : s.Ready ts) {a : α} (ha : Q a s) : Tracks (Script.pure a) o s ts Q :=
  ⟨.refl s, hs, ha⟩

theorem Tracks.ite {c : Prop} [Decidable c] {y : Script q} (hx : c → Tracks x o s ts Q)
    (hy : ¬c → Tracks y o s ts Q) : Tracks (Script.ite (c := c) x y) o s ts Q := by
  cases hc : ‹Decidable c› with
  | isTrue h => exact hx h
  | isFalse h => exact hy h

theorem Tracks.mono (hx : Tracks x o s ts Q) (h : ∀ a s', s.Leads s' → Q a s' → R a s') :
    Tracks x o s ts R :=
  hx.of_run fun a s' _ _ ⟨hlead, hs', hq⟩ => ⟨hlead, hs', h a s' hlead hq⟩

/-- What a run keeps is known of the outcome. -/
theorem Tracks.and (hx : Tracks x o s ts Q) (hp : Keeps p o s R) :
    Tracks x o s ts fun a s' => Q a s' ∧ R a s' := by
  refine hx.of_run fun a s' ts' hrun ⟨hlead, hs', hq⟩ => ⟨hlead, hs', hq, ?_⟩
  unfold Keeps at hp
  rw [hrun] at hp
  exact hp.2.2

theorem Tracks.keeps (hx : Tracks x o s ts fun _ _ => True) (hp : Keeps p o s Q) :
    Tracks x o s ts Q :=
  (hx.and hp).mono fun _ _ _ h => h.2

theorem Tracks.holding {before : List Ty} {after : α → List Ty} (hs : s.Ready ts)
    (hbefore : ∀ t ∈ before, t.Scheme s.next)
    (hafter : ∀ a s', Q a s' → ∀ t ∈ after a, t.Scheme s'.next)
    (hx : s.Ready (before ++ ts) → Tracks x o s (before ++ ts) Q) :
    Tracks (Script.holding before after x) o s ts Q :=
  (hx (hs.hold hbefore)).of_run fun a s' _ _ ⟨hlead, hs', hq⟩ =>
    ⟨hlead, hs'.hold (hafter a s' hq), hq⟩

theorem Tracks.ofEq {h : q = p} {x : Script p} {Q : α → CheckState → Prop}
    (hx : Tracks x o s ts Q) : Tracks (Script.ofEq h x) o s ts Q := hx

theorem tracks_foldlM {f : β → α → Check β} {x : ∀ b a, Script (f b a)}
    {I : β → CheckState → Prop} {l : List α} {b : β} (hs : s.Ready ts) (hI : I b s)
    (hx : ∀ b a s ts, s.Ready ts → I b s → Tracks (x b a) o s ts I) :
    Tracks (Script.foldlM x l b) o s ts I := by
  induction l generalizing s ts b with
  | nil => exact .pure hs hI
  | cons a l ih => exact (hx b a s ts hs hI).bind fun _ s₁ ts₁ _ hs₁ hI₁ => ih hs₁ hI₁

/-- An invariant of the outcomes so far, the latest first. -/
theorem tracks_mapM {f : α → Check β} {x : ∀ a, Script (f a)} {I : List β → CheckState → Prop}
    {l : List α} (hs : s.Ready ts) (hI : I [] s)
    (hx : ∀ a ∈ l, ∀ bs s₁ ts₁, s.Leads s₁ → s₁.Ready ts₁ → I bs s₁ →
      Tracks (x a) o s₁ ts₁ fun b s' => I (b :: bs) s') :
    Tracks (Script.mapM x l) o s ts fun bs s' => I bs.reverse s' := by
  have hloop : ∀ (rest : List α) (bs : List β) s₁ ts₁, rest ⊆ l → s.Leads s₁ → s₁.Ready ts₁ →
      I bs s₁ → Tracks (Script.mapMLoop x rest bs) o s₁ ts₁ fun bs s' => I bs.reverse s' := by
    intro rest
    induction rest with
    | nil =>
        intro bs s₁ ts₁ _ _ hs₁ hI₁
        exact .pure hs₁ (by rwa [List.reverse_reverse])
    | cons a rest ih =>
        intro bs s₁ ts₁ hsub hlead hs₁ hI₁
        obtain ⟨ha, hsub⟩ := List.cons_subset.1 hsub
        exact (hx a ha bs s₁ ts₁ hlead hs₁ hI₁).bind fun b s₂ ts₂ hlead₂ hs₂ hI₂ =>
          ih (b :: bs) s₂ ts₂ hsub (hlead.trans hlead₂) hs₂ hI₂
  exact hloop l [] s ts (List.Subset.refl l) (.refl s) hs hI

theorem tracks_call {c : Call α} (hs : s.Ready ts) (hproper : c.Proper s.next)
    (hsound : c.Sound s ts) (hp : Keeps c.run o s Q) : Tracks (Script.call c) o s ts Q := by
  refine ⟨⟨hs.wf, hproper, hsound⟩, fun a s' hrun => ?_⟩
  unfold Keeps at hp
  rw [hrun] at hp
  exact ⟨hp.1, hs.leads hp.1 hp.2.1, hp.2.2⟩

theorem tracks_get (hs : s.Ready ts) :
    Tracks (Script.call .get) o s ts fun a s' => a = s ∧ s' = s :=
  tracks_call hs trivial trivial (idles_get.keeps hs.wf)

theorem tracks_fail {cause : TypeError.Cause} {range : Range}
    {h : ∀ missing, cause ≠ .nonExhaustive missing} (hs : s.Ready ts)
    (hc : ∀ c, cause ≠ .contradiction c) (hk : ∀ c, cause ≠ .alreadyKinded c) :
    Tracks (Script.fail cause range h : Script (Check.fail cause range : Check α)) o s ts Q :=
  tracks_call hs hc hk ((idles_fail hc range).keeps hs.wf)

theorem tracks_report (hs : s.Ready ts) (e : Event) :
    Tracks (Script.report e) o s ts fun _ _ => True :=
  tracks_call hs trivial trivial ((idles_report e).keeps hs.wf)

theorem tracks_freshId (hs : s.Ready ts) :
    Tracks (Script.call .freshId) o s ts fun v s' => v = s.next ∧ s' = s.give .universal := by
  refine tracks_call hs trivial (fun o new s' hrun v hv => ?_)
    ⟨s.leads_give .universal, hs.wf.give Kind.known_universal, rfl, rfl⟩
  obtain rfl : s.next = new := Except.ok.inj (Prod.mk.inj hrun).1
  exact hs.vars_lt hv

theorem known_singleton {t : Ty} {n : TypeVar} (ht : t.Known n) : ∀ u ∈ [t], u.Scheme n :=
  List.forall_mem_singleton.2 (.plain ht)

theorem tracks_fresh (hs : s.Ready ts) (range : Range) :
    Tracks (Script.fresh range) o s ts fun t s' => t.Known s'.next :=
  .holding hs (List.forall_mem_nil _) (fun _ _ => known_singleton) fun hs =>
    ((tracks_freshId hs).bind fun _ _ _ _ hs₁ _ => .pure hs₁ trivial).keeps
      ((idles_fresh range).keeps hs.wf)

theorem tracks_unify (hs : s.Ready ts) {expected found : Ty} (he : expected.Known s.next)
    (hf : found.Known s.next) (range : Range) :
    Tracks (Script.unify expected found range) o s ts fun _ _ => True :=
  .holding hs (List.forall_mem_cons.2 ⟨.plain he, known_singleton hf⟩)
    (fun _ _ _ => List.forall_mem_nil _) fun hs => tracks_call hs ⟨he, hf⟩ trivial <|
      (keeps_unify hs.wf he hf range).mono fun _ _ _ _ _ => trivial

theorem tracks_resolve (hs : s.Ready ts) {t : Ty} (ht : t.Known s.next) :
    Tracks (Script.resolve t) o s ts fun u s' => u.Known s'.next :=
  .holding hs (known_singleton ht) (fun _ _ => known_singleton) fun hs =>
    (tracks_get hs).bind fun _ _ _ _ hs₁ ⟨ha, hs'⟩ => .pure hs₁ <| by
      subst ha hs'
      exact hs.wf.apply ht

/-- A variable that was just handed out can be given a kind. -/
theorem tracks_freshKinded (hs : s.Ready ts) {kind : Kind} (hk : kind.Known s.next)
    (range : Range) : Tracks (Script.freshKinded kind range) o s ts fun t s' =>
      t = .var s.next range ∧ s' = s.give kind := by
  refine .holding hs ?_ ?_ fun hs => Tracks.keeps ?_ (keeps_freshKinded hs.wf hk range)
  · intro t ht
    obtain ⟨p, hp, rfl⟩ := List.mem_map.1 ht
    exact .plain ⟨hk.simple.2 p hp, hk.below p hp⟩
  · rintro t s' ⟨rfl, rfl⟩
    rw [next_give]
    exact known_singleton (.var (Nat.lt_succ_self _) range)
  · refine (tracks_freshId hs).bind ?_
    rintro v s₁ ts₁ - hs₁ ⟨rfl, rfl⟩
    cases kind with
    | universal => exact .pure hs₁ trivial
    | record fs =>
        refine (tracks_get hs₁).bind ?_
        rintro a s₂ ts₂ - hs₂ ⟨rfl, rfl⟩
        have hnone : s.solver.kinds.kinds.contains s.next = false := by
          rw [Std.TreeMap.contains_eq_isSome_getElem?, (hs.wf.fresh s.next (Nat.le_refl _)).2]
          rfl
        have hextend : (s.give .universal).solver.kinds.extend s.next (.record fs) =
            .ok (s.solver.kinds.refine s.next (.record fs)) := by
          simp [CheckState.give, KindEnv.extend, KindEnv.refine, hnone]
        have hgiven : (s.give .universal).Leads (s.give (.record fs)) :=
          ⟨Nat.le_refl _, fun _ h => h, fun _ h => List.mem_cons_of_mem _ h, rfl⟩
        generalize hanswer : (s.give .universal).solver.kinds.extend s.next (.record fs) = answer
        obtain rfl := hanswer.symm.trans hextend
        have hcall : Tracks (Script.call (.giveKind s.next (.record fs)
            (s.solver.kinds.refine s.next (.record fs)))) o (s.give .universal) ts₂
            fun _ _ => True :=
          tracks_call hs₂ trivial hextend ⟨hgiven, hs.wf.give hk, trivial⟩
        exact hcall.bind fun _ _ _ _ hs₃ _ => .pure hs₃ trivial

end Check

end FieldML
