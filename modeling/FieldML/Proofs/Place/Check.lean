import FieldML.Check.Pattern
import FieldML.Check.Declare
import FieldML.Proofs.Check.Basic
import FieldML.Proofs.Check.Change
import FieldML.Proofs.Place.Syntax
import FieldML.Proofs.Place.Unify

/-!
# Where faults of types are

In a check of a tree that points into a text everywhere, all ranges that the types have from
somewhere point into it, too. So does every fault, and so do the places that explain it.
-/

namespace FieldML

variable {P : Position → Prop} {R : Range → Prop}

/-- The range points into the text, or is a label. -/
def Range.Sound (P : Position → Prop) (r : Range) : Prop := r.isInvalid = false → r.Points P

theorem Range.Points.sound {r : Range} (h : r.Points P) : r.Sound P := fun _ => h

theorem Range.sound_label (name : String) : (label name).Sound P := nofun

namespace VariantEnv

def All (R : Range → Prop) (env : VariantEnv) : Prop :=
  (∀ p ∈ env.definitions, ∀ params body, p.2 = .synonym params body → body.All R) ∧
    ∀ p ∈ env.constructors, ∀ t ∈ p.2.args, t.All R

variable {env : VariantEnv}

theorem All.define (henv : env.All R) (name : String) {d : TypeDefinition}
    (hd : ∀ params body, d = .synonym params body → body.All R) (range : Range) :
    match env.define name d range with
    | .ok env' => env'.All R
    | .error e => e.range = range := by
  unfold VariantEnv.define
  split_ifs
  · rfl
  · exact ⟨Fields.forall_mem_insert hd henv.1, henv.2⟩

theorem All.addConstructor (henv : env.All R) (variant name : String) {args : List Ty}
    (hargs : ∀ t ∈ args, t.All R) (range : Range) :
    match env.addConstructor variant name args range with
    | .ok env' => env'.All R
    | .error e => e.range = range := by
  unfold VariantEnv.addConstructor
  split_ifs
  · rfl
  · rcases env.definition? variant with _ | ⟨params, ctors⟩ | ⟨params, body⟩
    · rfl
    · exact ⟨Fields.forall_mem_insert nofun henv.1, Fields.forall_mem_insert hargs henv.2⟩
    · rfl

theorem All.resolve (henv : env.All R) (name : String) {args : List Ty}
    (hargs : ∀ t ∈ args, t.All R) {range : Range} (hrange : R range) :
    match env.resolve name args range with
    | .ok t => t.All R
    | .error e => e.range = range := by
  unfold VariantEnv.resolve
  cases hdef : env.definition? name with
  | none => rfl
  | some d =>
      have hlist := Ty.allList_iff.2 hargs
      dsimp only
      split_ifs
      · rfl
      · cases d with
        | variant params ctors => exact ⟨hlist, hrange⟩
        | synonym params body =>
            have hbody := henv.1 _ (Fields.mem_of_get? hdef) params body rfl
            exact ⟨hlist, hbody.instantiateParams hargs, hrange⟩

theorem All.constructor? (henv : env.All R) {name : String} {c : Constructor}
    (h : env.constructor? name = some c) : ∀ t ∈ c.args, t.All R :=
  henv.2 _ (Fields.mem_of_get? h)

end VariantEnv

/-- All ranges of the fault point into the text, unless it says that a variable has a kind already. -/
def TypeError.Points (P : Position → Prop) (e : TypeError) : Prop :=
  (∀ k, e.cause ≠ .alreadyKinded k) → e.range.Points P ∧ ∀ l ∈ e.labels, l.range.Points P

theorem TypeError.points_of_ne {e : TypeError} (hrange : e.range.Points P)
    (hcause : ∀ c, e.cause ≠ .contradiction c) : e.Points P := by
  refine fun _ => ⟨hrange, ?_⟩
  obtain ⟨cause, range⟩ := e
  cases cause with
  | contradiction c => exact absurd rfl (hcause c)
  | _ => exact List.forall_mem_nil _

theorem Contradiction.points {c : Contradiction} {range : Range} (hrange : range.Points P)
    (hexpected : c.expected.All (Range.Sound P)) (hfound : c.found.All (Range.Sound P)) :
    TypeError.Points P ⟨.contradiction c, range⟩ := by
  refine fun _ => ⟨hrange, fun l hl => ?_⟩
  obtain ⟨hmem, hvalid⟩ := List.mem_filter.1 hl
  have hsound : l.range.Sound P := by
    rcases List.mem_cons.1 hmem with rfl | hmem
    · exact hexpected.range
    · obtain rfl := List.mem_singleton.1 hmem
      exact hfound.range
  exact hsound (by simpa using hvalid)

/-- All ranges that the check knows are sound, and its remarks point into the text. -/
structure CheckState.Points (P : Position → Prop) (s : CheckState) : Prop where
  variants : s.variants.All (Range.Sound P)
  solver : s.solver.All (Range.Sound P)
  warnings : ∀ w ∈ s.warnings, w.range.Points P

namespace Check

variable {α β : Type} {p : Check α} {Q Q₁ : α → Prop} {Q' : β → Prop}

/-- The check keeps what it knows sound, `Q` holds of its outcome, and its faults point into the
text. -/
def Aims (P : Position → Prop) (p : Check α) (Q : α → Prop) : Prop :=
  ∀ o s, s.Points P → match p o s with
    | (.ok a, s') => s'.Points P ∧ Q a
    | (.error e, _) => e.Points P

theorem Aims.bind {f : α → Check β} (hp : Aims P p Q) (hf : ∀ a, Q a → Aims P (f a) Q') :
    Aims P (p >>= f) Q' := by
  intro o s hs
  have hfirst := hp o s hs
  rw [bind_apply]
  rcases hrun : p o s with ⟨e | a, s₁⟩
  · rwa [hrun] at hfirst
  · rw [hrun] at hfirst
    exact hf a hfirst.2 o s₁ hfirst.1

theorem Aims.pure {a : α} (h : Q a) : Aims P (Pure.pure a) Q := fun _ _ hs => ⟨hs, h⟩

theorem Aims.mono (hp : Aims P p Q) (h : ∀ a, Q a → Q₁ a) : Aims P p Q₁ := by
  intro o s hs
  have hfirst := hp o s hs
  rcases hrun : p o s with ⟨e | a, s₁⟩
  · rwa [hrun] at hfirst
  · rw [hrun] at hfirst
    exact ⟨hfirst.1, h a hfirst.2⟩

theorem aims_get_bind {f : CheckState → Check α} (h : ∀ s, s.Points P → Aims P (f s) Q) :
    Aims P (get >>= f) Q := fun o s hs => h s hs o s hs

theorem aims_fail {cause : TypeError.Cause} {range : Range} (hrange : range.Points P)
    (hcause : ∀ c, cause ≠ .contradiction c) : Aims P (fail cause range : Check α) Q :=
  fun _ _ _ => TypeError.points_of_ne hrange hcause

theorem aims_report (e : Event) : Aims P (report e) fun _ => True :=
  fun _ _ hs => ⟨⟨hs.variants, hs.solver, hs.warnings⟩, trivial⟩

theorem aims_warn {w : Warning} (hw : w.range.Points P) : Aims P (warn w) fun _ => True :=
  fun _ _ hs => ⟨⟨hs.variants, hs.solver, List.forall_mem_cons.2 ⟨hw, hs.warnings⟩⟩, trivial⟩

theorem aims_freshId : Aims P freshId fun _ => True :=
  fun _ _ hs => ⟨⟨hs.variants, hs.solver, hs.warnings⟩, trivial⟩

theorem aims_fresh {range : Range} (hrange : range.Points P) :
    Aims P (fresh range) (Ty.All (Range.Sound P)) :=
  aims_freshId.bind fun _ _ => .pure hrange.sound

theorem aims_freshKinded {k : Kind} {range : Range} (hkind : k.All (Range.Sound P))
    (hrange : range.Points P) : Aims P (freshKinded k range) (Ty.All (Range.Sound P)) := by
  apply aims_freshId.bind
  intro v _
  have hvar : Aims P (return .var v range : Check Ty) (Ty.All (Range.Sound P)) :=
    .pure hrange.sound
  cases k with
  | universal => exact hvar
  | record fs =>
      intro o s hs
      simp only [bind_apply, get_apply]
      cases hextend : s.solver.kinds.extend v (.record fs) with
      | error cause => exact fun hne => absurd rfl (hne cause)
      | ok kinds =>
          unfold KindEnv.extend at hextend
          split at hextend
          · cases hextend
          · obtain rfl := Except.ok.inj hextend
            exact ⟨⟨hs.variants, hs.solver.refine hkind v, hs.warnings⟩, hrange.sound⟩

theorem aims_unify {t u : Ty} {range : Range} (ht : t.All (Range.Sound P))
    (hu : u.All (Range.Sound P)) (hrange : range.Points P) :
    Aims P (unify t u range) fun _ => True := by
  intro o s hs
  obtain ⟨hsolver, hfault⟩ := hs.solver.unify (Range.sound_label "erased") ht hu
  rw [unify_apply]
  rcases hrun : s.solver.unify t u with ⟨c | ⟨⟩, solver⟩
  · rw [hrun] at hfault
    obtain ⟨hexpected, hfound⟩ := hfault c rfl
    exact Contradiction.points hrange hexpected hfound
  · rw [hrun] at hsolver
    exact ⟨⟨hs.variants, hsolver.forget _, hs.warnings⟩, trivial⟩

theorem aims_resolve {t : Ty} (ht : t.All (Range.Sound P)) :
    Aims P (resolve t) (Ty.All (Range.Sound P)) :=
  aims_get_bind fun _ hs => .pure (hs.solver.apply ht)

theorem aims_openQuantifiers {range : Range} (hrange : range.Points P) (n : Nat) {t : Ty}
    (ht : t.All (Range.Sound P)) :
    Aims P (openQuantifiers range n t) (Ty.All (Range.Sound P)) := by
  induction n generalizing t with
  | zero => exact .pure ht
  | succ n ih =>
      cases t with
      | all v kind t r =>
          exact (aims_freshKinded ht.1 hrange).bind fun u hu => ih (ht.2.1.substitute hu)
      | base | var | func | list | ref | product | variant | synonym | record => exact .pure ht

theorem aims_instantiate {t : Ty} {range : Range} (ht : t.All (Range.Sound P))
    (hrange : range.Points P) : Aims P (instantiate t range) (Ty.All (Range.Sound P)) :=
  (aims_openQuantifiers hrange _ ht).bind fun _ hu => .pure (hu.withRange hrange.sound)

theorem aims_liftVariant {r : Except VariantError α} (h : match r with
    | .ok a => Q a
    | .error e => e.range.Points P) : Aims P (liftVariant r) Q := by
  cases r with
  | ok a => exact .pure h
  | error e => exact aims_fail h nofun

theorem aims_forM {f : α → Check PUnit} {l : List α} (h : ∀ a ∈ l, Aims P (f a) fun _ => True) :
    Aims P (l.forM f) fun _ => True := by
  induction l with
  | nil => exact .pure trivial
  | cons a l ih =>
      obtain ⟨ha, hl⟩ := List.forall_mem_cons.1 h
      exact ha.bind fun _ _ => ih hl

theorem aims_mapM {I : β → Prop} {f : α → Check β} {l : List α}
    (h : ∀ a ∈ l, Aims P (f a) I) : Aims P (l.mapM f) fun bs => ∀ b ∈ bs, I b := by
  induction l with
  | nil => exact .pure (List.forall_mem_nil _)
  | cons a l ih =>
      obtain ⟨ha, hl⟩ := List.forall_mem_cons.1 h
      rw [List.mapM_cons]
      exact ha.bind fun _ hb => (ih hl).bind fun _ hbs => .pure (List.forall_mem_cons.2 ⟨hb, hbs⟩)

theorem aims_foldlM {I : β → Prop} {f : β → α → Check β} {l : List α} {b : β} (hb : I b)
    (h : ∀ b, I b → ∀ a ∈ l, Aims P (f b a) I) : Aims P (l.foldlM f b) I := by
  induction l generalizing b with
  | nil => exact .pure hb
  | cons a l ih =>
      refine (h b hb a List.mem_cons_self).bind fun b' hb' => ih hb' fun c hc a' ha' => ?_
      exact h c hc a' (List.mem_cons_of_mem a ha')

/-! ### Written types -/

/-- All ranges in some named types are sound. -/
abbrev SoundNames (P : Position → Prop) (names : List (String × Ty)) : Prop :=
  Ty.AllFields (Range.Sound P) names

theorem soundNames_nil : SoundNames P [] :=
  trivial

theorem aims_typeVariable {name : Ident} {scope : TypeScope} (hname : name.range.Points P)
    (hscope : SoundNames P scope.names) : Aims P (typeVariable name scope) fun r =>
      r.1.All (Range.Sound P) ∧ SoundNames P r.2.names := by
  unfold typeVariable
  split
  · next t ht => exact .pure ⟨(hscope.get? ht).withRange hname.sound, hscope⟩
  · split
    · exact (aims_fresh hname).bind fun t ht => .pure ⟨ht, hscope.insert ht name.text⟩
    · exact aims_fail hname (by simp)

theorem aims_namedType {name : Ident} {args : List Ty} {range : Range}
    (hname : name.range.Points P) (hargs : ∀ t ∈ args, t.All (Range.Sound P))
    (hrange : range.Points P) : Aims P (namedType name args range) (Ty.All (Range.Sound P)) := by
  unfold namedType
  split
  · split
    · exact .pure hrange.sound
    · exact aims_fail hname nofun
  · next make _ hmake =>
      match args, hargs with
      | [t], hargs =>
          have ht := hargs t List.mem_cons_self
          unfold unaryType? at hmake
          split at hmake
          · exact .pure (Option.some.inj hmake ▸ ⟨ht, hrange.sound⟩)
          · exact .pure (Option.some.inj hmake ▸ ⟨ht, hrange.sound⟩)
          · cases hmake
      | [], _ | _ :: _ :: _, _ => exact aims_fail hname nofun
  · refine aims_get_bind fun s hs => aims_liftVariant ?_
    have hresolve := hs.variants.resolve name.text hargs hrange.sound
    split
    · next heq => rwa [heq] at hresolve
    · next heq =>
        rw [heq] at hresolve
        exact hresolve ▸ hrange

mutual

theorem aims_typeExpr {scope : TypeScope} (hscope : SoundNames P scope.names) {e : TypeExpr}
    (he : e.All (Range.Points P)) : Aims P (typeExpr scope e) fun r =>
      r.1.All (Range.Sound P) ∧ SoundNames P r.2.names := by
  match e with
  | .var name => exact aims_typeVariable he hscope
  | .named args name range =>
      apply (aims_typeExprs hscope he.1).bind
      intro r hr
      exact (aims_namedType he.2.1 hr.1 he.2.2).bind fun t ht => .pure ⟨ht, hr.2⟩
  | .func param result range =>
      apply (aims_typeExpr hscope he.1).bind
      intro p hp
      refine (aims_typeExpr hp.2 he.2.1).bind fun q hq => .pure ⟨?_, hq.2⟩
      exact ⟨hp.1, hq.1, he.2.2.sound⟩
  | .product items range =>
      refine (aims_typeExprs hscope he.1).bind fun r hr => .pure ⟨?_, hr.2⟩
      exact ⟨Ty.allList_iff.2 hr.1, he.2.sound⟩
  | .record fields range =>
      apply (aims_typeExprFields hscope soundNames_nil he.1).bind
      intro r hr
      exact .pure ⟨⟨hr.1, he.2.sound⟩, hr.2⟩

theorem aims_typeExprs {scope : TypeScope} (hscope : SoundNames P scope.names)
    {es : List TypeExpr} (hes : TypeExpr.AllList (Range.Points P) es) :
    Aims P (typeExprs scope es) fun r =>
      (∀ t ∈ r.1, t.All (Range.Sound P)) ∧ SoundNames P r.2.names := by
  match es with
  | [] => exact .pure ⟨List.forall_mem_nil _, hscope⟩
  | e :: es =>
      apply (aims_typeExpr hscope hes.1).bind
      intro r hr
      refine (aims_typeExprs hr.2 hes.2).bind fun rs hrs => .pure ⟨?_, hrs.2⟩
      exact List.forall_mem_cons.2 ⟨hr.1, hrs.1⟩

theorem aims_typeExprFields {scope : TypeScope} (hscope : SoundNames P scope.names)
    {before : List (String × Ty)} (hbefore : SoundNames P before)
    {fields : List (Ident × TypeExpr)} (hfields : TypeExpr.AllFields (Range.Points P) fields) :
    Aims P (typeExprFields scope before fields) fun r =>
      SoundNames P r.1 ∧ SoundNames P r.2.names := by
  match fields with
  | [] => exact .pure ⟨hbefore, hscope⟩
  | (name, e) :: fields =>
      apply (aims_typeExpr hscope hfields.2.1).bind
      intro r hr
      dsimp only
      split
      · exact aims_fail hfields.1 nofun
      · exact aims_typeExprFields hr.2 (hbefore.insert hr.1 name.text) hfields.2.2

end

theorem aims_annotation {e : TypeExpr} (he : e.All (Range.Points P)) :
    Aims P ( annotation e) (Ty.All (Range.Sound P)) :=
  have hscope : SoundNames P (TypeScope.mk [] true).names := soundNames_nil
  (aims_typeExpr hscope he).bind fun _ hr => .pure hr.1

theorem aims_declaredType {params : List (String × Ty)} (hparams : SoundNames P params)
    {e : TypeExpr} (he : e.All (Range.Points P)) :
    Aims P (declaredType params e) (Ty.All (Range.Sound P)) :=
  have hscope : SoundNames P (TypeScope.mk params false).names := hparams
  (aims_typeExpr hscope he).bind fun _ hr => .pure hr.1

/-! ### Declarations -/

theorem aims_setVariants {variants : Except VariantError VariantEnv} {range : Range}
    (hrange : range.Points P) (h : match variants with
      | .ok env => env.All (Range.Sound P)
      | .error e => e.range = range) : Aims P (setVariants variants) fun _ => True := by
  have hlift : Aims P (liftVariant variants) (VariantEnv.All (Range.Sound P)) := by
    apply aims_liftVariant
    split
    · exact h
    · exact h ▸ hrange
  exact hlift.bind fun env henv _ _ hs => ⟨⟨henv, hs.solver, hs.warnings⟩, trivial⟩

theorem aims_declareParams {decl : TypeDecl} (hdecl : decl.All (Range.Points P)) :
    Aims P (declareParams decl) fun d => d.decl = decl ∧ SoundNames P d.names := by
  let Named : List TypeVar × List (String × Ty) → Prop := fun r => SoundNames P r.2
  have hnone : Named ([], []) := trivial
  cases decl with
  | variant | synonym =>
      refine (aims_foldlM (I := Named) hnone fun r hr param hparam => ?_).bind
        fun r hr => .pure ⟨rfl, hr⟩
      have hpoints := hdecl.1 param hparam
      apply aims_freshId.bind
      intro v _
      split
      · exact aims_fail hpoints nofun
      · exact .pure (hr.insert (t := .var v param.range) hpoints.sound param.text)

theorem aims_declareVariant {d : OpenDecl} (hd : d.decl.All (Range.Points P)) :
    Aims P (declareVariant d) fun _ => True := by
  obtain ⟨decl, params, names⟩ := d
  cases decl with
  | variant _ name _ range =>
      rw [declareVariant_variant]
      refine aims_get_bind fun s hs => aims_setVariants hd.2.1 ?_
      exact hs.variants.define name.text (d := .variant params []) nofun name.range
  | synonym => exact .pure trivial

theorem aims_declareSynonym {d : OpenDecl} (hd : d.decl.All (Range.Points P))
    (hnames : SoundNames P d.names) : Aims P (declareSynonym d) fun _ => True := by
  obtain ⟨decl, params, names⟩ := d
  cases decl with
  | variant => exact .pure trivial
  | synonym _ name body range =>
      rw [declareSynonym_synonym]
      apply (aims_declaredType hnames hd.2.2.1).bind
      intro t ht
      refine aims_get_bind fun s hs => aims_setVariants hd.2.1 ?_
      refine hs.variants.define name.text (fun params' body' heq => ?_) name.range
      obtain ⟨-, rfl⟩ := TypeDefinition.synonym.inj heq
      exact ht

theorem aims_declareConstructors {d : OpenDecl} (hd : d.decl.All (Range.Points P))
    (hnames : SoundNames P d.names) : Aims P (declareConstructors d) fun _ => True := by
  obtain ⟨decl, params, names⟩ := d
  cases decl with
  | variant _ name ctors range =>
      rw [declareConstructors_variant]
      refine aims_forM fun ctor hctor => ?_
      have hall := hd.2.2.1 ctor hctor
      apply (aims_mapM fun e he => aims_declaredType hnames (hall.2.1 e he)).bind
      intro ts hts
      refine aims_get_bind fun s hs => aims_setVariants hall.1 ?_
      exact hs.variants.addConstructor name.text ctor.name.text hts ctor.name.range
  | synonym => exact .pure trivial

theorem aims_declareGroup {group : List TypeDecl}
    (hgroup : ∀ decl ∈ group, decl.All (Range.Points P)) :
    Aims P (declareGroup group) fun _ => True := by
  refine (aims_mapM (I := fun d => d.decl.All (Range.Points P) ∧ SoundNames P d.names)
    fun decl hdecl => ?_).bind fun decls hdecls => ?_
  · exact (aims_declareParams (hgroup decl hdecl)).mono
      fun d hd => ⟨hd.1 ▸ hgroup decl hdecl, hd.2⟩
  · apply (aims_forM fun d hd => aims_declareVariant (hdecls d hd).1).bind
    intro _ _
    apply (aims_forM fun d hd =>
      aims_declareSynonym (hdecls d hd).1 (hdecls d hd).2).bind
    intro _ _
    apply (aims_forM fun d hd =>
      aims_declareConstructors (hdecls d hd).1 (hdecls d hd).2).bind
    intro _ _
    exact aims_report _

/-! ### Patterns -/

theorem sound_literalType {range : Range} (hrange : range.Points P) (v : Literal) :
    (literalType v range).All (Range.Sound P) := by
  cases v with
  | unit | bool | int | string => exact hrange.sound

theorem aims_bindName {bindings : PatternBindings} (hbindings : SoundNames P bindings)
    {name : Ident} (hname : name.range.Points P) {t : Ty} (ht : t.All (Range.Sound P)) :
    Aims P (bindName bindings name t) (SoundNames P) := by
  unfold bindName
  split
  · exact aims_fail hname nofun
  · refine .pure (Ty.allFields_iff.2 fun p hp => ?_)
    rcases List.mem_append.1 hp with hp | hp
    · exact Ty.allFields_iff.1 hbindings p hp
    · obtain rfl := List.mem_singleton.1 hp
      exact ht

theorem aims_instantiateConstructor {ctor : Ident} (hctor : ctor.range.Points P) :
    Aims P (instantiateConstructor ctor) fun r =>
      r.1.All (Range.Sound P) ∧ ∀ t ∈ r.2, t.All (Range.Sound P) := by
  refine aims_get_bind fun s hs => ?_
  have hlookup : Aims P (liftVariant (s.variants.lookupConstructor ctor.text ctor.range))
      fun c => ∀ t ∈ c.args, t.All (Range.Sound P) := by
    apply aims_liftVariant
    unfold VariantEnv.lookupConstructor
    cases hfind : s.variants.constructor? ctor.text with
    | none => exact hctor
    | some c => exact hs.variants.constructor? hfind
  apply hlookup.bind
  intro c hc
  refine (aims_mapM fun _ _ => aims_fresh hctor).bind fun typeArgs hargs => .pure ⟨?_, ?_⟩
  · exact ⟨Ty.allList_iff.2 hargs, hctor.sound⟩
  · intro t ht
    obtain ⟨u, hu, rfl⟩ := List.mem_map.1 ht
    exact (hc u hu).instantiateParams hargs

mutual

theorem aims_pattern {expected : Ty} (hexpected : expected.All (Range.Sound P))
    {bindings : PatternBindings} (hbindings : SoundNames P bindings) {p : Pattern}
    (hp : p.All (Range.Points P)) :
    Aims P (pattern expected bindings p) fun r => SoundNames P r.2 := by
  match p with
  | .wildcard _ => exact .pure hbindings
  | .var name =>
      exact (aims_bindName hbindings hp hexpected).bind fun names hnames => .pure hnames
  | .literal v range =>
      exact (aims_unify hexpected (sound_literalType hp v) hp).bind fun _ _ => .pure hbindings
  | .tuple items range =>
      have hitems := Pattern.allList_iff.1 hp.1
      apply (aims_mapM fun item hitem => aims_fresh (hitems item hitem).range).bind
      intro types htypes
      apply (aims_unify (u := .product types range) hexpected
        ⟨Ty.allList_iff.2 htypes, hp.2.sound⟩ hp.2).bind
      intro _ _
      exact (aims_patterns htypes hbindings hp.1).bind fun r hr => .pure hr
  | .nil range =>
      apply (aims_fresh hp).bind
      intro elem helem
      exact (aims_unify (u := .list elem range) hexpected ⟨helem, hp.sound⟩ hp).bind
        fun _ _ => .pure hbindings
  | .cons head tail range =>
      apply (aims_fresh hp.1.range).bind
      intro elem helem
      have hlist : (Ty.list elem range).All (Range.Sound P) := ⟨helem, hp.2.2.sound⟩
      apply (aims_unify hexpected hlist hp.2.2).bind
      intro _ _
      apply (aims_pattern helem hbindings hp.1).bind
      intro r hr
      exact (aims_pattern hlist hr hp.2.1).bind fun r hr => .pure hr
  | .construct ctor arg range =>
      rw [pattern]
      apply (aims_instantiateConstructor hp.1).bind
      intro r hr
      obtain ⟨variant, types⟩ := r
      apply (aims_unify hexpected hr.1 hp.2.2).bind
      intro _ _
      have hwrong : ∀ {cause}, (∀ c, cause ≠ .contradiction c) → Aims P
          (fail cause range : Check (CorePattern × PatternBindings)) fun r =>
            SoundNames P r.2 := fun hcause => aims_fail hp.2.2 hcause
      match arg with
      | none =>
          dsimp only
          split
          · exact .pure hbindings
          · exact hwrong nofun
      | some arg =>
          match types with
          | [] => exact hwrong nofun
          | [type] =>
              exact (aims_pattern (hr.2 type List.mem_cons_self) hbindings hp.2.1).bind
                fun r hr => .pure hr
          | type :: type' :: types =>
              match arg with
              | .wildcard _ => exact .pure hbindings
              | .tuple items _ =>
                  dsimp only
                  split
                  · exact (aims_patterns hr.2 hbindings hp.2.1.1).bind fun r hr => .pure hr
                  · exact hwrong nofun
              | .var _ | .literal _ _ | .nil _ | .cons _ _ _ | .construct _ _ _
              | .alias _ _ _ => exact hwrong nofun
  | .alias inner name _ =>
      apply (aims_pattern hexpected hbindings hp.1).bind
      intro r hr
      exact (aims_bindName hr hp.2.1 hexpected).bind fun names hnames => .pure hnames

theorem aims_patterns {types : List Ty} (htypes : ∀ t ∈ types, t.All (Range.Sound P))
    {bindings : PatternBindings} (hbindings : SoundNames P bindings) {ps : List Pattern}
    (hps : Pattern.AllList (Range.Points P) ps) :
    Aims P (patterns types bindings ps) fun r => SoundNames P r.2 := by
  match ps with
  | [] => exact .pure hbindings
  | p :: ps =>
      match types with
      | [] => exact .pure hbindings
      | type :: types =>
          obtain ⟨htype, htypes⟩ := List.forall_mem_cons.1 htypes
          apply (aims_pattern htype hbindings hps.1).bind
          intro r hr
          exact (aims_patterns htypes hr hps.2).bind fun r hr => .pure hr

end

end Check

end FieldML
