import FieldML.Check.Infer
import FieldML.Proofs.Place.Check

/-!
# Where faults of expressions are
-/

namespace FieldML.Check

variable {P : Position → Prop} {env : TypeEnv} {t : Ty}

theorem all_quantify {s : CheckState} (hs : s.Points P) (ht : t.All (Range.Sound P))
    (vars : List TypeVar) : (quantify s vars t).All (Range.Sound P) := by
  unfold quantify
  induction vars with
  | nil => exact ht
  | cons v vars ih => exact ⟨hs.solver.applyKind (hs.solver.kind v), ih, ht.range⟩

theorem aims_generalize (ht : t.All (Range.Sound P)) (env : TypeEnv) :
    Aims P (generalize t env) (Ty.All (Range.Sound P)) := by
  refine aims_get_bind fun s hs => ?_
  have happlied := hs.solver.apply ht
  dsimp only
  split
  · exact .pure happlied
  · exact (aims_report _).bind fun _ _ => .pure (all_quantify hs happlied _)

theorem aims_letScheme (value : Expr) (ht : t.All (Range.Sound P)) (env : TypeEnv) :
    Aims P (letScheme value t env) (Ty.All (Range.Sound P)) := by
  unfold letScheme
  split
  · exact aims_generalize ht env
  · exact .pure ht

theorem sound_extendEnv {names : List (String × Ty)} (henv : SoundNames P env)
    (hnames : SoundNames P names) : SoundNames P (extendEnv env names) := by
  unfold extendEnv
  induction names generalizing env with
  | nil => exact henv
  | cons p names ih => exact ih (henv.insert hnames.1 p.1) hnames.2

theorem aims_placeholders {bindings : List (RecBinding Expr)}
    (hbindings : Expr.AllBindings (Range.Points P) bindings) :
    Aims P (placeholders bindings) (SoundNames P) := by
  refine (aims_foldlM soundNames_nil fun found hfound binding hbinding => ?_).bind
    fun found hfound => .pure (Ty.allFields_iff.2 fun p hp =>
      Ty.allFields_iff.1 hfound p (List.mem_reverse.1 hp))
  obtain ⟨hname, -, hrange⟩ := Expr.allBindings_iff.1 hbindings binding hbinding
  split
  · exact aims_fail hrange nofun
  · split
    · exact aims_fail hname nofun
    · exact (aims_fresh hname).bind fun t ht => .pure ⟨ht, hfound⟩

theorem aims_applyUnknown {func arg : Ty} {funcRange range : Range}
    (hfunc : func.All (Range.Sound P)) (harg : arg.All (Range.Sound P))
    (hfuncRange : funcRange.Points P) (hrange : range.Points P) :
    Aims P (applyUnknown func arg funcRange range) (Ty.All (Range.Sound P)) := by
  refine (aims_fresh hrange).bind fun result hresult => ?_
  exact (aims_unify (t := .func arg result funcRange)
    ⟨harg, hresult, hfuncRange.sound⟩ hfunc hfuncRange).bind fun _ _ => .pure hresult

theorem aims_applyType {func arg : Ty} {funcRange argRange range : Range}
    (hfunc : func.All (Range.Sound P)) (harg : arg.All (Range.Sound P))
    (hfuncRange : funcRange.Points P) (hargRange : argRange.Points P)
    (hrange : range.Points P) :
    Aims P (applyType func arg funcRange argRange range) (Ty.All (Range.Sound P)) := by
  refine (aims_resolve hfunc).bind fun u hu => ?_
  have hexpand := hu.expand
  split
  · next heq =>
      rw [heq] at hexpand
      exact (aims_unify hexpand.1 harg hargRange).bind
        fun _ _ => .pure (hexpand.2.1.withRange hrange.sound)
  · exact aims_applyUnknown hfunc harg hfuncRange hrange

theorem aims_checkCoverage {arms : List (CoreArm Core)} {armRanges : List Range} {range : Range}
    (harms : ∀ r ∈ armRanges, r.Points P) (hrange : range.Points P) :
    Aims P (checkCoverage arms armRanges range) fun _ => True := by
  refine aims_get_bind fun s hs => ?_
  have harm : ∀ i, (armRanges.getD i range).Points P := by
    intro i
    rw [List.getD_eq_getElem?_getD]
    cases hi : armRanges[i]? with
    | none => exact hrange
    | some r => exact harms r (List.mem_of_getElem? hi)
  refine (aims_forM fun i _ => aims_warn (w := ⟨.unusedArm, armRanges.getD i range⟩)
    (harm i)).bind fun _ _ => ?_
  split
  · exact .pure trivial
  · next missing _ =>
      intro o s hs
      have hfail : Aims P (fail (.nonExhaustive missing) range : Check Unit) fun _ => True :=
        aims_fail hrange nofun
      obtain ⟨exhaustiveness, trace⟩ := o
      cases exhaustiveness with
      | error => exact hfail ⟨.error, trace⟩ s hs
      | warn => exact aims_warn hrange ⟨.warn, trace⟩ s hs

mutual

theorem aims_infer {env : TypeEnv} (henv : SoundNames P env) {e : Expr}
    (he : e.All (Range.Points P)) :
    Aims P (infer env e) fun r => r.2.All (Range.Sound P) := by
  match e with
  | .literal v range => exact .pure (sound_literalType he v)
  | .var name =>
      rw [infer]
      split
      · next scheme hscheme =>
          exact (aims_instantiate (henv.get? hscheme) he).bind fun t ht => .pure ht
      · exact aims_fail he nofun
  | .lambda param body range =>
      refine (aims_fresh he.1).bind fun t ht => ?_
      refine (aims_infer (henv.insert ht param.text) he.2.1).bind fun r hr => .pure ?_
      exact ⟨ht, hr, he.2.2.sound⟩
  | .apply func arg range =>
      refine (aims_infer henv he.1).bind fun f hf => ?_
      refine (aims_infer henv he.2.1).bind fun a ha => ?_
      exact (aims_applyType hf ha he.1.range he.2.1.range he.2.2).bind fun t ht => .pure ht
  | .letIn name value body _ =>
      refine (aims_infer henv he.2.1).bind fun r hr => ?_
      refine (aims_letScheme value hr env).bind fun scheme hscheme => ?_
      exact (aims_infer (henv.insert hscheme name.text) he.2.2.1).bind fun r hr => .pure hr
  | .letRec bindings body _ =>
      refine (aims_placeholders he.1).bind fun names hnames => ?_
      have htypes : ∀ t ∈ names.map (·.2), t.All (Range.Sound P) := by
        intro t ht
        obtain ⟨p, hp, rfl⟩ := List.mem_map.1 ht
        exact Ty.allFields_iff.1 hnames p hp
      refine (aims_inferBindings (sound_extendEnv henv hnames) htypes he.1).bind
        fun values _ => ?_
      have hschemes : Aims P (names.mapM fun (name, t) => return (name, ← generalize t env))
          fun schemes => ∀ p ∈ schemes, p.2.All (Range.Sound P) :=
        aims_mapM fun p hp => (aims_generalize (Ty.allFields_iff.1 hnames p hp) env).bind
          fun scheme hscheme => .pure hscheme
      refine hschemes.bind fun schemes hschemes => ?_
      exact (aims_infer (sound_extendEnv henv (Ty.allFields_iff.2 hschemes)) he.2.1).bind
        fun r hr => .pure hr
  | .ifElse cond yes no _ =>
      refine (aims_infer henv he.1).bind fun c hc => ?_
      refine (aims_unify (t := .base .bool cond.range) he.1.range.sound hc
        he.1.range).bind fun _ _ => ?_
      refine (aims_infer henv he.2.1).bind fun y hy => ?_
      refine (aims_infer henv he.2.2.1).bind fun n hn => ?_
      exact (aims_unify hy hn he.2.2.1.range).bind fun _ _ => .pure hy
  | .list items range =>
      refine (aims_fresh he.2).bind fun elem helem => ?_
      exact (aims_inferAll henv helem he.1).bind fun _ _ => .pure ⟨helem, he.2.sound⟩
  | .tuple items range =>
      refine (aims_inferEach henv he.1).bind fun r hr => .pure ?_
      exact ⟨Ty.allList_iff.2 hr, he.2.sound⟩
  | .record fields range =>
      refine (aims_inferFields henv soundNames_nil he.1).bind fun r hr => .pure ?_
      exact ⟨hr, he.2.sound⟩
  | .field base name range =>
      refine (aims_infer henv he.1).bind fun b hb => ?_
      refine (aims_fresh he.2.1).bind fun t ht => ?_
      refine (aims_freshKinded (k := .record [(name.text, t)]) ⟨ht, trivial⟩ he.2.2).bind
        fun record hrecord => ?_
      exact (aims_unify hrecord hb he.1.range).bind fun _ _ => .pure ht
  | .update base fields range =>
      refine (aims_infer henv he.1).bind fun b hb => ?_
      refine (aims_inferFields henv soundNames_nil he.2.1).bind fun r hr => ?_
      refine (aims_freshKinded (k := .record r.2) hr he.2.2).bind fun record hrecord => ?_
      exact (aims_unify hrecord hb he.1.range).bind fun _ _ => .pure hb
  | .construct ctor arg range =>
      refine (aims_instantiateConstructor he.1).bind fun r hr => ?_
      obtain ⟨variant, types⟩ := r
      refine (aims_inferArgs henv hr.2 ?_ he.2.1).bind fun _ _ => .pure ?_
      · exact aims_fail he.2.2 nofun
      · exact hr.1.withRange he.2.2.sound
  | .caseOf scrutinee arms range =>
      refine (aims_infer henv he.1).bind fun r hr => ?_
      refine (aims_fresh he.2.2).bind fun result hresult => ?_
      refine (aims_inferArms henv hr hresult he.2.1).bind fun coreArms _ => ?_
      have hranges : ∀ r ∈ arms.map (·.range), r.Points P := by
        intro r hr
        obtain ⟨arm, harm, rfl⟩ := List.mem_map.1 hr
        exact (Expr.allArms_iff.1 he.2.1 arm harm).2.2
      exact (aims_checkCoverage hranges he.2.2).bind fun _ _ => .pure hresult
  | .ref value range =>
      exact (aims_infer henv he.1).bind fun r hr => .pure ⟨hr, he.2.sound⟩
  | .deref target range =>
      refine (aims_infer henv he.1).bind fun r hr => ?_
      refine (aims_fresh he.2).bind fun content hcontent => ?_
      exact (aims_unify (t := .ref content target.range) ⟨hcontent, he.1.range.sound⟩ hr
        he.1.range).bind fun _ _ => .pure hcontent
  | .assign target value range =>
      refine (aims_infer henv he.1).bind fun r hr => ?_
      refine (aims_infer henv he.2.1).bind fun v hv => ?_
      refine (aims_fresh he.2.2).bind fun content hcontent => ?_
      refine (aims_unify (t := .ref content target.range) ⟨hcontent, he.1.range.sound⟩ hr
        he.1.range).bind fun _ _ => ?_
      exact (aims_unify hcontent hv he.2.1.range).bind fun _ _ => .pure he.2.2.sound
  | .sequence first second _ =>
      refine (aims_infer henv he.1).bind fun r hr => ?_
      refine (aims_unify (t := .base .unit first.range) he.1.range.sound hr
        he.1.range).bind fun _ _ => ?_
      exact (aims_infer henv he.2.1).bind fun r hr => .pure hr
  | .annot body type _ =>
      refine (aims_infer henv he.1).bind fun r hr => ?_
      refine ( aims_annotation he.2.1).bind fun expected hexpected => ?_
      exact (aims_unify hexpected hr he.1.range).bind fun _ _ => .pure hexpected

theorem aims_inferAll {env : TypeEnv} (henv : SoundNames P env) {elem : Ty}
    (helem : elem.All (Range.Sound P)) {es : List Expr}
    (hes : Expr.AllList (Range.Points P) es) : Aims P (inferAll env elem es) fun _ => True := by
  match es with
  | [] => exact .pure trivial
  | e :: es =>
      refine (aims_infer henv hes.1).bind fun r hr => ?_
      refine (aims_unify helem hr hes.1.range).bind fun _ _ => ?_
      exact (aims_inferAll henv helem hes.2).bind fun _ _ => .pure trivial

theorem aims_inferEach {env : TypeEnv} (henv : SoundNames P env) {es : List Expr}
    (hes : Expr.AllList (Range.Points P) es) :
    Aims P (inferEach env es) fun r => ∀ t ∈ r.2, t.All (Range.Sound P) := by
  match es with
  | [] => exact .pure (List.forall_mem_nil _)
  | e :: es =>
      refine (aims_infer henv hes.1).bind fun r hr => ?_
      exact (aims_inferEach henv hes.2).bind fun rs hrs =>
        .pure (List.forall_mem_cons.2 ⟨hr, hrs⟩)

theorem aims_inferAgainst {env : TypeEnv} (henv : SoundNames P env) {types : List Ty}
    (htypes : ∀ t ∈ types, t.All (Range.Sound P)) {es : List Expr}
    (hes : Expr.AllList (Range.Points P) es) :
    Aims P (inferAgainst env types es) fun _ => True := by
  match es with
  | [] => exact .pure trivial
  | e :: es =>
      match types with
      | [] => exact .pure trivial
      | type :: types =>
          obtain ⟨htype, htypes⟩ := List.forall_mem_cons.1 htypes
          refine (aims_infer henv hes.1).bind fun r hr => ?_
          refine (aims_unify htype hr hes.1.range).bind fun _ _ => ?_
          exact (aims_inferAgainst henv htypes hes.2).bind fun _ _ => .pure trivial

theorem aims_inferArgs {env : TypeEnv} (henv : SoundNames P env) {types : List Ty}
    (htypes : ∀ t ∈ types, t.All (Range.Sound P)) {wrongArity : Check (List Core)}
    (hwrong : Aims P wrongArity fun _ => True) {arg : Option Expr}
    (harg : Expr.AllArg (Range.Points P) arg) :
    Aims P (inferArgs env types wrongArity arg) fun _ => True := by
  match arg with
  | none =>
      rw [inferArgs]
      split
      · exact .pure trivial
      · exact hwrong
  | some arg =>
      match types with
      | [] => exact hwrong
      | [type] =>
          refine (aims_infer henv harg).bind fun r hr => ?_
          exact (aims_unify (htypes type List.mem_cons_self) hr (Expr.All.range harg)).bind
            fun _ _ => .pure trivial
      | type :: type' :: types =>
          match arg with
          | .tuple items _ =>
              simp only [inferArgs]
              split
              · exact aims_inferAgainst henv htypes harg.1
              · exact hwrong
          | .literal _ _ | .var _ | .lambda _ _ _ | .apply _ _ _ | .letIn _ _ _ _
          | .letRec _ _ _ | .ifElse _ _ _ _ | .list _ _ | .record _ _ | .field _ _ _
          | .update _ _ _ | .construct _ _ _ | .caseOf _ _ _ | .ref _ _ | .deref _ _
          | .assign _ _ _ | .sequence _ _ _ | .annot _ _ _ => exact hwrong

theorem aims_inferFields {env : TypeEnv} (henv : SoundNames P env)
    {before : List (String × Ty)} (hbefore : SoundNames P before) {fields : List (Ident × Expr)}
    (hfields : Expr.AllFields (Range.Points P) fields) :
    Aims P (inferFields env before fields) fun r => SoundNames P r.2 := by
  match fields with
  | [] => exact .pure hbefore
  | (name, value) :: fields =>
      refine (aims_infer henv hfields.2.1).bind fun r hr => ?_
      dsimp only
      split
      · exact aims_fail hfields.1 nofun
      · exact (aims_inferFields henv (hbefore.insert hr name.text) hfields.2.2).bind
          fun r hr => .pure hr

theorem aims_inferBindings {env : TypeEnv} (henv : SoundNames P env) {types : List Ty}
    (htypes : ∀ t ∈ types, t.All (Range.Sound P)) {bindings : List (RecBinding Expr)}
    (hbindings : Expr.AllBindings (Range.Points P) bindings) :
    Aims P (inferBindings env types bindings) fun _ => True := by
  match bindings with
  | [] => exact .pure trivial
  | ⟨name, value, range⟩ :: bindings =>
      match types with
      | [] => exact .pure trivial
      | type :: types =>
          obtain ⟨htype, htypes⟩ := List.forall_mem_cons.1 htypes
          refine (aims_infer henv hbindings.2.1).bind fun r hr => ?_
          refine (aims_unify htype hr hbindings.2.2.1).bind fun _ _ => ?_
          exact (aims_inferBindings henv htypes hbindings.2.2.2).bind fun _ _ => .pure trivial

theorem aims_inferArms {env : TypeEnv} (henv : SoundNames P env) {scrutinee result : Ty}
    (hscrutinee : scrutinee.All (Range.Sound P)) (hresult : result.All (Range.Sound P))
    {arms : List (MatchArm Expr)} (harms : Expr.AllArms (Range.Points P) arms) :
    Aims P (inferArms env scrutinee result arms) fun _ => True := by
  match arms with
  | [] => exact .pure trivial
  | ⟨pat, body, range⟩ :: arms =>
      refine (aims_pattern hscrutinee soundNames_nil harms.1).bind fun p hp => ?_
      refine (aims_infer (sound_extendEnv henv hp) harms.2.1).bind fun r hr => ?_
      refine (aims_unify hresult hr harms.2.1.range).bind fun _ _ => ?_
      exact (aims_inferArms henv hscrutinee hresult harms.2.2.2).bind fun _ _ => .pure trivial

end

end FieldML.Check
