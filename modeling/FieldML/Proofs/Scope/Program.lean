import FieldML.Proofs.Scope.Check
import FieldML.Proofs.Scope.Eval
import FieldML.Run
import FieldML.Text.Graphemes

/-!
# Names in whole programs

A program that checks finds every name that it looks up when it is evaluated, under whatever limits,
and its arms bind the names that their patterns were checked to bind.
-/

namespace FieldML

/-- What is promised to the one frame that there is at first. -/
def initialFrameNames : FrameNames := [Fields.names Primitive.bindings]

theorem names_initialScope :
    Fields.names initialTypeEnv ⊆ initialScope.names initialFrameNames := by
  have hnames : Fields.names initialTypeEnv = Fields.names Primitive.bindings := by decide +kernel
  rw [hnames]
  exact List.subset_append_left _ _

theorem wf_initialScope : Scope.Wf initialFrameNames initialScope :=
  List.forall_mem_singleton.2 Nat.one_pos

theorem scoped_machineStart (fuel : Option Nat) (isTraced : Bool) :
    Machine.Scoped initialFrameNames { Machine.start isTraced with fuel := fuel } where
  frames := rfl
  filled i names hi := by
    obtain ⟨rfl, rfl⟩ : i = 0 ∧ Fields.names Primitive.bindings = names := by
      simpa [initialFrameNames, List.getElem?_singleton] using hi
    refine ⟨Primitive.bindings, rfl, List.Subset.refl _, fun p hp => ?_⟩
    obtain ⟨q, -, rfl⟩ := List.mem_map.1 (Fields.mem_of_mem_ofList hp)
    exact .primitive q (List.forall_mem_nil _)
  cells v hv := by simp [Machine.start] at hv

/-- A program that checks has an elaborated form that uses only the names of the primitives. -/
theorem Check.scoped_program {o : CheckOptions} {p : Program} {checked : Checked}
    (h : (Check.program initialEnvironments o p).1 = .ok checked) :
    checked.core.Scoped (Fields.names initialTypeEnv) := by
  unfold Check.program at h
  rcases hout : Check.outcome initialEnvironments o p with ⟨e | ⟨core, t⟩, s⟩
  · rw [hout] at h
    cases h
  · rw [hout] at h
    obtain rfl := Except.ok.inj h
    have hcore : Gives (p.groups.forM declareGroup >>= fun _ => infer initialTypeEnv p.body)
        fun r => r.1.Scoped (Fields.names initialTypeEnv) :=
      .skip fun _ => gives_infer initialTypeEnv p.body
    exact (hcore o _ _ s hout).mapTypes

theorem exists_program_of_checkSource {source : String} {settings : Settings} {checked : Checked}
    (h : (checkSource source settings).1 = .ok checked) :
    ∃ p, (Check.program initialEnvironments settings.checkOptions p).1 = .ok checked := by
  unfold checkSource at h
  split at h
  · cases h
  · split at h
    · cases h
    · next p _ =>
        refine ⟨p, ?_⟩
        dsimp only at h
        rw [Check.conclude_outcome] at h
        split at h
        · cases h
        · next hprogram =>
            rw [hprogram]
            exact congrArg Except.ok (Except.ok.inj h)

/-- A program that checks, in either mode of exhaustiveness, finds every name that it looks up under
all limits of evaluation, and an arm binds exactly the names that its pattern bound when it was
checked. -/
theorem checked_finds_names [Text.Segmentation] {source : String} {settings : Settings}
    {checked : Checked}
    (h : (checkSource source settings).1 = .ok checked) :
    (∀ (limits : EvalLimits) (isTraced : Bool) (name : String),
      ((Machine.start isTraced).evaluate limits initialScope checked.core).1 ≠
        .error (.unboundVariable name)) ∧
    ∀ (o : CheckOptions) (s s' : CheckState) (t : Ty) (p : Pattern) (core : CorePattern)
      (bindings : Check.PatternBindings), Check.pattern t [] p o s = (.ok (core, bindings), s') →
      ∀ v bound, core.bindings? v [] = some bound →
        (Fields.names bound).reverse = Fields.names bindings := by
  refine ⟨fun limits isTraced name hfail => ?_, fun o s s' t p core bindings hp v bound hv => ?_⟩
  · obtain ⟨p, hprogram⟩ := exists_program_of_checkSource h
    have hscoped := (Check.scoped_program hprogram).mono names_initialScope
    have hsafe := Eval.sound_atLevel limits.depth limits.depth _ _ initialScope checked.core
      (scoped_machineStart limits.fuel isTraced) wf_initialScope hscoped
    unfold Eval.Safe at hsafe
    unfold Machine.evaluate at hfail
    rcases hrun : Eval.atLevel limits.depth limits.depth initialScope checked.core
      { Machine.start isTraced with fuel := limits.fuel } with ⟨e | w, m⟩
    · rw [hrun] at hsafe
      have he : (Except.error e : Except EvalError Value) = .error (.unboundVariable name) :=
        (congrArg Prod.fst hrun).symm.trans hfail
      exact hsafe name (Except.error.inj he)
    · have he : (Except.ok w : Except EvalError Value) = .error (.unboundVariable name) :=
        (congrArg Prod.fst hrun).symm.trans hfail
      cases he
  · have hnames := Check.gives_pattern t [] p o s _ s' hp
    rw [core.names_bindings? v [] bound hv]
    simpa [Fields.names] using hnames.symm

/-- A function that outlives its scope in a cell, is read from there and called. -/
theorem checked_finds_names_storedFunction :
    ∃ checked, (checkSource "let r = ref (fun x -> fun y -> x) in let u = r := !r in (!r) 1 u"
        {}).1 = .ok checked ∧
      (∀ (limits : EvalLimits) (isTraced : Bool) (name : String),
        ((Machine.start isTraced).evaluate limits initialScope checked.core).1 ≠
          .error (.unboundVariable name)) ∧
      ∀ (o : CheckOptions) (s s' : CheckState) (t : Ty) (p : Pattern) (core : CorePattern)
        (bindings : Check.PatternBindings), Check.pattern t [] p o s = (.ok (core, bindings), s') →
        ∀ v bound, core.bindings? v [] = some bound →
          (Fields.names bound).reverse = Fields.names bindings := by
  have hok : (checkSource "let r = ref (fun x -> fun y -> x) in let u = r := !r in (!r) 1 u"
      {}).1.isOk = true := by decide +kernel
  rcases hrun : (checkSource "let r = ref (fun x -> fun y -> x) in let u = r := !r in (!r) 1 u"
      {}).1 with e | checked
  · rw [hrun] at hok
    cases hok
  · exact ⟨checked, rfl, checked_finds_names hrun⟩

end FieldML
