import FieldML.Eval
import FieldML.Proofs.Eval.Primitive
import FieldML.Proofs.Scope.Core
import Mathlib.Data.List.Infix

/-!
# Names at run time

Every value that an evaluation makes keeps a scope with all the names that its code looks up. The
frame of a recursive group is promised its names before it has any, so what is said of values refers
to the names promised to frames and not to what the frames hold. A frame has fewer names than it was
promised only while the functions of its group are made, and making a function looks nothing up.
-/

namespace FieldML

/-- The names promised to each frame. -/
abbrev FrameNames := List (List String)

variable {F F' : FrameNames} {scope : Scope} {m m' : Machine}

/-- The names of a scope. -/
def Scope.names (F : FrameNames) (scope : Scope) : List String :=
  scope.flatMap fun i => F[i]?.getD []

/-- The frames of a scope exist. -/
def Scope.Wf (F : FrameNames) (scope : Scope) : Prop := ∀ i ∈ scope, i < F.length

/-- All functions in a value find the names that they look up in the scopes that they keep. -/
inductive Value.Scoped (F : FrameNames) : Value → Prop
  | unit : Scoped F .unit
  | bool (b : Bool) : Scoped F (.bool b)
  | int (n : Int64) : Scoped F (.int n)
  | string (s : String) : Scoped F (.string s)
  | list {vs : List Value} (hvs : ∀ v ∈ vs, Scoped F v) : Scoped F (.list vs)
  | tuple {vs : List Value} (hvs : ∀ v ∈ vs, Scoped F v) : Scoped F (.tuple vs)
  | record {fs : List (String × Value)} (hfs : ∀ p ∈ fs, Scoped F p.2) : Scoped F (.record fs)
  | construct (c : String) {vs : List Value} (hvs : ∀ v ∈ vs, Scoped F v) :
      Scoped F (.construct c vs)
  | closure {x : String} {body : Core} {scope : Scope} (hbody : body.Scoped (x :: scope.names F))
      (hscope : scope.Wf F) : Scoped F (.closure x body scope)
  | primitive (p : Primitive) {vs : List Value} (hvs : ∀ v ∈ vs, Scoped F v) :
      Scoped F (.primitive p vs)
  | ref (i : Nat) : Scoped F (.ref i)

/-- All values that the machine holds are scoped, and every frame has the names promised to it. -/
structure Machine.Scoped (F : FrameNames) (m : Machine) : Prop where
  frames : m.frames.size = F.length
  filled : ∀ (i : Nat) (names : List String), F[i]? = some names →
    ∃ bs : List (String × Value), m.frames[i]? = some bs ∧ names ⊆ Fields.names bs ∧
      ∀ p ∈ bs, p.2.Scoped F
  cells : ∀ v ∈ m.cells, v.Scoped F

section Frames

theorem Scope.names_mono (hF : F <+: F') (h : scope.Wf F) : scope.names F' = scope.names F := by
  unfold Scope.names
  refine List.flatMap_congr fun i hi => ?_
  rw [List.getElem?_eq_getElem (h i hi), List.getElem?_eq_getElem ((h i hi).trans_le hF.length_le),
    hF.getElem]

theorem Scope.Wf.mono (h : scope.Wf F) (hF : F <+: F') : scope.Wf F' :=
  fun i hi => (h i hi).trans_le hF.length_le

theorem Value.Scoped.mono {v : Value} (h : v.Scoped F) (hF : F <+: F') : v.Scoped F' := by
  induction h with
  | unit => exact .unit
  | bool b => exact .bool b
  | int n => exact .int n
  | string s => exact .string s
  | list _ ih => exact .list ih
  | tuple _ ih => exact .tuple ih
  | record _ ih => exact .record ih
  | construct c _ ih => exact .construct c ih
  | closure hbody hscope =>
      refine .closure ?_ (hscope.mono hF)
      rwa [Scope.names_mono hF hscope]
  | primitive p _ ih => exact .primitive p ih
  | ref i => exact .ref i

/-- A name of the scope has a value. -/
theorem Machine.Scoped.exists_find? (hm : m.Scoped F) (hscope : scope.Wf F) {x : String}
    (hx : x ∈ scope.names F) : ∃ v, m.find? x scope = some v ∧ v.Scoped F := by
  induction scope with
  | nil => simp [Scope.names] at hx
  | cons i scope ih =>
      obtain ⟨hi, hrest⟩ := List.forall_mem_cons.1 hscope
      -- The bindings of the frame are scoped and have at least the names promised to it.
      obtain ⟨bs, hbs, hsub, hall⟩ := hm.filled i _ (List.getElem?_eq_getElem hi)
      have hframe : m.frame i = bs := by
        rw [Machine.frame, hbs]
        rfl
      rw [Machine.find?, hframe]
      cases hget : Fields.get? bs x with
      | some v => exact ⟨v, rfl, hall _ (Fields.mem_of_get? hget)⟩
      | none =>
          refine ih hrest ?_
          rw [Scope.names, List.flatMap_cons, List.mem_append, List.getElem?_eq_getElem hi] at hx
          exact hx.resolve_left fun hmem => Fields.get?_eq_none.1 hget (hsub hmem)

/-- The machine with a frame that has all the names promised to it, for which it may have been
waited. -/
theorem Machine.Scoped.bindAll_push (hm : m.Scoped F) {bs : List (String × Value)}
    (hbs : ∀ p ∈ bs, p.2.Scoped (F ++ [Fields.names bs])) :
    Machine.Scoped (F ++ [Fields.names bs])
      ({ m with frames := m.frames.push [] }.bindAll m.frames.size bs) := by
  have hF : F <+: F ++ [Fields.names bs] := List.prefix_append _ _
  rw [Machine.bindAll_push]
  refine ⟨by simp [hm.frames], fun i names hi => ?_, fun v hv => (hm.cells v hv).mono hF⟩
  rcases Nat.lt_trichotomy i F.length with hlt | rfl | hgt
  · -- An older frame is not touched.
    rw [List.getElem?_append_left hlt] at hi
    obtain ⟨old, hold, hsub, hall⟩ := hm.filled i names hi
    exact ⟨old, (Array.getElem?_push_lt (hm.frames ▸ hlt)).trans
      ((Array.getElem?_eq_getElem (hm.frames ▸ hlt)).symm.trans hold), hsub,
      fun p hp => (hall p hp).mono hF⟩
  · obtain rfl : Fields.names bs = names := by simpa using hi
    refine ⟨Fields.ofList bs, by simp [← hm.frames], fun x hx => ?_, fun p hp => ?_⟩
    · exact Fields.mem_names_foldl_insert.2 (.inl hx)
    · exact hbs p (Fields.mem_of_mem_ofList hp)
  · rw [List.getElem?_eq_none (by simpa using Nat.succ_le_of_lt hgt)] at hi
    cases hi

/-- The names of a scope with one more frame. -/
theorem Scope.names_push (hm : m.Scoped F) (h : scope.Wf F) (names : List String) :
    Scope.Wf (F ++ [names]) (m.frames.size :: scope) ∧
      Scope.names (F ++ [names]) (m.frames.size :: scope) = names ++ scope.names F := by
  have hF : F <+: F ++ [names] := List.prefix_append _ _
  constructor
  · exact List.forall_mem_cons.2 ⟨by simp [hm.frames], h.mono hF⟩
  · rw [Scope.names, List.flatMap_cons, ← Scope.names, Scope.names_mono hF h, hm.frames]
    simp

end Frames

namespace Eval

variable {α β : Type} {p : Eval α} {k : α → Eval β} {Q : FrameNames → α → Prop}
  {R : FrameNames → β → Prop}

/-- The evaluation finds all names that it looks up, and keeps the machine scoped. If it succeeds,
`Q` holds for its outcome. -/
def Safe (p : Eval α) (F : FrameNames) (m : Machine) (Q : FrameNames → α → Prop) : Prop :=
  match p m with
  | (.ok a, m') => ∃ F', F <+: F' ∧ m'.Scoped F' ∧ Q F' a
  | (.error e, _) => ∀ x, e ≠ .unboundVariable x

theorem Safe.bind (hp : Safe p F m Q)
    (hk : ∀ a F₁ m₁, F <+: F₁ → m₁.Scoped F₁ → Q F₁ a → Safe (k a) F₁ m₁ R) :
    Safe (p >>= k) F m R := by
  unfold Safe at hp ⊢
  rw [bind_run]
  rcases hrun : p m with ⟨e | a, m₁⟩
  · rw [hrun] at hp
    exact hp
  · rw [hrun] at hp
    obtain ⟨F₁, hF₁, hm₁, hq⟩ := hp
    have hrest := hk a F₁ m₁ hF₁ hm₁ hq
    unfold Safe at hrest
    dsimp only
    rcases hrun₂ : k a m₁ with ⟨e | b, m₂⟩
    · rw [hrun₂] at hrest
      exact hrest
    · rw [hrun₂] at hrest
      obtain ⟨F₂, hF₂, hm₂, hr⟩ := hrest
      exact ⟨F₂, hF₁.trans hF₂, hm₂, hr⟩

theorem safe_pure {a : α} (hm : m.Scoped F) (ha : Q F a) : Safe (pure a : Eval α) F m Q :=
  ⟨F, List.prefix_rfl, hm, ha⟩

theorem safe_throw {e : EvalError} (he : ∀ x, e ≠ .unboundVariable x) :
    Safe (throw e : Eval α) F m Q := he

theorem safe_failOn {cause : String → EvalError} (h : ∀ t x, cause t ≠ .unboundVariable x)
    (v : Value) : Safe (failOn cause v : Eval α) F m Q := h _

/-- A step that changes neither the cells nor the frames. -/
theorem safe_quiet {m₁ : Machine} {a : α} (hm : m.Scoped F) (hrun : p m = (.ok a, m₁))
    (hcells : m₁.cells = m.cells) (hframes : m₁.frames = m.frames) (ha : Q F a) : Safe p F m Q := by
  unfold Safe
  rw [hrun]
  exact ⟨F, List.prefix_rfl, ⟨hframes ▸ hm.frames, hframes ▸ hm.filled, hcells ▸ hm.cells⟩, ha⟩

theorem safe_mapM {l : List α} {g : α → Eval β} (hm : m.Scoped F)
    (hstable : ∀ F F' b, F <+: F' → R F b → R F' b)
    (hg : ∀ a ∈ l, ∀ F₁ m₁, F <+: F₁ → m₁.Scoped F₁ → Safe (g a) F₁ m₁ R) :
    Safe (l.mapM g) F m fun F' bs => ∀ b ∈ bs, R F' b := by
  induction l generalizing F m with
  | nil => exact safe_pure hm (List.forall_mem_nil _)
  | cons a l ih =>
      rw [List.mapM_cons]
      refine (hg a List.mem_cons_self F m List.prefix_rfl hm).bind fun b F₁ m₁ hF₁ hm₁ hb => ?_
      refine (ih hm₁ fun a ha F₂ m₂ hF₂ => hg a (List.mem_cons_of_mem _ ha) F₂ m₂
        (hF₁.trans hF₂)).bind fun bs F₂ m₂ hF₂ hm₂ hbs => ?_
      exact safe_pure hm₂ (List.forall_mem_cons.2 ⟨hstable _ _ _ hF₂ hb, hbs⟩)

end Eval

/-- A scoped value is made of scoped values. -/
theorem Value.byForm_scoped (F : FrameNames) : Value.ByForm (fun v w => v.Scoped F ∧ v = w)
    fun x body s s' => (Value.closure x body s).Scoped F ∧ s = s' := by
  have hparts : ∀ {vs ws : List Value}, List.Forall₂ (fun v w => v.Scoped F ∧ v = w) vs ws ↔
      (∀ v ∈ vs, v.Scoped F) ∧ vs = ws := fun {vs ws} => by
    rw [List.forall₂_and_left, List.forall₂_eq_eq_eq]
  refine ⟨fun {v w} => ⟨?_, fun h => ?_⟩⟩
  · rintro ⟨hv, rfl⟩
    cases hv with
    | list hvs => exact .list (hparts.2 ⟨hvs, rfl⟩)
    | tuple hvs => exact .tuple (hparts.2 ⟨hvs, rfl⟩)
    | construct c hvs => exact .construct c (hparts.2 ⟨hvs, rfl⟩)
    | primitive p hvs => exact .primitive p (hparts.2 ⟨hvs, rfl⟩)
    | record hfs => exact .record (Fields.Related.and_eq_iff.2 ⟨hfs, rfl⟩)
    | closure hbody hscope => exact .closure ⟨.closure hbody hscope, rfl⟩
    | _ => constructor
  · cases h with
    | list h =>
        obtain ⟨hvs, rfl⟩ := hparts.1 h
        exact ⟨.list hvs, rfl⟩
    | tuple h =>
        obtain ⟨hvs, rfl⟩ := hparts.1 h
        exact ⟨.tuple hvs, rfl⟩
    | construct c h =>
        obtain ⟨hvs, rfl⟩ := hparts.1 h
        exact ⟨.construct c hvs, rfl⟩
    | primitive p h =>
        obtain ⟨hvs, rfl⟩ := hparts.1 h
        exact ⟨.primitive p hvs, rfl⟩
    | record h =>
        obtain ⟨hfs, rfl⟩ := Fields.Related.and_eq_iff.1 h
        exact ⟨.record hfs, rfl⟩
    | closure h => exact ⟨h.1, by rw [h.2]⟩
    | _ => exact ⟨by constructor, rfl⟩

/-- What a pattern binds are parts of the value. -/
theorem CorePattern.scoped_bindings? (p : CorePattern) {v : Value} (hv : v.Scoped F)
    {bound bound' : List (String × Value)} (hbound : ∀ q ∈ bound, q.2.Scoped F)
    (h : p.bindings? v bound = some bound') : ∀ q ∈ bound', q.2.Scoped F := by
  have hrel := p.rel_bindings? (Value.byForm_scoped F) ⟨hv, rfl⟩
    (Fields.Related.and_eq_iff.2 ⟨hbound, rfl⟩)
  rw [h] at hrel
  cases hrel with
  | some hbound' => exact (Fields.Related.and_eq_iff.1 hbound').1

/-- Applying a primitive looks nothing up. -/
theorem Primitive.safe_applyTo [Text.Segmentation] {p : Primitive} (hm : m.Scoped F)
    {args : List Value}
    (hargs : ∀ v ∈ args, v.Scoped F) {arg : Value} (harg : arg.Scoped F) :
    Eval.Safe (p.applyTo args arg) F m fun F' v => v.Scoped F' := by
  have hall : List.Forall₂ (fun v w => v.Scoped F ∧ v = w) args args :=
    List.forall₂_same.2 fun v hv => ⟨hargs v hv, rfl⟩
  have htext : ∀ v w : Value, v.Scoped F ∧ v = w → v.print m.cells = w.print m.cells :=
    fun v w h => by rw [h.2]
  have hagree := Primitive.agree_applyTo (p := p) (Value.byForm_scoped F) htext hall ⟨harg, rfl⟩
  unfold Eval.Safe
  cases hagree with
  | ok hp _ ha =>
      rw [hp]
      exact ⟨F, List.prefix_rfl, hm, ha.1⟩
  | error he hp _ =>
      rw [hp]
      rintro x rfl
      exact he

namespace Eval

variable {ev : Evaluator} {α : Type} {Q : FrameNames → α → Prop}

/-- Every expression that is scoped in the names of its scope finds them all. -/
def Sound (ev : Evaluator) : Prop := ∀ F m (scope : Scope) e, m.Scoped F → scope.Wf F →
  e.Scoped (scope.names F) → Safe (ev scope e) F m fun F' v => v.Scoped F'

/-- Evaluating a function as it is written does no more than to take steps. -/
def Captures (ev : Evaluator) : Prop := ∀ (scope : Scope) x t body (m : Machine), ∃ r fuel,
  ev scope (.lambda x t body) m = (r, { m with fuel := fuel }) ∧
    match r with
    | .ok v => v = .closure x body scope
    | .error e => ∀ y, e ≠ .unboundVariable y

/-- The frame that a scope is extended by has the names that are bound in it. -/
theorem safe_enter (hm : m.Scoped F) (hscope : scope.Wf F) {bs : List (String × Value)}
    (hbs : ∀ p ∈ bs, p.2.Scoped F) : Safe (enter scope bs) F m fun F' inner =>
      inner.Wf F' ∧ inner.names F' = Fields.names bs ++ scope.names F := by
  have hF : F <+: F ++ [Fields.names bs] := List.prefix_append _ _
  unfold Safe
  rw [enter_run]
  exact ⟨_, hF, hm.bindAll_push fun p hp => (hbs p hp).mono hF, Scope.names_push hm hscope _⟩

section Recursive

variable {bindings : List (CoreBinding Core)}

/-- The value of a binding is the function that is written there. -/
def Captured (inner : Scope) (b : CoreBinding Core) (p : String × Value) : Prop :=
  p.1 = b.name ∧ ∃ x t body, b.value = .lambda x t body ∧ p.2 = .closure x body inner

theorem mapM_captures (hev : Captures ev) (inner : Scope)
    (hlambda : ∀ b ∈ bindings, b.value.IsLambda) (m : Machine) :
    ∃ r fuel, (bindings.mapM fun b => return (b.name, ← ev inner b.value) :
        Eval (List (String × Value))) m = (r, { m with fuel := fuel }) ∧
      match r with
      | .ok values => List.Forall₂ (Captured inner) bindings values
      | .error e => ∀ y, e ≠ .unboundVariable y := by
  induction bindings generalizing m with
  | nil => exact ⟨.ok [], m.fuel, rfl, .nil⟩
  | cons b bindings ih =>
      obtain ⟨⟨x, t, body, hb⟩, hlambda⟩ := List.forall_mem_cons.1 hlambda
      obtain ⟨r, fuel, hrun, hr⟩ := hev inner x t body m
      rw [← hb] at hrun
      simp only [List.mapM_cons, bind_run, hrun]
      cases r with
      | error e => exact ⟨.error e, fuel, rfl, hr⟩
      | ok v =>
          obtain rfl : v = .closure x body inner := hr
          obtain ⟨r', fuel', hrun', hr'⟩ := ih hlambda { m with fuel := fuel }
          simp only [pure_run, hrun']
          cases r' with
          | error e => exact ⟨.error e, fuel', rfl, hr'⟩
          | ok values =>
              exact ⟨.ok _, fuel', rfl, List.Forall₂.cons ⟨rfl, x, t, body, hb, rfl⟩ hr'⟩

theorem names_of_captured {inner : Scope} {values : List (String × Value)}
    (h : List.Forall₂ (Captured inner) bindings values) :
    Fields.names values = bindings.map (·.name) := by
  induction h with
  | nil => rfl
  | cons hbp _ ih => rw [Fields.names, List.map_cons, List.map_cons, hbp.1]; exact congrArg _ ih

theorem exists_captured {inner : Scope} {values : List (String × Value)}
    (h : List.Forall₂ (Captured inner) bindings values) {p : String × Value} (hp : p ∈ values) :
    ∃ b ∈ bindings, Captured inner b p := by
  induction h with
  | nil => simp at hp
  | @cons b q _ _ hbq _ ih =>
      rcases List.mem_cons.1 hp with rfl | hp
      · exact ⟨b, List.mem_cons_self, hbq⟩
      · obtain ⟨b', hb', hcap⟩ := ih hp
        exact ⟨b', List.mem_cons_of_mem _ hb', hcap⟩

/-- The frame of a recursive group gets the names that were promised to it. -/
theorem safe_recursive (hev : Captures ev) (hm : m.Scoped F) (hscope : scope.Wf F)
    (hlambda : ∀ b ∈ bindings, b.value.IsLambda)
    (hbindings : ∀ b ∈ bindings, b.value.Scoped (bindings.map (·.name) ++ scope.names F)) :
    Safe (recursive ev scope bindings) F m fun F' inner =>
      inner.Wf F' ∧ inner.names F' = bindings.map (·.name) ++ scope.names F := by
  obtain ⟨r, fuel, hrun, hr⟩ := mapM_captures hev (m.frames.size :: scope) hlambda
    { m with frames := m.frames.push [] }
  unfold Safe
  rw [recursive_run, bind_run, hrun]
  cases r with
  | error e => exact hr
  | ok values =>
      obtain ⟨hwf, hnames⟩ := Scope.names_push hm hscope (Fields.names values)
      have hvalues : ∀ p ∈ values, p.2.Scoped (F ++ [Fields.names values]) := by
        intro p hp
        obtain ⟨b, hb, -, x, t, body, hvalue, hp⟩ := exists_captured hr hp
        have hscoped := hbindings b hb
        rw [hvalue, ← names_of_captured hr, ← hnames] at hscoped
        cases hscoped with
        | lambda hbody =>
            rw [hp]
            exact .closure hbody hwf
      have hm' : Machine.Scoped F { m with fuel := fuel } := ⟨hm.frames, hm.filled, hm.cells⟩
      exact ⟨_, List.prefix_append _ _, hm'.bindAll_push hvalues, hwf, names_of_captured hr ▸ hnames⟩

end Recursive

section Node

variable {v : Value} {e : Core}

theorem safe_newCell (hm : m.Scoped F) (hv : v.Scoped F) :
    Safe (newCell v) F m fun F' w => w.Scoped F' :=
  ⟨F, List.prefix_rfl, ⟨hm.frames, hm.filled, fun w hw => by
    rcases Array.mem_push.1 hw with hw | rfl
    · exact hm.cells w hw
    · exact hv⟩, .ref _⟩

theorem safe_readCell (hm : m.Scoped F) (i : Nat) :
    Safe (readCell i) F m fun F' w => w.Scoped F' := by
  refine ⟨F, List.prefix_rfl, hm, ?_⟩
  cases hcell : m.cells[i]? with
  | none => exact .unit
  | some w => exact hm.cells w (Array.mem_of_getElem? hcell)

theorem safe_writeCell (hm : m.Scoped F) (hv : v.Scoped F) (i : Nat) :
    Safe (writeCell i v) F m fun _ _ => True :=
  ⟨F, List.prefix_rfl, ⟨hm.frames, hm.filled, fun w hw => by
    rcases Array.mem_or_eq_of_mem_setIfInBounds hw with hw | rfl
    · exact hm.cells w hw
    · exact hv⟩, trivial⟩

theorem safe_reportArm (hm : m.Scoped F) (i : Nat) (v : Value) :
    Safe (reportArm i v) F m fun _ _ => True := by
  refine safe_quiet hm rfl ?_ ?_ trivial <;> dsimp only <;> split <;> rfl

theorem safe_apply [Text.Segmentation] (hev : Sound ev) (hm : m.Scoped F) {func arg : Value}
    (hfunc : func.Scoped F)
    (harg : arg.Scoped F) : Safe (apply ev func arg) F m fun F' v => v.Scoped F' := by
  cases hfunc with
  | closure hbody hscope =>
      refine (safe_enter hm hscope (List.forall_mem_singleton.2 harg)).bind
        fun inner F₁ m₁ hF₁ hm₁ hinner => ?_
      exact hev F₁ m₁ inner _ hm₁ hinner.1 (hinner.2 ▸ hbody)
  | primitive p hvs => exact p.safe_applyTo hm hvs harg
  | _ => exact safe_failOn (by simp) _

theorem safe_fields (hev : Sound ev) (hm : m.Scoped F) (hscope : scope.Wf F)
    {before : List (String × Value)} (hbefore : ∀ p ∈ before, p.2.Scoped F)
    {fs : List (String × Core)} (hfs : ∀ p ∈ fs, p.2.Scoped (scope.names F)) :
    Safe (fields ev scope before fs) F m fun F' gs => ∀ p ∈ gs, p.2.Scoped F' := by
  unfold fields
  induction fs generalizing F m before with
  | nil => exact safe_pure hm hbefore
  | cons f fs ih =>
      obtain ⟨hf, hfs⟩ := List.forall_mem_cons.1 hfs
      rw [List.foldlM_cons]
      have hfirst := (hev F m scope f.2 hm hscope hf).bind (k := fun v =>
        (pure (Fields.insert f.1 v before) : Eval _))
        (R := fun F' gs => ∀ p ∈ gs, p.2.Scoped F') fun v F₁ m₁ hF₁ hm₁ hv =>
          safe_pure hm₁ fun p hp => by
            rcases Fields.mem_insert (m := p.1) (b := p.2) hp with heq | hp
            · rw [(Prod.mk.inj heq).2]
              exact hv
            · exact (hbefore p hp).mono hF₁
      refine hfirst.bind fun gs F₁ m₁ hF₁ hm₁ hgs => ?_
      refine ih hm₁ (hscope.mono hF₁) hgs ?_
      rwa [Scope.names_mono hF₁ hscope]

theorem safe_arms (hev : Sound ev) (hm : m.Scoped F) (hscope : scope.Wf F) (hv : v.Scoped F)
    {alternatives : List (CoreArm Core)}
    (harms : ∀ arm ∈ alternatives, arm.body.Scoped (arm.pattern.binders ++ scope.names F))
    (index : Nat) :
    Safe (arms ev scope v index alternatives) F m fun F' w => w.Scoped F' := by
  induction alternatives generalizing index with
  | nil => exact safe_failOn (by simp) v
  | cons arm alternatives ih =>
      obtain ⟨harm, harms⟩ := List.forall_mem_cons.1 harms
      rw [arms]
      split
      · next bound hbound =>
          have hscoped := arm.pattern.scoped_bindings? hv (by simp) hbound
          have hnames := arm.pattern.names_bindings? v [] bound hbound
          refine (safe_reportArm hm index v).bind fun _ F₁ m₁ hF₁ hm₁ _ => ?_
          refine (safe_enter hm₁ (hscope.mono hF₁) fun p hp =>
            (hscoped p (List.mem_reverse.1 hp)).mono hF₁).bind fun inner F₂ m₂ _ hm₂ hinner => ?_
          refine hev F₂ m₂ inner _ hm₂ hinner.1 (harm.mono fun x hx => ?_)
          rw [hinner.2, Fields.names, List.map_reverse, ← Fields.names, hnames,
            Scope.names_mono hF₁ hscope]
          simpa [Fields.names] using hx
      · exact ih harms (index + 1)

/-- One level of an evaluation finds all names that it looks up if the levels below do. -/
theorem safe_node [Text.Segmentation] (hev : Sound ev) (hcap : Captures ev) (hm : m.Scoped F)
    (hscope : scope.Wf F)
    (he : e.Scoped (scope.names F)) : Safe (node ev scope e) F m fun F' v => v.Scoped F' := by
  -- The names of a scope stay the same when frames are added.
  have hkeep : ∀ {F' : FrameNames} (xs : List String) {e : Core}, F <+: F' →
      e.Scoped (xs ++ scope.names F) → e.Scoped (xs ++ scope.names F') := by
    intro F' xs e hF h
    rwa [Scope.names_mono hF hscope]
  have hnext : ∀ {F' : FrameNames} {m' : Machine} {e : Core}, F <+: F' → m'.Scoped F' →
      e.Scoped (scope.names F) → Safe (ev scope e) F' m' fun F' v => v.Scoped F' :=
    fun hF hm' he => hev _ _ scope _ hm' (hscope.mono hF) (hkeep [] hF he)
  have hall : ∀ {es : List Core}, (∀ e ∈ es, e.Scoped (scope.names F)) →
      Safe (es.mapM (ev scope)) F m fun F' vs => ∀ v ∈ vs, v.Scoped F' := fun hes =>
    safe_mapM hm (fun _ _ _ hF hv => hv.mono hF) fun e he F₁ m₁ hF₁ hm₁ => hnext hF₁ hm₁ (hes e he)
  have hfields : ∀ {F' : FrameNames} {m' : Machine} {before : List (String × Value)}
      {fs : List (String × Core)}, F <+: F' → m'.Scoped F' → (∀ p ∈ before, p.2.Scoped F') →
      (∀ p ∈ fs, p.2.Scoped (scope.names F)) →
      Safe (fields ev scope before fs) F' m' fun F' gs => ∀ p ∈ gs, p.2.Scoped F' :=
    fun hF hm' hbefore hfs => safe_fields hev hm' (hscope.mono hF) hbefore
      fun p hp => hkeep [] hF (hfs p hp)
  cases he with
  | literal v =>
      refine safe_pure hm ?_
      cases v <;> constructor
  | var hx =>
      obtain ⟨v, hfind, hv⟩ := hm.exists_find? hscope hx
      refine safe_quiet hm (?_ : node ev scope _ m = (.ok v, m)) rfl rfl hv
      simp only [node, bind_run, get_run, hfind, pure_run]
  | lambda hbody => exact safe_pure hm (.closure hbody hscope)
  | apply hf ha =>
      refine (hnext List.prefix_rfl hm hf).bind fun f F₁ m₁ hF₁ hm₁ hf => ?_
      refine (hnext hF₁ hm₁ ha).bind fun a F₂ m₂ hF₂ hm₂ ha => ?_
      exact safe_apply hev hm₂ (hf.mono hF₂) ha
  | letIn hv hbody =>
      refine (hnext List.prefix_rfl hm hv).bind fun v F₁ m₁ hF₁ hm₁ hv => ?_
      refine (safe_enter hm₁ (hscope.mono hF₁) (List.forall_mem_singleton.2 hv)).bind
        fun inner F₂ m₂ hF₂ hm₂ hinner => ?_
      exact hev F₂ m₂ inner _ hm₂ hinner.1 (hinner.2 ▸ hkeep [_] hF₁ hbody)
  | letRec hlambda hbs hbody =>
      refine (safe_recursive hcap hm hscope hlambda hbs).bind fun inner F₁ m₁ hF₁ hm₁ hinner => ?_
      exact hev F₁ m₁ inner _ hm₁ hinner.1 (hinner.2 ▸ hbody)
  | ifElse hc hy hn =>
      refine (hnext List.prefix_rfl hm hc).bind fun c F₁ m₁ hF₁ hm₁ _ => ?_
      split
      · exact hnext hF₁ hm₁ hy
      · exact hnext hF₁ hm₁ hn
      · exact safe_failOn (by simp) _
  | list hes => exact (hall hes).bind fun vs F₁ m₁ _ hm₁ hvs => safe_pure hm₁ (.list hvs)
  | tuple hes => exact (hall hes).bind fun vs F₁ m₁ _ hm₁ hvs => safe_pure hm₁ (.tuple hvs)
  | record hfs =>
      exact (hfields List.prefix_rfl hm (by simp) hfs).bind
        fun gs F₁ m₁ _ hm₁ hgs => safe_pure hm₁ (.record hgs)
  | field name hbase =>
      refine (hnext List.prefix_rfl hm hbase).bind fun b F₁ m₁ hF₁ hm₁ hb => ?_
      cases hb with
      | record hfs =>
          dsimp only
          split
          · next v hget => exact safe_pure hm₁ (hfs _ (Fields.mem_of_get? hget))
          · exact safe_throw (by simp)
      | _ => exact safe_failOn (by simp) _
  | update hbase hfs =>
      refine (hnext List.prefix_rfl hm hbase).bind fun b F₁ m₁ hF₁ hm₁ hb => ?_
      cases hb with
      | record hbefore =>
          exact (hfields hF₁ hm₁ hbefore hfs).bind
            fun gs F₂ m₂ _ hm₂ hgs => safe_pure hm₂ (.record hgs)
      | _ => exact safe_failOn (by simp) _
  | construct c hes =>
      exact (hall hes).bind fun vs F₁ m₁ _ hm₁ hvs => safe_pure hm₁ (.construct c hvs)
  | caseOf hscrutinee harms =>
      refine (hnext List.prefix_rfl hm hscrutinee).bind fun v F₁ m₁ hF₁ hm₁ hv => ?_
      exact safe_arms hev hm₁ (hscope.mono hF₁) hv (fun arm harm => hkeep _ hF₁ (harms arm harm)) 0
  | ref hvalue =>
      exact (hnext List.prefix_rfl hm hvalue).bind fun v F₁ m₁ _ hm₁ hv => safe_newCell hm₁ hv
  | deref htarget =>
      refine (hnext List.prefix_rfl hm htarget).bind fun v F₁ m₁ _ hm₁ hv => ?_
      cases hv with
      | ref i => exact safe_readCell hm₁ i
      | _ => exact safe_failOn (by simp) _
  | assign htarget hvalue =>
      refine (hnext List.prefix_rfl hm htarget).bind fun target F₁ m₁ hF₁ hm₁ _ => ?_
      refine (hnext hF₁ hm₁ hvalue).bind fun v F₂ m₂ hF₂ hm₂ hv => ?_
      split
      · exact (safe_writeCell hm₂ hv _).bind fun _ _ _ _ hm₃ _ => safe_pure hm₃ .unit
      · exact safe_failOn (by simp) _
  | sequence hfirst hsecond =>
      exact (hnext List.prefix_rfl hm hfirst).bind fun _ F₁ m₁ hF₁ hm₁ _ => hnext hF₁ hm₁ hsecond
  | annot hbody => exact hnext List.prefix_rfl hm hbody

end Node

section Levels

theorem safe_spend (hm : m.Scoped F) : Safe spend F m fun _ _ => True := by
  obtain ⟨cells, frames, fuel, isTraced, events⟩ := m
  match fuel with
  | none => exact safe_quiet hm rfl rfl rfl trivial
  | some 0 =>
      rintro x ⟨⟩
  | some (n + 1) => exact safe_quiet hm rfl rfl rfl trivial

theorem captures_atLevel [Text.Segmentation] (limit left : Nat) : Captures
    (atLevel limit left) := by
  intro scope x t body m
  obtain ⟨cells, frames, fuel, isTraced, events⟩ := m
  match left, fuel with
  | 0, none => exact ⟨_, none, rfl, by simp⟩
  | 0, some 0 => exact ⟨_, some 0, rfl, by simp⟩
  | 0, some (n + 1) => exact ⟨_, some n, rfl, by simp⟩
  | left + 1, none =>
      refine ⟨.ok (.closure x body scope), none, ?_, rfl⟩
      simp only [atLevel, onLevel_eq]
      rfl
  | left + 1, some 0 =>
      refine ⟨.error .fuelExhausted, some 0, ?_, by simp⟩
      simp only [atLevel, onLevel_eq]
      rfl
  | left + 1, some (n + 1) =>
      refine ⟨.ok (.closure x body scope), some n, ?_, rfl⟩
      simp only [atLevel, onLevel_eq]
      rfl

/-- Under any bound on the levels, an evaluation finds all names that it looks up. -/
theorem sound_atLevel [Text.Segmentation] (limit left : Nat) : Sound (atLevel limit left) := by
  induction left with
  | zero =>
      intro F m scope e hm _ _
      exact (safe_spend hm).bind fun _ _ _ _ _ _ => safe_throw (by simp)
  | succ left ih =>
      intro F m scope e hm hscope he
      simp only [atLevel, onLevel_eq]
      refine (safe_spend hm).bind fun _ F₁ m₁ hF₁ hm₁ _ => ?_
      refine safe_node ih (captures_atLevel limit left) hm₁ (hscope.mono hF₁) ?_
      rwa [Scope.names_mono hF₁ hscope]

end Levels

end Eval

end FieldML
