import FieldML.Proofs.Eval.Limits

/-!
# What an evaluation leaves as it was

Calls, local names, arms and recursive groups all bind names in frames that others may have in scope
as well. But an evaluation binds names only in frames that it has made itself, so the scopes that
exist before it keep their bindings, however it ends. Of the cells that exist before it, only those
change that an assignment names: the evaluations inside an evaluation form a tree, and somewhere in
it there is an assignment whose target has that very cell as its value.
-/

namespace FieldML

variable {α β : Type} {A : Nat → Value → Prop}

/-- The machine has still got all frames and cells. The frames are the same, and a cell with other
contents has got some that `A` allows for it. -/
structure Machine.Keeps (A : Nat → Value → Prop) (m m' : Machine) : Prop where
  frames_size : m.frames.size ≤ m'.frames.size
  frames : ∀ j < m.frames.size, m'.frames[j]? = m.frames[j]?
  cells_size : m.cells.size ≤ m'.cells.size
  cells : ∀ i < m.cells.size, m'.cells[i]? = m.cells[i]? ∨ ∃ w, m'.cells[i]? = some w ∧ A i w

namespace Machine.Keeps

variable {m m₁ m₂ : Machine}

/-- Nothing has happened to the frames and cells. -/
theorem of_eq (hframes : m₁.frames = m.frames) (hcells : m₁.cells = m.cells) : m.Keeps A m₁ where
  frames_size := hframes ▸ Nat.le_refl _
  frames _ _ := by rw [hframes]
  cells_size := hcells ▸ Nat.le_refl _
  cells _ _ := .inl (by rw [hcells])

theorem refl (m : Machine) : m.Keeps A m := of_eq rfl rfl

theorem trans (h : m.Keeps A m₁) (h' : m₁.Keeps A m₂) : m.Keeps A m₂ where
  frames_size := h.frames_size.trans h'.frames_size
  frames j hj := (h'.frames j (hj.trans_le h.frames_size)).trans (h.frames j hj)
  cells_size := h.cells_size.trans h'.cells_size
  cells i hi := by
    rcases h'.cells i (hi.trans_le h.cells_size) with hsame | hchanged
    · rw [hsame]
      exact h.cells i hi
    · exact .inr hchanged

/-- A frame may be added. -/
theorem push (m : Machine) (bindings : List (String × Value)) :
    m.Keeps A { m with frames := m.frames.push bindings } where
  frames_size := by simp
  frames j hj := (Array.getElem?_push_lt hj).trans (Array.getElem?_eq_getElem hj).symm
  cells_size := Nat.le_refl _
  cells _ _ := .inl rfl

/-- Names may be bound in a frame that there was not before. -/
theorem bindAll (h : m.Keeps A m₁) {frame : Nat} (hframe : m.frames.size ≤ frame)
    (bindings : List (String × Value)) : m.Keeps A (m₁.bindAll frame bindings) := by
  rw [Machine.bindAll_eq]
  exact
    { frames_size := by simpa using h.frames_size
      frames := fun j hj => by
        rw [← h.frames j hj]
        exact (Array.getElem?_modify ..).trans (if_neg (Nat.ne_of_gt (hj.trans_le hframe)))
      cells_size := h.cells_size
      cells := h.cells }

theorem frame_eq (h : m.Keeps A m₁) {frame : Nat} (hframe : frame < m.frames.size) :
    m₁.frame frame = m.frame frame := by
  rw [Machine.frame, Machine.frame, h.frames frame hframe]

/-- Names have the values that they had. -/
theorem find?_eq (h : m.Keeps A m₁) {scope : Scope} (hscope : ∀ j ∈ scope, j < m.frames.size)
    (x : String) : m₁.find? x scope = m.find? x scope := by
  induction scope with
  | nil => rfl
  | cons frame scope ih =>
      obtain ⟨hframe, hscope⟩ := List.forall_mem_cons.1 hscope
      rw [Machine.find?, Machine.find?, h.frame_eq hframe, ih hscope]

end Machine.Keeps

namespace Eval

/-- What an evaluator is entered with. -/
structure Entry where
  scope : Scope
  expr : Core
  machine : Machine

end Eval

/-- The parts of the expression that are evaluated first, in this order and in its own scope. -/
def Core.operands : Core → List Core
  | .literal _ | .var _ | .lambda _ _ _ | .letRec _ _ => []
  | .apply func arg => [func, arg]
  | .letIn _ _ value _ => [value]
  | .ifElse cond _ _ => [cond]
  | .list items | .tuple items | .construct _ items => items
  | .record fs => fs.map (·.2)
  | .field base _ | .update base _ => [base]
  | .caseOf scrutinee _ _ => [scrutinee]
  | .ref e | .deref e | .annot e _ => [e]
  | .assign first second | .sequence first second => [first, second]

namespace Eval

/-- In order to evaluate what the first entry has, the evaluator is entered with the second: with an
operand once those before it have their values, or with what an expression goes on with when it has
the values of all of them. -/
inductive Part (ev : Evaluator) : Entry → Entry → Prop
  | operand {scope : Scope} {e part : Core} {before after : List Core} {m m₁ : Machine}
      {vs : List Value} (hoperands : e.operands = before ++ part :: after)
      (hbefore : before.mapM (ev scope) m = (.ok vs, m₁)) :
      Part ev ⟨scope, e, m⟩ ⟨scope, part, m₁⟩
  | call {scope kept inner : Scope} {func arg body : Core} {x : String} {v : Value}
      {m m₁ m₂ : Machine}
      (hrun : [func, arg].mapM (ev scope) m = (.ok [.closure x body kept, v], m₁))
      (henter : enter kept [(x, v)] m₁ = (.ok inner, m₂)) :
      Part ev ⟨scope, .apply func arg, m⟩ ⟨inner, body, m₂⟩
  | letBody {scope inner : Scope} {x : String} {t : Ty} {value body : Core} {v : Value}
      {m m₁ m₂ : Machine} (hrun : [value].mapM (ev scope) m = (.ok [v], m₁))
      (henter : enter scope [(x, v)] m₁ = (.ok inner, m₂)) :
      Part ev ⟨scope, .letIn x t value body, m⟩ ⟨inner, body, m₂⟩
  | groupValue {scope : Scope} {bindings before after : List (CoreBinding Core)}
      {b : CoreBinding Core} {body : Core} {named : List (String × Value)} {m m₁ : Machine}
      (hbindings : bindings = before ++ b :: after)
      (hbefore : (before.mapM fun b => return (b.name, ← ev (m.frames.size :: scope) b.value) :
        Eval (List (String × Value))) { m with frames := m.frames.push [] } = (.ok named, m₁)) :
      Part ev ⟨scope, .letRec bindings body, m⟩ ⟨m.frames.size :: scope, b.value, m₁⟩
  | groupBody {scope inner : Scope} {bindings : List (CoreBinding Core)} {body : Core}
      {m m₁ : Machine} (hrun : recursive ev scope bindings m = (.ok inner, m₁)) :
      Part ev ⟨scope, .letRec bindings body, m⟩ ⟨inner, body, m₁⟩
  | branch {scope : Scope} {cond yes no : Core} {b : Bool} {m m₁ : Machine}
      (hrun : [cond].mapM (ev scope) m = (.ok [.bool b], m₁)) :
      Part ev ⟨scope, .ifElse cond yes no, m⟩ ⟨scope, if b then yes else no, m₁⟩
  | change {scope : Scope} {base : Core} {fs before after : List (String × Core)}
      {f : String × Core} {gs : List (String × Value)} {vs : List Value} {m m₁ m₂ : Machine}
      (hbase : [base].mapM (ev scope) m = (.ok [.record gs], m₁)) (hfs : fs = before ++ f :: after)
      (hbefore : (before.map (·.2)).mapM (ev scope) m₁ = (.ok vs, m₂)) :
      Part ev ⟨scope, .update base fs, m⟩ ⟨scope, f.2, m₂⟩
  | arm {scope inner : Scope} {scrutinee : Core} {t : Ty}
      {alternatives before after : List (CoreArm Core)} {arm : CoreArm Core} {v : Value}
      {bound : List (String × Value)} {m m₁ m₂ m₃ : Machine}
      (hrun : [scrutinee].mapM (ev scope) m = (.ok [v], m₁))
      (halternatives : alternatives = before ++ arm :: after)
      (hbefore : ∀ a ∈ before, a.pattern.bindings? v [] = none)
      (hbound : arm.pattern.bindings? v [] = some bound)
      (hreport : reportArm before.length v m₁ = (.ok (), m₂))
      (henter : enter scope bound.reverse m₂ = (.ok inner, m₃)) :
      Part ev ⟨scope, .caseOf scrutinee t alternatives, m⟩ ⟨inner, arm.body, m₃⟩

/-- With this many levels left, the evaluation comes to an assignment whose target has the cell `i` as
its value, and what is assigned is `w`. -/
inductive Assigns [Text.Segmentation] (limit i : Nat) (w : Value) : Nat → Entry → Prop
  | here {left : Nat} {scope : Scope} {target value : Core} {m m₁ m₂ : Machine}
      (hspend : spend m = (.ok (), m₁))
      (hrun : [target, value].mapM (atLevel limit left scope) m₁ = (.ok [.ref i, w], m₂)) :
      Assigns limit i w (left + 1) ⟨scope, .assign target value, m⟩
  | part {left : Nat} {scope : Scope} {e : Core} {m m₁ : Machine} {entry : Entry}
      (hspend : spend m = (.ok (), m₁)) (hpart : Part (atLevel limit left) ⟨scope, e, m₁⟩ entry)
      (hassigns : Assigns limit i w left entry) : Assigns limit i w (left + 1) ⟨scope, e, m⟩

/-! ### Steps -/

/-- The evaluation keeps what the machine has. -/
def Keeps (A : Nat → Value → Prop) (m : Machine) (p : Eval α) : Prop := m.Keeps A (p m).2

variable {p : Eval α} {k : α → Eval β} {m : Machine} {ev : Evaluator} {scope : Scope}

theorem Keeps.bind (hp : Keeps A m p) (hk : ∀ a m₁, p m = (.ok a, m₁) → Keeps A m₁ (k a)) :
    Keeps A m (p >>= k) := by
  unfold Keeps at hp ⊢
  rcases hrun : p m with ⟨e | a, m₁⟩
  · rw [hrun] at hp
    rw [bind_run_error hrun]
    exact hp
  · rw [hrun] at hp
    rw [bind_run_ok hrun]
    exact hp.trans (hk a m₁ hrun)

theorem keeps_pure (a : α) : Keeps A m (pure a : Eval α) := .refl m

theorem keeps_throw (e : EvalError) : Keeps A m (throw e : Eval α) := .refl m

theorem keeps_failOn (cause : String → EvalError) (v : Value) :
    Keeps A m (failOn cause v : Eval α) := .refl m

theorem keeps_spend : Keeps A m spend := by
  obtain ⟨cells, frames, fuel, isTraced, events⟩ := m
  match fuel with
  | none | some 0 | some (n + 1) => exact .of_eq rfl rfl

theorem keeps_reportArm (index : Nat) (v : Value) : Keeps A m (reportArm index v) := by
  change m.Keeps A (if m.isTraced then _ else m)
  split
  · exact .of_eq rfl rfl
  · exact .refl m

theorem keeps_newCell (v : Value) : Keeps A m (newCell v) where
  frames_size := Nat.le_refl _
  frames _ _ := rfl
  cells_size := by
    change _ ≤ (m.cells.push v).size
    simp
  cells i hi := .inl ((Array.getElem?_push_lt hi).trans (Array.getElem?_eq_getElem hi).symm)

theorem keeps_writeCell {i : Nat} {v : Value} (hA : A i v) : Keeps A m (writeCell i v) where
  frames_size := Nat.le_refl _
  frames _ _ := rfl
  cells_size := by
    change _ ≤ (m.cells.setIfInBounds i v).size
    simp
  cells j hj := by
    change (m.cells.setIfInBounds i v)[j]? = _ ∨ ∃ w, (m.cells.setIfInBounds i v)[j]? = some w ∧ A j w
    by_cases hij : i = j
    · subst hij
      exact .inr ⟨v, Array.getElem?_setIfInBounds_self_of_lt hj, hA⟩
    · exact .inl (Array.getElem?_setIfInBounds_ne hij)

/-- The frame that a scope is extended by is not one of those that were there. -/
theorem keeps_enter (scope : Scope) (bindings : List (String × Value)) :
    Keeps A m (enter scope bindings) :=
  (Machine.Keeps.push m []).bindAll (Nat.le_refl _) bindings

theorem keeps_applyTo [Text.Segmentation] (p : Primitive) (args : List Value) (arg : Value) :
    Keeps A m (p.applyTo args arg) := by
  obtain ⟨r, hrun, -⟩ := p.applyTo_run args arg m m rfl
  unfold Keeps
  rw [hrun]
  exact .refl m

theorem keeps_mapM {l : List α} {g : α → Eval β}
    (hg : ∀ before a after bs m₁, l = before ++ a :: after → before.mapM g m = (.ok bs, m₁) →
      Keeps A m₁ (g a)) : Keeps A m (l.mapM g) := by
  induction l generalizing m with
  | nil => exact keeps_pure []
  | cons a l ih =>
      rw [List.mapM_cons]
      refine (hg [] a l [] m rfl rfl).bind fun b m₁ hb => ?_
      refine (ih fun before a' after bs m₂ hl hbefore => ?_).bind fun bs m₂ _ => keeps_pure _
      refine hg (a :: before) a' after (b :: bs) m₂ (congrArg _ hl) ?_
      rw [List.mapM_cons, bind_run_ok hb, bind_run_ok hbefore]
      rfl

/-! ### Levels -/

section Node

variable {e : Core}

theorem mapM_one {g : α → Eval β} {a : α} {b : β} {m₁ : Machine} (h : g a m = (.ok b, m₁)) :
    [a].mapM g m = (.ok [b], m₁) := by
  rw [List.mapM_cons, bind_run_ok h]
  rfl

theorem mapM_two {g : α → Eval β} {a a' : α} {b b' : β} {m₁ m₂ : Machine}
    (h : g a m = (.ok b, m₁)) (h' : g a' m₁ = (.ok b', m₂)) :
    [a, a'].mapM g m = (.ok [b, b'], m₂) := by
  rw [List.mapM_cons, bind_run_ok h, bind_run_ok (mapM_one h')]
  rfl

theorem keeps_fields {before : List (String × Value)} {fs : List (String × Core)}
    (hfs : ∀ first f rest vs m₁, fs = first ++ f :: rest →
      (first.map (·.2)).mapM (ev scope) m = (.ok vs, m₁) → Keeps A m₁ (ev scope f.2)) :
    Keeps A m (fields ev scope before fs) := by
  rw [fields_eq]
  refine (keeps_mapM fun first e rest vs m₁ hes hfirst => ?_).bind fun _ _ _ => keeps_pure _
  obtain ⟨first, rest', rfl, rfl, hrest⟩ := List.map_eq_append_iff.1 hes
  obtain ⟨f, rest, rfl, rfl, rfl⟩ := List.map_eq_cons_iff.1 hrest
  exact hfs first f rest vs m₁ rfl hfirst

/-- The frame of a recursive group is not one of those that were there. -/
theorem keeps_recursive {bindings : List (CoreBinding Core)}
    (hbindings : ∀ before b after named m₁, bindings = before ++ b :: after →
      (before.mapM fun b => return (b.name, ← ev (m.frames.size :: scope) b.value) :
        Eval (List (String × Value))) { m with frames := m.frames.push [] } = (.ok named, m₁) →
      Keeps A m₁ (ev (m.frames.size :: scope) b.value)) :
    Keeps A m (recursive ev scope bindings) := by
  set m₀ : Machine := { m with frames := m.frames.push [] } with hm₀
  have hvalues : Keeps A m₀ (bindings.mapM fun b => return (b.name,
      ← ev (m.frames.size :: scope) b.value) : Eval (List (String × Value))) :=
    keeps_mapM fun before b after named m₁ hb hbefore =>
      (hbindings before b after named m₁ hb hbefore).bind fun _ _ _ => keeps_pure _
  unfold Keeps at hvalues ⊢
  rw [recursive_run, ← hm₀]
  rcases hrun : (bindings.mapM fun b => return (b.name,
      ← ev (m.frames.size :: scope) b.value) : Eval (List (String × Value))) m₀
    with ⟨e | values, m₁⟩
  · rw [hrun] at hvalues
    rw [bind_run_error hrun]
    exact (Machine.Keeps.push m []).trans hvalues
  · rw [hrun] at hvalues
    rw [bind_run_ok hrun]
    exact ((Machine.Keeps.push m []).trans hvalues).bindAll (Nat.le_refl _) values

theorem keeps_arms {v : Value} {alternatives : List (CoreArm Core)} {index : Nat}
    (harms : ∀ first arm rest bound inner m₁ m₂, alternatives = first ++ arm :: rest →
      (∀ a ∈ first, a.pattern.bindings? v [] = none) → arm.pattern.bindings? v [] = some bound →
      reportArm (index + first.length) v m = (.ok (), m₁) →
      enter scope bound.reverse m₁ = (.ok inner, m₂) → Keeps A m₂ (ev inner arm.body)) :
    Keeps A m (arms ev scope v index alternatives) := by
  induction alternatives generalizing index with
  | nil => exact keeps_failOn _ v
  | cons arm alternatives ih =>
      rw [arms]
      split
      · next bound hbound =>
          refine (keeps_reportArm index v).bind fun _ m₁ hreport => ?_
          exact (keeps_enter scope bound.reverse).bind fun inner m₂ henter =>
            harms [] arm alternatives bound inner m₁ m₂ rfl (by simp) hbound hreport henter
      · next hnone =>
          refine ih fun first arm' rest bound inner m₁ m₂ halternatives hfirst hbound hreport => ?_
          refine harms (arm :: first) arm' rest bound inner m₁ m₂ (congrArg _ halternatives)
            (List.forall_mem_cons.2 ⟨hnone, hfirst⟩) hbound ?_
          rw [← hreport, List.length_cons, Nat.add_right_comm, Nat.add_assoc]

/-- One level keeps what the levels below it keep and what it assigns itself. -/
theorem keeps_node [Text.Segmentation] (hpart : ∀ entry, Part ev ⟨scope, e, m⟩ entry →
      Keeps A entry.machine (ev entry.scope entry.expr))
    (hassign : ∀ target value i w m₁, e = .assign target value →
      [target, value].mapM (ev scope) m = (.ok [.ref i, w], m₁) → A i w) :
    Keeps A m (node ev scope e) := by
  have hfirst : ∀ {part after}, e.operands = [] ++ part :: after → Keeps A m (ev scope part) :=
    fun h => hpart ⟨scope, _, m⟩ (.operand h rfl)
  have hsecond : ∀ {part part' after v m₁}, e.operands = [part] ++ part' :: after →
      ev scope part m = (.ok v, m₁) → Keeps A m₁ (ev scope part') :=
    fun h hrun => hpart ⟨scope, _, _⟩ (.operand h (mapM_one hrun))
  have hall : Keeps A m (e.operands.mapM (ev scope)) :=
    keeps_mapM fun _ _ _ _ _ h hbefore => hpart ⟨scope, _, _⟩ (.operand h hbefore)
  cases e with
  | literal l => exact keeps_pure _
  | var x =>
      unfold Keeps
      simp only [node, bind_run, get_run]
      cases m.find? x scope <;> exact .refl m
  | lambda x t body => exact keeps_pure _
  | apply func arg =>
      refine (hfirst rfl).bind fun f m₁ hf => (hsecond rfl hf).bind fun a m₂ ha => ?_
      cases f with
      | closure x body kept =>
          exact (keeps_enter kept _).bind fun inner m₃ henter =>
            hpart ⟨inner, body, m₃⟩ (.call (mapM_two hf ha) henter)
      | primitive p args => exact keeps_applyTo p args a
      | _ => exact keeps_failOn _ _
  | letIn x t value body =>
      refine (hfirst rfl).bind fun v m₁ hv => ?_
      exact (keeps_enter scope _).bind fun inner m₂ henter =>
        hpart ⟨inner, body, m₂⟩ (.letBody (mapM_one hv) henter)
  | letRec bindings body =>
      refine (keeps_recursive fun before b after named m₁ hb hbefore =>
        hpart ⟨_, b.value, m₁⟩ (.groupValue hb hbefore)).bind fun inner m₁ hinner => ?_
      exact hpart ⟨inner, body, m₁⟩ (.groupBody hinner)
  | ifElse cond yes no =>
      refine (hfirst rfl).bind fun c m₁ hc => ?_
      split
      · exact hpart ⟨scope, yes, m₁⟩ (.branch (mapM_one hc))
      · exact hpart ⟨scope, no, m₁⟩ (.branch (mapM_one hc))
      · exact keeps_failOn _ _
  | list items | tuple items | construct c items => exact hall.bind fun _ _ _ => keeps_pure _
  | record fs =>
      refine (keeps_fields fun first f rest vs m₁ hfs hbefore => ?_).bind fun _ _ _ => keeps_pure _
      have hoperands : (Core.record fs).operands = first.map (·.2) ++ f.2 :: rest.map (·.2) := by
        simp [Core.operands, hfs]
      exact hpart ⟨scope, f.2, m₁⟩ (.operand hoperands hbefore)
  | field base name =>
      refine (hfirst rfl).bind fun v m₁ _ => ?_
      split
      · split
        · exact keeps_pure _
        · exact keeps_throw _
      · exact keeps_failOn _ _
  | update base fs =>
      refine (hfirst rfl).bind fun v m₁ hv => ?_
      split
      · refine (keeps_fields fun first f rest vs m₂ hfs hbefore => ?_).bind
          fun _ _ _ => keeps_pure _
        exact hpart ⟨scope, f.2, m₂⟩ (.change (mapM_one hv) hfs hbefore)
      · exact keeps_failOn _ _
  | caseOf scrutinee t alternatives =>
      refine (hfirst rfl).bind fun v m₁ hv => ?_
      refine keeps_arms fun first arm rest bound inner m₂ m₃ halternatives hbefore hbound hreport
        henter => ?_
      rw [Nat.zero_add] at hreport
      exact hpart ⟨inner, arm.body, m₃⟩
        (.arm (mapM_one hv) halternatives hbefore hbound hreport henter)
  | ref value => exact (hfirst rfl).bind fun v m₁ _ => keeps_newCell v
  | deref target =>
      refine (hfirst rfl).bind fun v m₁ _ => ?_
      split
      · exact .refl m₁
      · exact keeps_failOn _ _
  | assign target value =>
      refine (hfirst rfl).bind fun t m₁ ht => (hsecond rfl ht).bind fun v m₂ hv => ?_
      split
      · next i =>
          have hA : A i v := hassign target value i v m₂ rfl (mapM_two ht hv)
          exact (keeps_writeCell hA).bind fun _ _ _ => keeps_pure _
      · exact keeps_failOn _ _
  | sequence first second =>
      exact (hfirst rfl).bind fun _ _ hrun => hsecond rfl hrun
  | annot body t => exact hfirst rfl

end Node

theorem keeps_atLevel [Text.Segmentation] (limit left : Nat) (scope : Scope) (e : Core)
    (m : Machine)
    (hA : ∀ i w, Assigns limit i w left ⟨scope, e, m⟩ → A i w) :
    Keeps A m (atLevel limit left scope e) := by
  induction left generalizing scope e m with
  | zero => exact keeps_spend.bind fun _ _ _ => keeps_throw _
  | succ left ih =>
      simp only [atLevel, onLevel_eq]
      refine keeps_spend.bind fun _ m₁ hspend => ?_
      refine keeps_node (fun entry hpart => ?_) fun target value i w m₂ he hrun => ?_
      · exact ih entry.scope entry.expr entry.machine fun i w hassigns =>
          hA i w (.part hspend hpart hassigns)
      · subst he
        exact hA i w (.here hspend hrun)

end Eval

/-- However an evaluation ends, the scopes that there were before it have the same bindings after it,
and a cell that there was before it has the same contents or some that were assigned to it. -/
theorem scopes_stay_as_they_are [Text.Segmentation] (m : Machine) (limits : EvalLimits)
    (scope : Scope) (e : Core) :
    let m' := (m.evaluate limits scope e).2
    (∀ j < m.frames.size, m'.frames[j]? = m.frames[j]?) ∧
    (∀ s : Scope, (∀ j ∈ s, j < m.frames.size) →
      (∀ j ∈ s, m'.frame j = m.frame j) ∧ ∀ x, m'.find? x s = m.find? x s) ∧
    ∀ i < m.cells.size, m'.cells[i]? = m.cells[i]? ∨ ∃ w, m'.cells[i]? = some w ∧
      Eval.Assigns limits.depth i w limits.depth ⟨scope, e, m.withFuel limits.fuel⟩ := by
  intro m'
  have hkeeps : m.Keeps (fun i w => Eval.Assigns limits.depth i w limits.depth
      ⟨scope, e, m.withFuel limits.fuel⟩) m' := by
    have hrun := Eval.keeps_atLevel limits.depth limits.depth scope e (m.withFuel limits.fuel)
      fun i w hassigns => hassigns
    exact (Machine.Keeps.of_eq rfl rfl : m.Keeps _ (m.withFuel limits.fuel)).trans hrun
  exact ⟨hkeeps.frames, fun s hs => ⟨fun j hj => hkeeps.frame_eq (hs j hj), hkeeps.find?_eq hs⟩,
    hkeeps.cells⟩

/-- A function of a recursive group assigns to a cell, and its group gets a frame of its own. -/
theorem scopes_stay_as_they_are_assigningGroup :
    let m : Machine := { cells := #[.int 1, .int 5], frames := #[[("f", .ref 0)]] }
    let scope : Scope := [0]
    let assigning : Core := .lambda "n" (.base .int default) (.assign (.var "f") (.var "n"))
    let e : Core := .letRec [⟨"g", .base .int default, assigning⟩]
      (.apply (.var "g") (.literal (.int 2)))
    let m' := (m.evaluate ⟨none, 4⟩ scope e).2
    m'.frames[0]? = m.frames[0]? ∧ m'.find? "f" scope = m.find? "f" scope ∧
      m'.cells[1]? = m.cells[1]? ∧ ∃ w, m'.cells[0]? = some w ∧
        Eval.Assigns 4 0 w 4 ⟨scope, e, m.withFuel none⟩ := by
  intro m scope assigning e m'
  obtain ⟨hframes, hscopes, hcells⟩ := scopes_stay_as_they_are m ⟨none, 4⟩ scope e
  have hscope : ∀ j ∈ scope, j < m.frames.size := by decide
  have hchanged : m'.cells[0]? ≠ m.cells[0]? := by
    have hafter : m'.cells[0]? = some (.int 2) := rfl
    rw [hafter]
    nofun
  exact ⟨hframes 0 (by decide), (hscopes scope hscope).2 "f", rfl,
    (hcells 0 (by decide)).resolve_left hchanged⟩

end FieldML
