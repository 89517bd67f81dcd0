import FieldML.Proofs.Eval.Alike
import FieldML.Text.Graphemes

/-!
# Scoping is lexical

What an expression evaluates to depends on the values of the names that it refers to and on nothing
else in its scope. Two evaluations of it in scopes that agree on those go the same way step by step,
on machines that remain alike.
-/

namespace FieldML

variable {α α' β β' : Type}

namespace Eval

/-- From these machines, the evaluations come to machines that are alike, with related outcomes or
with the same fault. -/
inductive Parallel (start m m' : Machine) (Q : (Nat → Set String) → α → α' → Prop) (p : Eval α)
    (q : Eval α') : Prop
  | ok {a : α} {a' : α'} {m₁ m₁' : Machine} (hp : p m = (.ok a, m₁)) (hq : q m' = (.ok a', m₁'))
      (hm : start.Alike m₁ m₁') (hF : m.frameNames ≤ m₁.frameNames) (ha : Q m₁.frameNames a a')
  | error {e : EvalError} {m₁ m₁' : Machine} (hp : p m = (.error e, m₁))
      (hq : q m' = (.error e, m₁')) (hm : start.Alike m₁ m₁')

variable {start m m' : Machine} {Q : (Nat → Set String) → α → α' → Prop}
  {S : (Nat → Set String) → β → β' → Prop} {p : Eval α} {q : Eval α'}

theorem Parallel.bind {k : α → Eval β} {l : α' → Eval β'} (h : Parallel start m m' Q p q)
    (hk : ∀ a a' m₁ m₁', start.Alike m₁ m₁' → m.frameNames ≤ m₁.frameNames →
      Q m₁.frameNames a a' → Parallel start m₁ m₁' S (k a) (l a')) :
    Parallel start m m' S (p >>= k) (q >>= l) := by
  cases h with
  | error hp hq hm => exact .error (bind_run_error hp k) (bind_run_error hq l) hm
  | ok hp hq hm hF ha =>
      cases hk _ _ _ _ hm hF ha with
      | error hk hl hm => exact .error ((bind_run_ok hp k).trans hk) ((bind_run_ok hq l).trans hl) hm
      | ok hk hl hm hF' hb =>
          exact .ok ((bind_run_ok hp k).trans hk) ((bind_run_ok hq l).trans hl) hm (hF.trans hF') hb

theorem parallel_pure (hm : start.Alike m m') {a : α} {a' : α'} (ha : Q m.frameNames a a') :
    Parallel start m m' Q (pure a : Eval α) (pure a' : Eval α') := .ok rfl rfl hm le_rfl ha

theorem parallel_throw (hm : start.Alike m m') (e : EvalError) :
    Parallel start m m' Q (throw e : Eval α) (throw e : Eval α') := .error rfl rfl hm

theorem Agree.parallel (hm : start.Alike m m') (h : Agree m m' (Q m.frameNames) p q) :
    Parallel start m m' Q p q := by
  cases h with
  | ok hp hq ha => exact .ok hp hq hm le_rfl ha
  | error _ hp hq => exact .error hp hq hm

theorem parallel_failOn (hm : start.Alike m m') (cause : String → EvalError) {v w : Value}
    (h : Value.Alike start m.frameNames v w) :
    Parallel start m m' Q (failOn cause v : Eval α) (failOn cause w : Eval α') :=
  .error rfl (congrArg (fun t => (Except.error (cause t), m')) (hm.print_eq h).symm) hm

/-! ### Steps -/

theorem parallel_spend (hm : start.Alike m m') :
    Parallel start m m' (fun _ _ _ => True) spend spend := by
  obtain ⟨cells, frames, fuel, isTraced, events⟩ := m
  obtain ⟨cells', frames', fuel', isTraced', events'⟩ := m'
  obtain rfl : fuel = fuel' := hm.fuel
  match fuel with
  | none => exact .ok rfl rfl hm le_rfl trivial
  | some 0 => exact .error rfl rfl hm
  | some (n + 1) =>
      exact .ok rfl rfl { hm with
        fuel := rfl
        keeps := hm.keeps.trans (.of_eq rfl rfl)
        keeps' := hm.keeps'.trans (.of_eq rfl rfl) } le_rfl trivial

theorem parallel_newCell (hm : start.Alike m m') {v w : Value}
    (h : Value.Alike start m.frameNames v w) :
    Parallel start m m' (Value.Alike start) (newCell v) (newCell w) := by
  have hcells : ∀ i : Nat, Option.Rel (Value.Alike start m.frameNames) (m.cells.push v)[i]?
      (m'.cells.push w)[i]? := by
    intro i
    rw [Array.getElem?_push, Array.getElem?_push, ← hm.cells_size]
    split
    · exact .some h
    · exact hm.cells i
  have hvalue : Value.Alike start m.frameNames (.ref m.cells.size) (.ref m'.cells.size) := by
    rw [hm.cells_size]
    exact .refl _
  refine .ok rfl rfl { hm with
    cells_size := by simp [hm.cells_size]
    cells := hcells
    keeps := hm.keeps.trans (keeps_newCell v)
    keeps' := hm.keeps'.trans (keeps_newCell w) } le_rfl hvalue

theorem parallel_readCell (hm : start.Alike m m') (i : Nat) :
    Parallel start m m' (Value.Alike start) (readCell i) (readCell i) := by
  refine .ok rfl rfl hm le_rfl ?_
  have hcell := hm.cells i
  generalize m.cells[i]? = cell at hcell ⊢
  generalize m'.cells[i]? = cell' at hcell ⊢
  cases hcell with
  | none => exact .refl _
  | some h => exact h

theorem parallel_writeCell (hm : start.Alike m m') (i : Nat) {v w : Value}
    (h : Value.Alike start m.frameNames v w) :
    Parallel start m m' (fun _ _ _ => True) (writeCell i v) (writeCell i w) := by
  have hcells : ∀ j : Nat, Option.Rel (Value.Alike start m.frameNames)
      (m.cells.setIfInBounds i v)[j]? (m'.cells.setIfInBounds i w)[j]? := by
    intro j
    rw [Array.getElem?_setIfInBounds, Array.getElem?_setIfInBounds, ← hm.cells_size]
    split
    · split
      · exact .some h
      · exact .none
    · exact hm.cells j
  exact .ok rfl rfl { hm with
    cells_size := by simp [hm.cells_size]
    cells := hcells
    keeps := hm.keeps.trans (keeps_writeCell trivial)
    keeps' := hm.keeps'.trans (keeps_writeCell trivial) } le_rfl trivial

theorem parallel_reportArm (hm : start.Alike m m') (index : Nat) {v w : Value}
    (h : Value.Alike start m.frameNames v w) :
    Parallel start m m' (fun _ _ _ => True) (reportArm index v) (reportArm index w) := by
  have hrun : ∀ (m : Machine) (v : Value), reportArm index v m = (.ok (), if m.isTraced then
      { m with events := .armSelected index (v.print m.cells) :: m.events } else m) := fun _ _ => rfl
  by_cases htraced : m.isTraced
  · have hp := hrun m v
    have hq := hrun m' w
    rw [if_pos htraced] at hp
    rw [if_pos (hm.isTraced ▸ htraced)] at hq
    exact .ok hp hq { hm with
      events := by rw [hm.events, hm.print_eq h]
      keeps := hm.keeps.trans (.of_eq rfl rfl)
      keeps' := hm.keeps'.trans (.of_eq rfl rfl) } le_rfl trivial
  · have hp := hrun m v
    have hq := hrun m' w
    rw [if_neg htraced] at hp
    rw [if_neg (hm.isTraced ▸ htraced)] at hq
    exact .ok hp hq hm le_rfl trivial

theorem parallel_mapM {l : List α} {g : α → Eval β} {g' : α → Eval β'} (hm : start.Alike m m')
    (hmono : ∀ F F' b b', F ≤ F' → S F b b' → S F' b b')
    (hg : ∀ a ∈ l, ∀ m₁ m₁', start.Alike m₁ m₁' → m.frameNames ≤ m₁.frameNames →
      Parallel start m₁ m₁' S (g a) (g' a)) :
    Parallel start m m' (fun F => List.Forall₂ (S F)) (l.mapM g) (l.mapM g') := by
  induction l generalizing m m' with
  | nil => exact parallel_pure hm .nil
  | cons a l ih =>
      rw [List.mapM_cons, List.mapM_cons]
      refine (hg a List.mem_cons_self m m' hm le_rfl).bind fun b b' m₁ m₁' hm₁ hF₁ hb => ?_
      refine (ih hm₁ fun a ha m₂ m₂' hm₂ hF₂ => hg a (List.mem_cons_of_mem _ ha) m₂ m₂' hm₂
        (hF₁.trans hF₂)).bind fun bs bs' m₂ m₂' hm₂ hF₂ hbs => ?_
      exact parallel_pure hm₂ (.cons (hmono _ _ _ _ hF₂ hb) hbs)

/-- Like values under the same names in a new frame. -/
theorem parallel_enter (hm : start.Alike m m') {bs bs' : List (String × Value)}
    (hbs : Fields.Related (Value.Alike start m.frameNames) bs bs') {xs ys : List String}
    {s s' : Scope} (hs : Scope.AlikeOn start m.frameNames ys s s')
    (hxs : ∀ x ∈ xs, x ∈ Fields.names bs ∨ x ∈ ys) :
    Parallel start m m' (fun F => Scope.AlikeOn start F xs) (enter s bs) (enter s' bs') := by
  set m₀ : Machine := { m with frames := m.frames.push [] } with hm₀
  have hframe : m.frames.size < m₀.frames.size := by simp [hm₀]
  have hF : m.frameNames ≤ (m₀.bindAll m.frames.size bs).frameNames := by
    rw [← m.frameNames_push]
    exact Machine.frameNames_le_bindAll bs hframe
  have hentered := hm.push.bindAll hm.keeps.frames_size hframe (hbs.imp fun _ _ _ h => h.mono hF)
  have hq := enter_run s' bs' m'
  rw [← hm.frames_size] at hq
  exact .ok (enter_run s bs m) hq hentered hF (.cons m.frames.size
    (fun x hx => (hxs x hx).imp_left (Machine.mem_frameNames_bindAll bs hframe)) (hs.mono hF))

/-! ### Levels -/

/-- Scopes that are alike under the names that an expression refers to are as good as each other.
A function keeps the scope that it is made in, whatever that has, and no frame changes. -/
structure Lexical (start : Machine) (ev : Evaluator) : Prop where
  run : ∀ {m m' : Machine} {s s' : Scope} {e : Core}, start.Alike m m' →
    Scope.AlikeOn start m.frameNames (e.freeNames true) s s' →
    Parallel start m m' (Value.Alike start) (ev s e) (ev s' e)
  lambda : ∀ {m m' : Machine} (s s' : Scope) (x : String) (t : Ty) (body : Core),
    start.Alike m m' → Parallel start m m' (fun _ v w => v = .closure x body s ∧
      w = .closure x body s') (ev s (.lambda x t body)) (ev s' (.lambda x t body))
  keeps : ∀ (m : Machine) (s : Scope) (e : Core), Keeps (fun _ _ => True) m (ev s e)

section Level

variable {ev : Evaluator} (hev : Lexical start ev) {s s' : Scope} {xs : List String}

include hev

theorem parallel_apply [Text.Segmentation] (hm : start.Alike m m') {f f' v v' : Value}
    (hf : Value.Alike start m.frameNames f f') (hv : Value.Alike start m.frameNames v v') :
    Parallel start m m' (Value.Alike start) (apply ev f v) (apply ev f' v') := by
  cases (Value.byForm_alike start m.frameNames).iff.1 hf with
  | closure h =>
      obtain ⟨xs, hbody, hs⟩ := h
      refine (parallel_enter hm (Fields.related_singleton.2 hv) hs fun y hy => ?_).bind
        fun inner inner' m₁ m₁' hm₁ _ hinner => hev.run hm₁ hinner
      exact (List.mem_cons.1 (hbody hy)).imp_left List.mem_singleton.2
  | primitive p h =>
      refine Agree.parallel hm ?_
      exact Primitive.agree_applyTo (Value.byForm_alike start m.frameNames)
        (fun _ _ h => hm.print_eq h) h hv
  | _ => exact parallel_failOn hm _ hf

theorem parallel_all (hm : start.Alike m m') {es : List Core}
    (hs : ∀ e ∈ es, Scope.AlikeOn start m.frameNames (e.freeNames true) s s') :
    Parallel start m m' (fun F => List.Forall₂ (Value.Alike start F)) (es.mapM (ev s))
      (es.mapM (ev s')) :=
  parallel_mapM hm (fun _ _ _ _ hF h => h.mono hF) fun e he _ _ hm₁ hF₁ =>
    hev.run hm₁ ((hs e he).mono hF₁)

theorem parallel_fields (hm : start.Alike m m') {before before' : List (String × Value)}
    (hbefore : Fields.Related (Value.Alike start m.frameNames) before before')
    {fs : List (String × Core)}
    (hs : ∀ f ∈ fs, Scope.AlikeOn start m.frameNames (f.2.freeNames true) s s') :
    Parallel start m m' (fun F => Fields.Related (Value.Alike start F)) (fields ev s before fs)
      (fields ev s' before' fs) := by
  have hzip : ∀ {R : Value → Value → Prop} {names : List String} {vs ws : List Value},
      List.Forall₂ R vs ws → Fields.Related R (names.zip vs) (names.zip ws) := by
    intro R names vs ws h
    induction h generalizing names with
    | nil => simp [Fields.Related]
    | cons h _ ih =>
        cases names with
        | nil => exact .nil
        | cons x names => exact .cons ⟨rfl, h⟩ ih
  rw [fields_eq, fields_eq]
  refine (parallel_all hev hm (List.forall_mem_map.2 hs)).bind fun vs ws m₁ m₁' hm₁ hF₁ hvs => ?_
  refine parallel_pure hm₁ ?_
  exact (hbefore.imp fun _ _ _ h => h.mono hF₁).foldl_insert (hzip hvs)

end Level

/-! ### Recursive groups -/

section Group

/-- Both have the name, and their values are alike as soon as the frame has these names. -/
def AlikeOnceFilled (start : Machine) (frame : Nat) (names : List String) (F : Nat → Set String)
    (p q : String × Value) : Prop :=
  p.1 = q.1 ∧ ∀ F', F ≤ F' → (∀ x ∈ names, x ∈ F' frame) → Value.Alike start F' p.2 q.2

theorem names_of_mapM {ev : Evaluator} {inner : Scope} {bindings : List (CoreBinding Core)}
    {named : List (String × Value)} {m m₁ : Machine}
    (h : (bindings.mapM fun b => return (b.name, ← ev inner b.value) :
      Eval (List (String × Value))) m = (.ok named, m₁)) :
    Fields.names named = bindings.map (·.name) := by
  induction bindings generalizing named m m₁ with
  | nil =>
      cases h
      rfl
  | cons b bindings ih =>
      simp only [List.mapM_cons, bind_run] at h
      rcases hvalue : ev inner b.value m with ⟨e | v, m₂⟩
      · rw [hvalue] at h
        cases h
      · rw [hvalue] at h
        simp only [pure_run] at h
        split at h
        · next rest m₃ hrest =>
            cases h
            rw [Fields.names_cons, ih hrest, List.map_cons]
        · cases h

variable {ev : Evaluator} {s s' : Scope} {xs names : List String}
  {bindings : List (CoreBinding Core)}

/-- The values of a group are alike once its frame has its names. Until then only those that are no
functions look names up, and they find them further out. -/
theorem parallel_groupValues (hev : Lexical start ev) (hm : start.Alike m m')
    (hs : Scope.AlikeOn start m.frameNames xs s s')
    (hxs : Core.freeNamesOfBindings true names bindings ⊆ xs) (frame : Nat) :
    Parallel start m m' (fun F => List.Forall₂ (AlikeOnceFilled start frame names F))
      (bindings.mapM fun b => return (b.name, ← ev (frame :: s) b.value))
      (bindings.mapM fun b => return (b.name, ← ev (frame :: s') b.value)) := by
  refine parallel_mapM hm (fun F F' _ _ hF h => ⟨h.1, fun F'' hF' => h.2 F'' (hF.trans hF')⟩) ?_
  intro b hb m₁ m₁' hm₁ hF₁
  rw [Core.freeNamesOfBindings_eq] at hxs
  have hfree := fun y hy => hxs (List.mem_flatMap.2 ⟨b, hb, hy⟩ : y ∈ _)
  by_cases hlambda : b.value.IsLambda
  · obtain ⟨x, t, body, hvalue⟩ := id hlambda
    simp only [hlambda, not_true, and_false, if_false] at hfree
    rw [hvalue] at hfree ⊢
    refine (hev.lambda (frame :: s) (frame :: s') x t body hm₁).bind
      fun v w m₂ m₂' hm₂ hF₂ hvw => parallel_pure hm₂ ⟨rfl, fun F' hF' hnames => ?_⟩
    rw [hvw.1, hvw.2]
    have hbody : body.freeNames true ⊆ x :: (names ++ xs) := fun y hy => by
      by_cases hyx : y = x
      · exact hyx ▸ List.mem_cons_self
      · refine List.mem_cons_of_mem _ (List.mem_append.2 ?_)
        by_cases hyn : y ∈ names
        · exact .inl hyn
        · exact .inr (hfree y (List.mem_filter.2
            ⟨List.mem_filter.2 ⟨hy, by simpa using hyx⟩, by simpa using hyn⟩))
    refine .closure hbody (.cons frame (fun y hy => ?_)
      (hs.mono (hF₁.trans (hF₂.trans hF'))))
    exact (List.mem_append.1 hy).imp_left (hnames y)
  · simp only [hlambda, not_false_eq_true, and_self, if_true] at hfree
    have hscope : Scope.AlikeOn start m₁.frameNames (b.value.freeNames true) (frame :: s)
        (frame :: s') :=
      .cons frame (fun y hy => .inr (hfree y hy)) (hs.mono hF₁)
    refine (hev.run hm₁ hscope).bind fun v w m₂ m₂' hm₂ hF₂ hvw => ?_
    exact parallel_pure hm₂ ⟨rfl, fun F' hF' _ => hvw.mono hF'⟩

/-- The scopes inside a recursive group are alike once its frame is filled. -/
theorem parallel_recursive (hev : Lexical start ev) (hm : start.Alike m m')
    (hs : Scope.AlikeOn start m.frameNames xs s s')
    (hxs : Core.freeNamesOfBindings true (bindings.map (·.name)) bindings ⊆ xs) :
    Parallel start m m' (fun F => Scope.AlikeOn start F (bindings.map (·.name) ++ xs))
      (recursive ev s bindings) (recursive ev s' bindings) := by
  have hs₀ := hs
  rw [← m.frameNames_push] at hs₀
  have hvalues := parallel_groupValues hev hm.push hs₀ hxs m.frames.size
  cases hvalues with
  | error hp hq hm₁ =>
      rw [hm.frames_size] at hq
      exact .error (bind_run_error hp _) (bind_run_error hq _) hm₁
  | @ok named named' m₁ m₁' hp hq hm₁ hF₁ hnamed =>
      rw [m.frameNames_push] at hF₁
      have hkeeps : Machine.Keeps (fun _ _ => True) { m with frames := m.frames.push [] } m₁ := by
        have hrun : Keeps (fun _ _ => True) { m with frames := m.frames.push [] }
            (bindings.mapM fun b => return (b.name, ← ev (m.frames.size :: s) b.value)) :=
          keeps_mapM fun _ b _ _ m₂ _ _ => (hev.keeps m₂ _ b.value).bind fun _ _ _ => keeps_pure _
        unfold Keeps at hrun
        rwa [hp] at hrun
      have hframe : m.frames.size < m₁.frames.size := by
        have hsize := hkeeps.frames_size
        rw [Array.size_push] at hsize
        exact hsize
      have hnames : ∀ x ∈ bindings.map (·.name),
          x ∈ (m₁.bindAll m.frames.size named).frameNames m.frames.size := fun x hx =>
        Machine.mem_frameNames_bindAll named hframe (names_of_mapM hp ▸ hx)
      have hF₂ := Machine.frameNames_le_bindAll named hframe
      have hbound : Fields.Related
          (Value.Alike start (m₁.bindAll m.frames.size named).frameNames) named named' :=
        hnamed.imp fun p q h => ⟨h.1, h.2 _ hF₂ hnames⟩
      have hm₂ := hm₁.bindAll hm.keeps.frames_size hframe hbound
      have hp₂ : recursive ev s bindings m =
          (.ok (m.frames.size :: s), m₁.bindAll m.frames.size named) :=
        bind_run_ok hp _
      have hq₂ : recursive ev s' bindings m' =
          (.ok (m.frames.size :: s'), m₁'.bindAll m.frames.size named') := by
        rw [hm.frames_size] at hq ⊢
        exact bind_run_ok hq _
      exact .ok hp₂ hq₂ hm₂ (hF₁.trans hF₂) (.cons m.frames.size
        (fun x hx => (List.mem_append.1 hx).imp_left (hnames x)) (hs.mono (hF₁.trans hF₂)))

end Group

section Node

variable {ev : Evaluator} (hev : Lexical start ev) {s s' : Scope} {e : Core}

include hev

theorem parallel_arms (hm : start.Alike m m') {alternatives : List (CoreArm Core)}
    (hs : ∀ arm ∈ alternatives, Scope.AlikeOn start m.frameNames
      ((arm.body.freeNames true).filter (· ∉ arm.pattern.binders)) s s')
    {v w : Value} (hv : Value.Alike start m.frameNames v w) (index : Nat) :
    Parallel start m m' (Value.Alike start) (arms ev s v index alternatives)
      (arms ev s' w index alternatives) := by
  induction alternatives generalizing index with
  | nil => exact parallel_failOn hm _ hv
  | cons arm alternatives ih =>
      obtain ⟨harm, hrest⟩ := List.forall_mem_cons.1 hs
      rw [arms, arms]
      have hbound := arm.pattern.rel_bindings? (Value.byForm_alike start m.frameNames) hv
        (List.Forall₂.nil : Fields.Related _ [] [])
      have hnames := arm.pattern.names_bindings? v []
      generalize arm.pattern.bindings? v [] = bound at hbound hnames ⊢
      generalize arm.pattern.bindings? w [] = bound' at hbound ⊢
      cases hbound with
      | none => exact ih hrest (index + 1)
      | @some bound bound' hbound =>
          refine (parallel_reportArm hm index hv).bind fun _ _ m₁ m₁' hm₁ hF₁ _ => ?_
          have hbound₁ : Fields.Related (Value.Alike start m₁.frameNames) bound.reverse
              bound'.reverse := List.rel_reverse (hbound.imp fun _ _ _ h => h.mono hF₁)
          refine (parallel_enter hm₁ hbound₁ (harm.mono hF₁) fun x hx => ?_).bind
            fun inner inner' m₂ m₂' hm₂ _ hinner => hev.run hm₂ hinner
          by_cases hbinder : x ∈ arm.pattern.binders
          · have hx' : x ∈ Fields.names bound := by
              rw [hnames bound rfl]
              exact List.mem_append_left _ (List.mem_reverse.2 hbinder)
            exact .inl (by simpa [Fields.names] using hx')
          · exact .inr (List.mem_filter.2 ⟨hx, by simpa using hbinder⟩)

/-- One level goes the same way in scopes that are alike if the levels below it do. -/
theorem parallel_node [Text.Segmentation] (hm : start.Alike m m')
    (hs : Scope.AlikeOn start m.frameNames (e.freeNames true) s s') :
    Parallel start m m' (Value.Alike start) (node ev s e) (node ev s' e) := by
  have hform := fun F => Value.byForm_alike start F
  have hnext : ∀ {part : Core} {m₁ m₁' : Machine}, start.Alike m₁ m₁' →
      m.frameNames ≤ m₁.frameNames → part.freeNames true ⊆ e.freeNames true →
      Parallel start m₁ m₁' (Value.Alike start) (ev s part) (ev s' part) :=
    fun hm₁ hF₁ hsub => hev.run hm₁ ((hs.weaken hsub).mono hF₁)
  have hall : ∀ {es : List Core}, e.freeNames true = Core.freeNamesOfList true es →
      Parallel start m m' (fun F => List.Forall₂ (Value.Alike start F)) (es.mapM (ev s))
        (es.mapM (ev s')) := fun {es} hes => by
    refine parallel_all hev hm fun e he => hs.weaken fun y hy => ?_
    rw [hes, Core.freeNamesOfList_eq]
    exact List.mem_flatMap.2 ⟨e, he, hy⟩
  have hfields : ∀ {fs : List (String × Core)},
      Core.freeNamesOfFields true fs ⊆ e.freeNames true → ∀ f ∈ fs,
      Scope.AlikeOn start m.frameNames (f.2.freeNames true) s s' := fun {fs} hfs f hf => by
    rw [Core.freeNamesOfFields_eq] at hfs
    exact hs.weaken fun y hy => hfs (List.mem_flatMap.2 ⟨f, hf, hy⟩)
  cases e with
  | literal l => exact parallel_pure hm (.refl _)
  | var x =>
      have hrun : ∀ (m : Machine) (s : Scope), node ev s (.var x) m =
          (m.find? x s).elim (.error (.unboundVariable x), m) fun v => (.ok v, m) := fun m s => by
        simp only [node, bind_run, get_run]
        cases m.find? x s <;> rfl
      have hfind := hm.find? hs (List.mem_singleton_self x)
      have hp := hrun m s
      have hq := hrun m' s'
      generalize m.find? x s = found at hfind hp
      generalize m'.find? x s' = found' at hfind hq
      cases hfind with
      | none => exact .error hp hq hm
      | some h => exact .ok hp hq hm le_rfl h
  | lambda x t body =>
      refine parallel_pure hm (.closure (fun y hy => ?_) hs)
      by_cases hyx : y = x
      · exact hyx ▸ List.mem_cons_self
      · exact List.mem_cons_of_mem _ (List.mem_filter.2 ⟨hy, by simpa using hyx⟩)
  | apply func arg =>
      refine (hnext hm le_rfl (List.subset_append_left _ _)).bind fun f f' m₁ m₁' hm₁ hF₁ hf => ?_
      refine (hnext hm₁ hF₁ (List.subset_append_right _ _)).bind fun a a' m₂ m₂' hm₂ hF₂ ha => ?_
      exact parallel_apply hev hm₂ (hf.mono hF₂) ha
  | letIn x t value body =>
      refine (hnext hm le_rfl (List.subset_append_left _ _)).bind fun v v' m₁ m₁' hm₁ hF₁ hv => ?_
      refine (parallel_enter hm₁ (Fields.related_singleton.2 hv) (hs.mono hF₁)
        fun y hy => ?_).bind fun inner inner' m₂ m₂' hm₂ _ hinner => hev.run hm₂ hinner
      by_cases hyx : y = x
      · exact .inl (List.mem_singleton.2 hyx)
      · exact .inr (List.mem_append_right _ (List.mem_filter.2 ⟨hy, by simpa using hyx⟩))
  | letRec bindings body =>
      refine (parallel_recursive hev hm hs (List.subset_append_left _ _)).bind
        fun inner inner' m₁ m₁' hm₁ hF₁ hinner => hev.run hm₁ (hinner.weaken fun y hy => ?_)
      by_cases hname : y ∈ bindings.map (·.name)
      · exact List.mem_append_left _ hname
      · exact List.mem_append_right _ (List.mem_append_right _
          (List.mem_filter.2 ⟨hy, by simpa using hname⟩))
  | ifElse cond yes no =>
      have hcond : cond.freeNames true ⊆ (Core.ifElse cond yes no).freeNames true :=
        fun y hy => List.mem_append_left _ (List.mem_append_left _ hy)
      have hyes : yes.freeNames true ⊆ (Core.ifElse cond yes no).freeNames true :=
        fun y hy => List.mem_append_left _ (List.mem_append_right _ hy)
      refine (hnext hm le_rfl hcond).bind fun c c' m₁ m₁' hm₁ hF₁ hc => ?_
      cases (hform _).iff.1 hc with
      | bool b =>
          cases b with
          | true => exact hnext hm₁ hF₁ hyes
          | false => exact hnext hm₁ hF₁ (List.subset_append_right _ _)
      | _ => exact parallel_failOn hm₁ _ hc
  | list items =>
      exact (hall rfl).bind fun vs ws m₁ m₁' hm₁ hF₁ hvs =>
        parallel_pure hm₁ ((hform _).iff.2 (.list hvs))
  | tuple items =>
      exact (hall rfl).bind fun vs ws m₁ m₁' hm₁ hF₁ hvs =>
        parallel_pure hm₁ ((hform _).iff.2 (.tuple hvs))
  | construct c items =>
      exact (hall rfl).bind fun vs ws m₁ m₁' hm₁ hF₁ hvs =>
        parallel_pure hm₁ ((hform _).iff.2 (.construct c hvs))
  | record fs =>
      exact (parallel_fields hev hm .nil (hfields (List.Subset.refl _))).bind
        fun gs gs' m₁ m₁' hm₁ hF₁ hgs => parallel_pure hm₁ ((hform _).iff.2 (.record hgs))
  | field base name =>
      refine (hnext hm le_rfl (List.Subset.refl (base.freeNames true))).bind
        fun v v' m₁ m₁' hm₁ hF₁ hv => ?_
      cases (hform _).iff.1 hv with
      | @record fs fs' hfs =>
          have hget := hfs.rel_get? name
          dsimp only
          generalize Fields.get? fs name = found at hget ⊢
          generalize Fields.get? fs' name = found' at hget ⊢
          cases hget with
          | none => exact parallel_throw hm₁ _
          | some h => exact parallel_pure hm₁ h
      | _ => exact parallel_failOn hm₁ _ hv
  | update base fs =>
      refine (hnext hm le_rfl (List.subset_append_left _ _)).bind fun v v' m₁ m₁' hm₁ hF₁ hv => ?_
      cases (hform _).iff.1 hv with
      | record hbefore =>
          have hfs := fun f hf => (hfields (List.subset_append_right _ _) f hf).mono hF₁
          exact (parallel_fields hev hm₁ hbefore hfs).bind
            fun gs gs' m₂ m₂' hm₂ hF₂ hgs => parallel_pure hm₂ ((hform _).iff.2 (.record hgs))
      | _ => exact parallel_failOn hm₁ _ hv
  | caseOf scrutinee t alternatives =>
      refine (hnext hm le_rfl (List.subset_append_left _ _)).bind fun v v' m₁ m₁' hm₁ hF₁ hv => ?_
      refine parallel_arms hev hm₁ (fun arm harm => (hs.mono hF₁).weaken fun y hy => ?_) hv 0
      refine List.mem_append_right _ ?_
      rw [Core.freeNamesOfArms_eq]
      exact List.mem_flatMap.2 ⟨arm, harm, hy⟩
  | ref value =>
      exact (hnext hm le_rfl (List.Subset.refl (value.freeNames true))).bind
        fun v v' m₁ m₁' hm₁ hF₁ hv => parallel_newCell hm₁ hv
  | deref target =>
      refine (hnext hm le_rfl (List.Subset.refl (target.freeNames true))).bind
        fun v v' m₁ m₁' hm₁ hF₁ hv => ?_
      cases (hform _).iff.1 hv with
      | ref i => exact parallel_readCell hm₁ i
      | _ => exact parallel_failOn hm₁ _ hv
  | assign target value =>
      refine (hnext hm le_rfl (List.subset_append_left _ _)).bind fun r r' m₁ m₁' hm₁ hF₁ hr => ?_
      refine (hnext hm₁ hF₁ (List.subset_append_right _ _)).bind fun v v' m₂ m₂' hm₂ hF₂ hv => ?_
      have hr₂ := hr.mono hF₂
      cases (hform _).iff.1 hr₂ with
      | ref i =>
          exact (parallel_writeCell hm₂ i hv).bind fun _ _ m₃ m₃' hm₃ _ _ =>
            parallel_pure hm₃ (.refl _)
      | _ => exact parallel_failOn hm₂ _ hr₂
  | sequence first second =>
      exact (hnext hm le_rfl (List.subset_append_left _ _)).bind
        fun _ _ m₁ m₁' hm₁ hF₁ _ => hnext hm₁ hF₁ (List.subset_append_right _ _)
  | annot body t => exact hnext hm le_rfl (List.Subset.refl _)

end Node

theorem lexical_atLevel [Text.Segmentation] (start : Machine) (limit left : Nat) :
    Lexical start (atLevel limit left) := by
  induction left with
  | zero =>
      exact
        { run := fun hm _ => (parallel_spend hm).bind fun _ _ _ _ hm₁ _ _ => parallel_throw hm₁ _
          lambda := fun _ _ _ _ _ hm =>
            (parallel_spend hm).bind fun _ _ _ _ hm₁ _ _ => parallel_throw hm₁ _
          keeps := fun m s e => keeps_atLevel limit 0 s e m fun _ _ _ => trivial }
  | succ left ih =>
      refine
        { run := fun hm hs => ?_
          lambda := fun s s' x t body hm => ?_
          keeps := fun m s e => keeps_atLevel limit (left + 1) s e m fun _ _ _ => trivial }
      · simp only [atLevel, onLevel_eq]
        exact (parallel_spend hm).bind fun _ _ _ _ hm₁ hF₁ _ => parallel_node ih hm₁ (hs.mono hF₁)
      · simp only [atLevel, onLevel_eq]
        exact (parallel_spend hm).bind fun _ _ _ _ hm₁ _ _ => parallel_pure hm₁ ⟨rfl, rfl⟩

/-! ### Calls -/

section Call

theorem spend_run (m : Machine) : ∃ r fuel, spend m = (r, m.withFuel fuel) := by
  obtain ⟨cells, frames, fuel, isTraced, events⟩ := m
  match fuel with
  | none | some 0 | some (n + 1) => exact ⟨_, _, rfl⟩

variable [Text.Segmentation] {m : Machine} {s s' : Scope} {f x : String} (limit left : Nat)

/-- Looking a name up depends on what it has in the scope only. -/
theorem atLevel_var (h : m.find? x s = m.find? x s') : ∃ r fuel,
    atLevel limit left s (.var x) m = (r, m.withFuel fuel) ∧
      atLevel limit left s' (.var x) m = (r, m.withFuel fuel) := by
  obtain ⟨r, fuel, hspend⟩ := spend_run m
  cases r with
  | error e => cases left <;> exact ⟨_, fuel, bind_run_error hspend _, bind_run_error hspend _⟩
  | ok _ =>
      cases left with
      | zero => exact ⟨_, fuel, bind_run_ok hspend _, bind_run_ok hspend _⟩
      | succ left =>
          refine ⟨((m.find? x s').elim (.error (.unboundVariable x)) .ok), fuel, ?_⟩
          simp only [atLevel, onLevel_eq, bind_run_ok hspend, node, bind_run, get_run,
            Machine.find?_withFuel, h]
          cases m.find? x s' <;> exact ⟨rfl, rfl⟩

/-- A call depends on what the names in it have in the scope only. -/
theorem atLevel_call (hf : m.find? f s = m.find? f s') (hx : m.find? x s = m.find? x s') :
    atLevel limit left s (.apply (.var f) (.var x)) m =
      atLevel limit left s' (.apply (.var f) (.var x)) m := by
  cases left with
  | zero => rfl
  | succ left =>
      simp only [atLevel, onLevel_eq]
      obtain ⟨r, fuel, hspend⟩ := spend_run m
      cases r with
      | error e => rw [bind_run_error hspend, bind_run_error hspend]
      | ok _ =>
          rw [bind_run_ok hspend, bind_run_ok hspend, node, node]
          rw [← m.find?_withFuel fuel, ← m.find?_withFuel fuel] at hf hx
          obtain ⟨rf, fuel₁, hfunc, hfunc'⟩ := atLevel_var limit left hf
          rw [← (m.withFuel fuel).find?_withFuel fuel₁,
            ← (m.withFuel fuel).find?_withFuel fuel₁] at hx
          obtain ⟨rx, fuel₂, harg, harg'⟩ := atLevel_var limit left hx
          simp only [bind_run, hfunc, hfunc']
          cases rf with
          | error e => rfl
          | ok func => simp only [harg, harg']

/-- A call has the outcome that its function has on its argument, wherever it stands. -/
theorem node_apply {ev : Evaluator} {func arg : Core} {f v : Value} {m₁ : Machine}
    (h : [func, arg].mapM (ev s) m = (.ok [f, v], m₁)) :
    node ev s (.apply func arg) m = apply ev f v m₁ := by
  simp only [List.mapM_cons, List.mapM_nil, bind_run] at h
  rcases hfunc : ev s func m with ⟨e | f', m₂⟩
  · rw [hfunc] at h
    cases h
  · rcases harg : ev s arg m₂ with ⟨e | v', m₃⟩
    · simp only [hfunc, harg] at h
      cases h
    · simp only [hfunc, harg] at h
      cases h
      rw [node, bind_run_ok hfunc, bind_run_ok harg]

end Call

end Eval

/-- The relation holds between values of one form only. Where it holds between functions, it holds
between the values that their code finds in the one machine and in the other. -/
def Machine.IsSimilarity (m m' : Machine) (R : Value → Value → Prop) : Prop :=
  ∀ v w, R v w → v.SameForm R (fun x body s s' => ∀ y ∈ body.freeNames true, y ≠ x →
    Option.Rel R (m.find? y s) (m'.find? y s')) w

/-- The values differ at most in what functions keep under names that their code does not refer to.
Functions may lead to each other, so this is the greatest relation of its kind. -/
def Value.Similar (m m' : Machine) (v w : Value) : Prop := ∃ R, m.IsSimilarity m' R ∧ R v w

theorem Machine.Alike.isSimilarity {start m m' : Machine} (hm : start.Alike m m') :
    m.IsSimilarity m' (Value.Alike start m.frameNames) := fun _ _ h =>
  ((Value.byForm_alike start m.frameNames).iff.1 h).imp fun _ _ _ _ ⟨_, hbody, hs⟩ _ hy hne =>
    hm.find? hs ((List.mem_cons.1 (hbody hy)).resolve_left hne)

/-- Scopes with the same values under the names that an expression refers to are as good as each
other: the fault is the same, or the values and the cells differ at most in bindings that nothing
refers to. In particular, whatever names are bound around a call, its outcome is the same as long as
its function and its argument have the same values. The names of a recursive group count as referred
to by those of its values that are no functions, and there are none of these where names are known
to be in scope. -/
theorem scoping_is_lexical [Text.Segmentation] (m : Machine) (limits : EvalLimits) :
    (∀ (e : Core) (s s' : Scope), (∀ j ∈ s, j < m.frames.size) → (∀ j ∈ s', j < m.frames.size) →
      (∀ x ∈ e.freeNames true, m.find? x s = m.find? x s') →
      let run := m.evaluate limits s e
      let run' := m.evaluate limits s' e
      ((∃ cause, run.1 = .error cause ∧ run'.1 = .error cause) ∨
        ∃ v w, run.1 = .ok v ∧ run'.1 = .ok w ∧ v.Similar run.2 run'.2 w) ∧
      run.2.cells.size = run'.2.cells.size ∧
      ∀ i : Nat, Option.Rel (Value.Similar run.2 run'.2) run.2.cells[i]? run'.2.cells[i]?) ∧
    (∀ (left : Nat) (func arg : Core) (s s' : Scope) (f v : Value) (m₀ m₀' m₁ : Machine),
      [func, arg].mapM (Eval.atLevel limits.depth left s) m₀ = (.ok [f, v], m₁) →
      [func, arg].mapM (Eval.atLevel limits.depth left s') m₀' = (.ok [f, v], m₁) →
      Eval.node (Eval.atLevel limits.depth left) s (.apply func arg) m₀ =
        Eval.node (Eval.atLevel limits.depth left) s' (.apply func arg) m₀') ∧
    (∀ (f x : String) (s s' : Scope), m.find? f s = m.find? f s' → m.find? x s = m.find? x s' →
      m.evaluate limits s (.apply (.var f) (.var x)) =
        m.evaluate limits s' (.apply (.var f) (.var x))) ∧
    ∀ (e : Core) (xs : List String), e.Scoped xs → e.freeNames true = e.freeNames false := by
  refine ⟨fun e s s' hs hs' hfree => ?_, fun left func arg s s' f v m₀ m₀' m₁ hrun hrun' => ?_,
    fun f x s s' hf hx => ?_, fun e xs he => he.freeNames_early⟩
  · set start := m.withFuel limits.fuel with hstart
    have hscopes : Scope.AlikeOn start start.frameNames (e.freeNames true) s s' :=
      .start hs hs' fun x hx => by
        rw [hstart, Machine.find?_withFuel, Machine.find?_withFuel]
        exact hfree x hx
    have hcells : ∀ {m₁ m₁' : Machine}, start.Alike m₁ m₁' → ∀ i : Nat,
        Option.Rel (Value.Similar m₁ m₁') m₁.cells[i]? m₁'.cells[i]? := fun hm i =>
      rel_imp (hm.cells i) fun _ _ h => ⟨_, hm.isSimilarity, h⟩
    intro run run'
    cases (Eval.lexical_atLevel start limits.depth limits.depth).run (.refl start) hscopes with
    | @error cause m₁ m₁' hp hq hm =>
        have hrun : run = (.error cause, m₁) := hp
        have hrun' : run' = (.error cause, m₁') := hq
        rw [hrun, hrun']
        exact ⟨.inl ⟨cause, rfl, rfl⟩, hm.cells_size, hcells hm⟩
    | @ok v w m₁ m₁' hp hq hm _ hvw =>
        have hrun : run = (.ok v, m₁) := hp
        have hrun' : run' = (.ok w, m₁') := hq
        rw [hrun, hrun']
        exact ⟨.inr ⟨v, w, rfl, rfl, _, hm.isSimilarity, hvw⟩, hm.cells_size, hcells hm⟩
  · rw [Eval.node_apply hrun, Eval.node_apply hrun']
  · rw [Machine.evaluate_eq, Machine.evaluate_eq]
    refine Eval.atLevel_call limits.depth limits.depth ?_ ?_
    · rwa [Machine.find?_withFuel, Machine.find?_withFuel]
    · rwa [Machine.find?_withFuel, Machine.find?_withFuel]

/-- Two cells with functions that keep different scopes, in neither of which `z` is looked up; and
calls of a function that keeps another `x` than the one that is bound around the call. -/
theorem scoping_is_lexical_unusedBinding :
    let f : Value := .closure "y" (.var "x") [0]
    let m : Machine := { frames := #[[("x", .int 10)], [("f", f), ("y", .int 1)],
      [("x", .int 5), ("z", .int 7)], [("z", .int 5)]] }
    let e : Core := .ref (.lambda "y" (.base .int default) (.var "x"))
    let run := m.evaluate ⟨none, 4⟩ [0] e
    let run' := m.evaluate ⟨none, 4⟩ [3, 0] e
    run.1 = .ok (.ref 0) ∧ run'.1 = .ok (.ref 0) ∧
      Option.Rel (Value.Similar run.2 run'.2) run.2.cells[0]? run'.2.cells[0]? ∧
      Eval.node (Eval.atLevel 4 3) [2, 1] (.apply (.var "f") (.var "y")) m =
        Eval.node (Eval.atLevel 4 3) [1] (.apply (.var "f") (.var "y")) m ∧
      m.evaluate ⟨none, 4⟩ [2, 1] (.apply (.var "f") (.var "y")) =
        m.evaluate ⟨none, 4⟩ [1] (.apply (.var "f") (.var "y")) ∧
      (m.evaluate ⟨none, 4⟩ [1] (.apply (.var "f") (.var "y"))).1 = .ok (.int 10) ∧
      e.freeNames true = e.freeNames false := by
  intro f m e run run'
  have hfree : ∀ x ∈ e.freeNames true, m.find? x [0] = m.find? x [3, 0] := by
    intro x hx
    obtain rfl : x = "x" := by simpa [e, Core.freeNames] using hx
    rfl
  have hscoped : e.Scoped ["x"] := .ref (.lambda (.var (by simp)))
  obtain ⟨hlexical, hcall, hnames, hearly⟩ := scoping_is_lexical m ⟨none, 4⟩
  obtain ⟨-, -, hcells⟩ := hlexical e [0] [3, 0] (by decide) (by decide) hfree
  exact ⟨rfl, rfl, hcells 0, hcall 3 (.var "f") (.var "y") [2, 1] [1] f (.int 1) m m m rfl rfl,
    hnames "f" "y" [2, 1] [1] rfl rfl, rfl, hearly e ["x"] hscoped⟩

/-- The value of a recursive group that is no function finds its own name outside of the group. -/
theorem scoping_is_not_lexical_earlyLookup :
    ¬ ∀ (m : Machine) (limits : EvalLimits) (e : Core) (s s' : Scope),
      (∀ j ∈ s, j < m.frames.size) → (∀ j ∈ s', j < m.frames.size) →
      (∀ x ∈ e.freeNames false, m.find? x s = m.find? x s') →
      let run := m.evaluate limits s e
      let run' := m.evaluate limits s' e
      (∃ cause, run.1 = .error cause ∧ run'.1 = .error cause) ∨
        ∃ v w, run.1 = .ok v ∧ run'.1 = .ok w ∧ v.Similar run.2 run'.2 w := by
  intro hlexical
  let e : Core := .letRec [⟨"f", .base .int default, .var "f"⟩] (.var "f")
  have hfree : e.freeNames false = [] := by
    simp [e, Core.freeNames, Core.freeNamesOfBindings]
  rcases hlexical { frames := #[[("f", .int 1)]] } ⟨none, 4⟩ e [] [0] (by simp) (by simp)
    (by rw [hfree]; simp) with ⟨cause, -, hcause⟩ | ⟨v, w, hv, -⟩
  · have hrun : (.ok (.int 1) : Except EvalError Value) = .error cause := hcause
    cases hrun
  · have hrun : (.error (.unboundVariable "f") : Except EvalError Value) = .ok v := hv
    cases hrun

end FieldML
