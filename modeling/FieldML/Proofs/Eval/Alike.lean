import FieldML.Proofs.Eval.Frames
import FieldML.Proofs.Scope.Core
import Mathlib.Data.Set.Basic

/-!
# Scopes that are alike

Two evaluations of one expression in different scopes come to values that are alike: they have one
form, and where a function keeps different scopes, its code finds like values in both under all
names that it looks up. Both evaluations make the same frames, and a frame may get more names after it
has come into the scope of a function. So scopes are compared by which names each frame has at the
time, and remain alike as frames get their names.
-/

namespace FieldML

/-- The scopes have like values under these names; `F` has the names of each frame. Scopes that
there were at the start have what they had then. -/
inductive Scope.AlikeOn (start : Machine) (F : Nat → Set String) :
    List String → Scope → Scope → Prop
  | refl (xs : List String) (s : Scope) : Scope.AlikeOn start F xs s s
  | start {xs : List String} {s s' : Scope} (hs : ∀ j ∈ s, j < start.frames.size)
      (hs' : ∀ j ∈ s', j < start.frames.size)
      (h : ∀ x ∈ xs, start.find? x s = start.find? x s') : Scope.AlikeOn start F xs s s'
  | cons {xs ys : List String} {s s' : Scope} (j : Nat) (hxs : ∀ x ∈ xs, x ∈ F j ∨ x ∈ ys)
      (h : Scope.AlikeOn start F ys s s') : Scope.AlikeOn start F xs (j :: s) (j :: s')

/-- The values have one form, and the functions in them find like values. -/
inductive Value.Alike (start : Machine) (F : Nat → Set String) : Value → Value → Prop
  | refl (v : Value) : Value.Alike start F v v
  | list {vs ws : List Value} (hlength : vs.length = ws.length)
      (h : ∀ p ∈ vs.zip ws, Value.Alike start F p.1 p.2) :
      Value.Alike start F (.list vs) (.list ws)
  | tuple {vs ws : List Value} (hlength : vs.length = ws.length)
      (h : ∀ p ∈ vs.zip ws, Value.Alike start F p.1 p.2) :
      Value.Alike start F (.tuple vs) (.tuple ws)
  | record {fs gs : List (String × Value)} (hnames : Fields.names fs = Fields.names gs)
      (h : ∀ p ∈ fs.zip gs, Value.Alike start F p.1.2 p.2.2) :
      Value.Alike start F (.record fs) (.record gs)
  | construct (c : String) {vs ws : List Value} (hlength : vs.length = ws.length)
      (h : ∀ p ∈ vs.zip ws, Value.Alike start F p.1 p.2) :
      Value.Alike start F (.construct c vs) (.construct c ws)
  | primitive (p : Primitive) {vs ws : List Value} (hlength : vs.length = ws.length)
      (h : ∀ p ∈ vs.zip ws, Value.Alike start F p.1 p.2) :
      Value.Alike start F (.primitive p vs) (.primitive p ws)
  | closure {x : String} {body : Core} {xs : List String} {s s' : Scope}
      (hbody : body.freeNames true ⊆ x :: xs) (h : Scope.AlikeOn start F xs s s') :
      Value.Alike start F (.closure x body s) (.closure x body s')

variable {start m m' : Machine} {F F' : Nat → Set String} {v w : Value} {vs ws : List Value}
  {fs gs bs bs' : List (String × Value)} {xs ys : List String} {s s' : Scope} {x : String}

theorem Scope.AlikeOn.mono (hF : F ≤ F') (h : Scope.AlikeOn start F xs s s') :
    Scope.AlikeOn start F' xs s s' := by
  induction h with
  | refl xs s => exact .refl xs s
  | start hs hs' h => exact .start hs hs' h
  | cons j hxs _ ih => exact .cons j (fun x hx => (hxs x hx).imp_left (hF j ·)) ih

theorem Value.Alike.mono (hF : F ≤ F') {v w : Value} (h : Value.Alike start F v w) :
    Value.Alike start F' v w := by
  match h with
  | .refl v => exact .refl v
  | .list hlength h => exact .list hlength fun p hp => (h p hp).mono hF
  | .tuple hlength h => exact .tuple hlength fun p hp => (h p hp).mono hF
  | .record hnames h => exact .record hnames fun p hp => (h p hp).mono hF
  | .construct c hlength h => exact .construct c hlength fun p hp => (h p hp).mono hF
  | .primitive p hlength h => exact .primitive p hlength fun p hp => (h p hp).mono hF
  | .closure hbody h => exact .closure hbody (h.mono hF)

/-! ### Entry by entry -/

theorem Value.forall₂_alike :
    List.Forall₂ (Value.Alike start F) vs ws ↔
      vs.length = ws.length ∧ ∀ p ∈ vs.zip ws, Value.Alike start F p.1 p.2 := by
  rw [List.forall₂_iff_zip]
  exact and_congr_right fun _ => ⟨fun h p hp => h hp, fun h v w hp => h (v, w) hp⟩

theorem Value.related_alike :
    Fields.Related (Value.Alike start F) fs gs ↔
      Fields.names fs = Fields.names gs ∧ ∀ p ∈ fs.zip gs, Value.Alike start F p.1.2 p.2.2 := by
  induction fs generalizing gs with
  | nil => cases gs <;> simp [Fields.Related, Fields.names]
  | cons f fs ih =>
      cases gs with
      | nil => simp [Fields.Related, Fields.names]
      | cons g gs =>
          rw [Fields.Related, List.forall₂_cons, ← Fields.Related, ih]
          simp only [Fields.names, List.map_cons, List.cons.injEq, List.zip_cons_cons,
            List.forall_mem_cons]
          tauto

/-- Values that are alike have one form and like parts. -/
theorem Value.byForm_alike (start : Machine) (F : Nat → Set String) :
    Value.ByForm (Value.Alike start F) fun x body s s' =>
      ∃ xs, body.freeNames true ⊆ x :: xs ∧ Scope.AlikeOn start F xs s s' := by
  have hall : ∀ vs : List Value, List.Forall₂ (Value.Alike start F) vs vs := fun vs =>
    List.forall₂_same.2 fun v _ => .refl v
  refine ⟨fun {v w} => ⟨fun h => ?_, fun h => ?_⟩⟩
  · cases h with
    | refl v =>
        cases v with
        | list vs => exact .list (hall vs)
        | tuple vs => exact .tuple (hall vs)
        | construct c vs => exact .construct c (hall vs)
        | primitive p vs => exact .primitive p (hall vs)
        | record fs => exact .record (List.forall₂_same.2 fun f _ => ⟨rfl, .refl f.2⟩)
        | closure x body s =>
            exact .closure ⟨body.freeNames true, List.subset_cons_self _ _, .refl _ s⟩
        | _ => constructor
    | list hlength h => exact .list (Value.forall₂_alike.2 ⟨hlength, h⟩)
    | tuple hlength h => exact .tuple (Value.forall₂_alike.2 ⟨hlength, h⟩)
    | construct c hlength h => exact .construct c (Value.forall₂_alike.2 ⟨hlength, h⟩)
    | primitive p hlength h => exact .primitive p (Value.forall₂_alike.2 ⟨hlength, h⟩)
    | record hnames h => exact .record (Value.related_alike.2 ⟨hnames, h⟩)
    | closure hbody h => exact .closure ⟨_, hbody, h⟩
  · cases h with
    | list h =>
        obtain ⟨hlength, h⟩ := Value.forall₂_alike.1 h
        exact .list hlength h
    | tuple h =>
        obtain ⟨hlength, h⟩ := Value.forall₂_alike.1 h
        exact .tuple hlength h
    | construct c h =>
        obtain ⟨hlength, h⟩ := Value.forall₂_alike.1 h
        exact .construct c hlength h
    | primitive p h =>
        obtain ⟨hlength, h⟩ := Value.forall₂_alike.1 h
        exact .primitive p hlength h
    | record h =>
        obtain ⟨hnames, h⟩ := Value.related_alike.1 h
        exact .record hnames h
    | closure h =>
        obtain ⟨xs, hbody, h⟩ := h
        exact .closure hbody h
    | _ => exact .refl _

/-- Fewer names are found in both. -/
theorem Scope.AlikeOn.weaken (h : Scope.AlikeOn start F xs s s') (hsub : ys ⊆ xs) :
    Scope.AlikeOn start F ys s s' := by
  cases h with
  | refl xs s => exact .refl ys s
  | start hs hs' h => exact .start hs hs' fun x hx => h x (hsub hx)
  | cons j hxs h => exact .cons j (fun x hx => hxs x (hsub hx)) h

/-! ### Machines -/

theorem Machine.find?_cons (m : Machine) (x : String) (frame : Nat) (s : Scope) :
    m.find? x (frame :: s) = (Fields.get? (m.frame frame) x).or (m.find? x s) := by
  rw [Machine.find?]
  cases Fields.get? (m.frame frame) x <;> rfl

/-- The names that each frame has. -/
def Machine.frameNames (m : Machine) (frame : Nat) : Set String :=
  {x | x ∈ Fields.names (m.frame frame)}

section Frames

variable (m : Machine) {frame : Nat} (bindings : List (String × Value))

theorem Machine.frame_push (j : Nat) :
    { m with frames := m.frames.push [] }.frame j = m.frame j := by
  rw [Machine.frame, Machine.frame, Array.getElem?_push]
  split
  · next h => rw [h, Array.getElem?_eq_none (Nat.le_refl _)]; rfl
  · rfl

theorem Machine.frameNames_push :
    { m with frames := m.frames.push [] }.frameNames = m.frameNames := by
  funext j
  rw [Machine.frameNames, Machine.frameNames, Machine.frame_push]

variable {m}

theorem Machine.frame_bindAll_self (h : frame < m.frames.size) :
    (m.bindAll frame bindings).frame frame =
      bindings.foldl (fun fields b => Fields.insert b.1 b.2 fields) (m.frame frame) := by
  rw [Machine.bindAll_eq, Machine.frame, Machine.frame, Array.getElem?_modify, if_pos rfl,
    Array.getElem?_eq_getElem h]
  rfl

theorem Machine.frame_bindAll_ne {j : Nat} (h : j ≠ frame) :
    (m.bindAll frame bindings).frame j = m.frame j := by
  rw [Machine.bindAll_eq, Machine.frame, Machine.frame, Array.getElem?_modify, if_neg h.symm]

/-- A frame gets the names that are bound in it. -/
theorem Machine.mem_frameNames_bindAll (h : frame < m.frames.size)
    (hx : x ∈ Fields.names bindings) : x ∈ (m.bindAll frame bindings).frameNames frame := by
  rw [Machine.frameNames, Machine.frame_bindAll_self bindings h]
  exact Fields.mem_names_foldl_insert.2 (.inl hx)

/-- Frames keep the names that they have. -/
theorem Machine.frameNames_le_bindAll (h : frame < m.frames.size) :
    m.frameNames ≤ (m.bindAll frame bindings).frameNames := by
  intro j x hx
  by_cases hj : j = frame
  · subst hj
    rw [Machine.frameNames, Machine.frame_bindAll_self bindings h]
    exact Fields.mem_names_foldl_insert.2 (.inr hx)
  · rw [Machine.frameNames, Machine.frame_bindAll_ne bindings hj]
    exact hx

end Frames

/-- The machines have as many cells and frames with like contents, and agree in everything else.
They have kept the frames of the start. -/
structure Machine.Alike (start m m' : Machine) : Prop where
  cells_size : m.cells.size = m'.cells.size
  cells : ∀ i : Nat, Option.Rel (Value.Alike start m.frameNames) m.cells[i]? m'.cells[i]?
  frames_size : m.frames.size = m'.frames.size
  frames : ∀ j, Fields.Related (Value.Alike start m.frameNames) (m.frame j) (m'.frame j)
  keeps : start.Keeps (fun _ _ => True) m
  keeps' : start.Keeps (fun _ _ => True) m'
  fuel : m.fuel = m'.fuel
  isTraced : m.isTraced = m'.isTraced
  events : m.events = m'.events

namespace Machine.Alike

theorem refl (m : Machine) : m.Alike m m where
  cells_size := rfl
  cells _ := rel_refl .refl _
  frames_size := rfl
  frames _ := List.forall₂_same.2 fun f _ => ⟨rfl, .refl f.2⟩
  keeps := .refl m
  keeps' := .refl m
  fuel := rfl
  isTraced := rfl
  events := rfl

theorem push (hm : start.Alike m m') : start.Alike { m with frames := m.frames.push [] }
    { m' with frames := m'.frames.push [] } :=
  { hm with
    cells := by
      rw [Machine.frameNames_push]
      exact hm.cells
    frames_size := by simp [hm.frames_size]
    frames := fun j => by
      rw [Machine.frameNames_push, Machine.frame_push, Machine.frame_push]
      exact hm.frames j
    keeps := hm.keeps.trans (.push m [])
    keeps' := hm.keeps'.trans (.push m' []) }

/-- Values that are alike then are bound in a frame that there was not at the start. -/
theorem bindAll (hm : start.Alike m m') {frame : Nat} (hstart : start.frames.size ≤ frame)
    (hframe : frame < m.frames.size)
    (hbs : Fields.Related (Value.Alike start (m.bindAll frame bs).frameNames) bs bs') :
    start.Alike (m.bindAll frame bs) (m'.bindAll frame bs') := by
  have hF := Machine.frameNames_le_bindAll bs hframe
  have hframes : ∀ j, Fields.Related (Value.Alike start (m.bindAll frame bs).frameNames)
      ((m.bindAll frame bs).frame j) ((m'.bindAll frame bs').frame j) := fun j => by
    have hold := (hm.frames j).imp fun _ _ _ h => h.mono hF
    by_cases hj : j = frame
    · subst hj
      rw [Machine.frame_bindAll_self bs hframe,
        Machine.frame_bindAll_self bs' (hm.frames_size ▸ hframe)]
      exact hold.foldl_insert hbs
    · rwa [Machine.frame_bindAll_ne bs hj, Machine.frame_bindAll_ne bs' hj]
  have hcells : ∀ i : Nat, Option.Rel (Value.Alike start (m.bindAll frame bs).frameNames)
      m.cells[i]? m'.cells[i]? := fun i => rel_imp (hm.cells i) fun _ _ h => h.mono hF
  have hkeeps := hm.keeps.bindAll hstart bs
  have hkeeps' := hm.keeps'.bindAll hstart bs'
  rw [Machine.bindAll_eq m] at hframes hcells hkeeps ⊢
  rw [Machine.bindAll_eq m'] at hframes hkeeps' ⊢
  exact { hm with
    cells := hcells
    frames_size := by simp [hm.frames_size]
    frames := hframes
    keeps := hkeeps
    keeps' := hkeeps' }

/-- Like values have the same text. -/
theorem print_eq (hm : start.Alike m m') (h : Value.Alike start m.frameNames v w) :
    v.print m.cells = w.print m'.cells :=
  (Value.byForm_alike start m.frameNames).print_eq hm.cells_size hm.cells h

/-- Under the names on which scopes are alike, both have like values or none. -/
theorem find? (hm : start.Alike m m') (hs : Scope.AlikeOn start m.frameNames xs s s')
    (hx : x ∈ xs) :
    Option.Rel (Value.Alike start m.frameNames) (m.find? x s) (m'.find? x s') := by
  -- The values of a frame come first, and the rest matters only where both frames have none.
  have hframe : ∀ {bs bs' : List (String × Value)} {o o' : Option Value},
      Fields.Related (Value.Alike start m.frameNames) bs bs' →
      (x ∉ Fields.names bs → Option.Rel (Value.Alike start m.frameNames) o o') →
      Option.Rel (Value.Alike start m.frameNames)
        ((Fields.get? bs x).or o) ((Fields.get? bs' x).or o') := by
    intro bs bs' o o' hbs hrest
    have hget := hbs.rel_get? x
    have hnot : Fields.get? bs x = none → x ∉ Fields.names bs := Fields.get?_eq_none.1
    generalize Fields.get? bs x = found at hget hnot ⊢
    generalize Fields.get? bs' x = found' at hget ⊢
    cases hget with
    | none => exact hrest (hnot rfl)
    | some h => exact .some h
  induction s generalizing s' xs with
  | nil =>
      cases hs with
      | refl => exact .none
      | start hs hs' h =>
          rw [hm.keeps.find?_eq hs, hm.keeps'.find?_eq hs', h x hx]
          exact rel_refl .refl _
  | cons j s ih =>
      cases hs with
      | refl =>
          rw [Machine.find?_cons, Machine.find?_cons]
          exact hframe (hm.frames j) fun _ => ih (.refl xs s) hx
      | start hs hs' h =>
          rw [hm.keeps.find?_eq hs, hm.keeps'.find?_eq hs', h x hx]
          exact rel_refl .refl _
      | cons _ hxs h =>
          rw [Machine.find?_cons, Machine.find?_cons]
          exact hframe (hm.frames j) fun hnot => ih h ((hxs x hx).resolve_left hnot)

end Machine.Alike

end FieldML
