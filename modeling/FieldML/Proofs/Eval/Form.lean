import FieldML.Eval.Machine
import FieldML.Eval.Match
import FieldML.Proofs.Eval.Equality

/-!
# Values of one form

Texts, comparisons, patterns and primitives look at the forms of values and never into functions. So
they cannot tell apart two values of one form whose parts cannot be told apart either, whatever is
asked of the functions in them. Primitives leave the machine as it is.
-/

namespace FieldML

variable {R : Value → Value → Prop} {C : String → Core → Scope → Scope → Prop}

theorem rel_refl {α : Type} {Q : α → α → Prop} (hQ : ∀ a, Q a a) (o : Option α) :
    Option.Rel Q o o := by
  cases o with
  | none => exact .none
  | some a => exact .some (hQ a)

theorem rel_imp {α β : Type} {Q S : α → β → Prop} {o : Option α} {o' : Option β}
    (h : Option.Rel Q o o') (hQS : ∀ a b, Q a b → S a b) : Option.Rel S o o' := by
  cases h with
  | none => exact .none
  | some h => exact .some (hQS _ _ h)

theorem rel_bind {α α' β β' : Type} {Q : α → α' → Prop} {S : β → β' → Prop} {a : Option α}
    {a' : Option α'} {f : α → Option β} {f' : α' → Option β'} (ha : Option.Rel Q a a')
    (hf : ∀ x x', Q x x' → Option.Rel S (f x) (f' x')) :
    Option.Rel S (a >>= f) (a' >>= f') := by
  cases ha with
  | none => exact .none
  | some h => exact hf _ _ h

namespace Value

/-- The values have one form, and their parts are related. Functions have the same code, and `C`
relates the scopes that they keep. -/
inductive SameForm (R : Value → Value → Prop) (C : String → Core → Scope → Scope → Prop) :
    Value → Value → Prop
  | unit : SameForm R C .unit .unit
  | bool (b : Bool) : SameForm R C (.bool b) (.bool b)
  | int (n : Int64) : SameForm R C (.int n) (.int n)
  | string (s : String) : SameForm R C (.string s) (.string s)
  | list {vs ws : List Value} (h : List.Forall₂ R vs ws) : SameForm R C (.list vs) (.list ws)
  | tuple {vs ws : List Value} (h : List.Forall₂ R vs ws) : SameForm R C (.tuple vs) (.tuple ws)
  | record {fs gs : List (String × Value)} (h : Fields.Related R fs gs) :
      SameForm R C (.record fs) (.record gs)
  | construct (c : String) {vs ws : List Value} (h : List.Forall₂ R vs ws) :
      SameForm R C (.construct c vs) (.construct c ws)
  | closure {x : String} {body : Core} {s s' : Scope} (h : C x body s s') :
      SameForm R C (.closure x body s) (.closure x body s')
  | primitive (p : Primitive) {vs ws : List Value} (h : List.Forall₂ R vs ws) :
      SameForm R C (.primitive p vs) (.primitive p ws)
  | ref (i : Nat) : SameForm R C (.ref i) (.ref i)

/-- The relation holds exactly between values of one form with related parts. -/
structure ByForm (R : Value → Value → Prop) (C : String → Core → Scope → Scope → Prop) : Prop where
  iff : ∀ {v w : Value}, R v w ↔ v.SameForm R C w

variable {v w v' w' : Value} {vs ws vs' ws' : List Value} {fs gs fs' gs' : List (String × Value)}

theorem SameForm.isCompound (h : v.SameForm R C w) : v.isCompound = w.isCompound := by
  cases h with
  | construct c hvs => cases hvs <;> rfl
  | _ => rfl

theorem SameForm.imp {C' : String → Core → Scope → Scope → Prop} (h : v.SameForm R C w)
    (hC : ∀ x body s s', C x body s s' → C' x body s s') : v.SameForm R C' w := by
  cases h with
  | list h => exact .list h
  | tuple h => exact .tuple h
  | record h => exact .record h
  | construct c h => exact .construct c h
  | closure h => exact .closure (hC _ _ _ _ h)
  | primitive p h => exact .primitive p h
  | _ => constructor

/-- Two values that are the same all the way down are one value. -/
theorem byForm_eq : ByForm Eq fun _ _ s s' => s = s' := by
  refine ⟨fun {v w} => ⟨?_, fun h => ?_⟩⟩
  · rintro rfl
    have hall : ∀ vs : List Value, List.Forall₂ Eq vs vs := List.forall₂_refl
    cases v with
    | list vs => exact .list (hall vs)
    | tuple vs => exact .tuple (hall vs)
    | construct c vs => exact .construct c (hall vs)
    | primitive p vs => exact .primitive p (hall vs)
    | record fs => exact .record (Fields.Related.eq_iff.2 rfl)
    | closure x body s => exact .closure rfl
    | _ => constructor
  · cases h with
    | list h | tuple h | construct c h | primitive p h =>
        rw [List.forall₂_eq_eq_eq] at h
        rw [h]
    | record h => rw [Fields.Related.eq_iff.1 h]
    | closure h => rw [h]
    | _ => rfl

/-! ### Texts -/

mutual

theorem ByForm.printWith_eq (hR : ByForm R C) (cell : Nat → String) {v w : Value} (h : R v w) :
    v.printWith cell = w.printWith cell := by
  match v, w, hR.iff.1 h with
  | _, _, .unit | _, _, .bool _ | _, _, .int _ | _, _, .string _ | _, _, .ref _ => rfl
  | _, _, .closure _ | _, _, .primitive _ _ => simp [printWith]
  | .list vs, .list ws, .list h => rw [printWith, printWith, hR.printAllWith_eq cell h]
  | .tuple vs, .tuple ws, .tuple h => rw [printWith, printWith, hR.printAllWith_eq cell h]
  | .record fs, .record gs, .record h => rw [printWith, printWith, hR.printFieldsWith_eq cell h]
  | .construct _ [], .construct _ [], .construct c _ => rfl
  | .construct _ [v], .construct _ [w], .construct c (.cons h _) =>
      have hwrap : v.isCompound = w.isCompound := (hR.iff.1 h).isCompound
      simp [printWith, wrap, hwrap, hR.printWith_eq cell h]
  | .construct _ (v₁ :: v₂ :: vs), .construct _ (w₁ :: w₂ :: ws), .construct c h =>
      simp [printWith, hR.printAllWith_eq cell h]

theorem ByForm.printAllWith_eq (hR : ByForm R C) (cell : Nat → String) {vs ws : List Value}
    (h : List.Forall₂ R vs ws) : printAllWith cell vs = printAllWith cell ws := by
  match vs, ws, h with
  | [], [], _ => rfl
  | v :: vs, w :: ws, .cons h hs =>
      rw [printAllWith, printAllWith, hR.printWith_eq cell h, hR.printAllWith_eq cell hs]

theorem ByForm.printFieldsWith_eq (hR : ByForm R C) (cell : Nat → String)
    {fs gs : List (String × Value)} (h : Fields.Related R fs gs) :
    printFieldsWith cell fs = printFieldsWith cell gs := by
  match fs, gs, h with
  | [], [], _ => rfl
  | (x, v) :: fs, (y, w) :: gs, .cons h hs =>
      obtain ⟨rfl, h⟩ : x = y ∧ R v w := h
      rw [printFieldsWith, printFieldsWith, hR.printWith_eq cell h, hR.printFieldsWith_eq cell hs]

end

theorem ByForm.printCell_eq (hR : ByForm R C) {cells cells' : Array Value}
    (hcells : ∀ i : Nat, Option.Rel R cells[i]? cells'[i]?) (n i : Nat) :
    printCell cells n i = printCell cells' n i := by
  induction n generalizing i with
  | zero => rfl
  | succ n ih =>
      have hcell : printCell cells n = printCell cells' n := funext ih
      rw [printCell, printCell, hcell]
      match cells[i]?, cells'[i]?, hcells i with
      | none, none, _ => rfl
      | some v, some w, .some h => simp [wrap, (hR.iff.1 h).isCompound, hR.printWith_eq _ h]

/-- The texts of two values are the same, also where references are followed. -/
theorem ByForm.print_eq (hR : ByForm R C) {cells cells' : Array Value}
    (hsize : cells.size = cells'.size) (hcells : ∀ i : Nat, Option.Rel R cells[i]? cells'[i]?)
    (h : R v w) : v.print cells = w.print cells' := by
  have hcell : printCell cells cells.size = printCell cells' cells'.size := by
    rw [hsize]
    exact funext (hR.printCell_eq hcells _)
  rw [print, print, hcell, hR.printWith_eq _ h]

/-! ### Comparisons -/

mutual

theorem ByForm.equal?_eq (hR : ByForm R C) {v w v' w' : Value} (h : R v w) (h' : R v' w') :
    v.equal? v' = w.equal? w' := by
  match v, w, hR.iff.1 h with
  | _, _, .unit | _, _, .bool _ | _, _, .int _ | _, _, .string _ | _, _, .ref _
  | _, _, .closure _ | _, _, .primitive _ _ =>
      cases hR.iff.1 h' <;> simp [equal?, Value.isFunction]
  | .list vs, .list ws, .list h =>
      cases hR.iff.1 h' with
      | list hvs' =>
          rw [equal?_list, equal?_list, h.length_eq, hvs'.length_eq, hR.allEqual?_eq h hvs']
      | _ => simp [equal?, Value.isFunction]
  | .tuple vs, .tuple ws, .tuple h =>
      cases hR.iff.1 h' with
      | tuple hvs' =>
          rw [equal?_tuple, equal?_tuple, h.length_eq, hvs'.length_eq, hR.allEqual?_eq h hvs']
      | _ => simp [equal?, Value.isFunction]
  | .record fs, .record gs, .record h =>
      cases hR.iff.1 h' with
      | record hvs' =>
          rw [equal?_record, equal?_record, h.names_eq, hvs'.names_eq,
            hR.fieldsEqual?_eq h hvs']
      | _ => simp [equal?, Value.isFunction]
  | .construct _ vs, .construct _ ws, .construct c h =>
      cases hR.iff.1 h' with
      | construct d hvs' =>
          rw [equal?_construct, equal?_construct, h.length_eq, hvs'.length_eq,
            hR.allEqual?_eq h hvs']
      | _ => simp [equal?, Value.isFunction]

theorem ByForm.allEqual?_eq (hR : ByForm R C) {vs ws vs' ws' : List Value}
    (h : List.Forall₂ R vs ws) (h' : List.Forall₂ R vs' ws') :
    allEqual? vs vs' = allEqual? ws ws' := by
  match vs, ws, h, vs', ws', h' with
  | [], [], _, _, _, _ => simp [allEqual?]
  | _ :: _, _ :: _, _, [], [], _ => simp [allEqual?]
  | v :: vs, w :: ws, .cons h hs, v' :: vs', w' :: ws', .cons h' hs' =>
      rw [allEqual?, allEqual?, hR.equal?_eq h h', hR.allEqual?_eq hs hs']

theorem ByForm.fieldsEqual?_eq (hR : ByForm R C) {fs gs fs' gs' : List (String × Value)}
    (h : Fields.Related R fs gs) (h' : Fields.Related R fs' gs') :
    fieldsEqual? fs fs' = fieldsEqual? gs gs' := by
  match fs, gs, h, fs', gs', h' with
  | [], [], _, _, _, _ => simp [fieldsEqual?]
  | _ :: _, _ :: _, _, [], [], _ => simp [fieldsEqual?]
  | (_, v) :: fs, (_, w) :: gs, .cons h hs, (_, v') :: fs', (_, w') :: gs', .cons h' hs' =>
      rw [fieldsEqual?, fieldsEqual?, hR.equal?_eq h.2 h'.2, hR.fieldsEqual?_eq hs hs']

end

end Value

namespace CorePattern

open Value

mutual

/-- A pattern accepts both values or neither, and binds its names to related parts of them. -/
theorem rel_bindings? (hR : ByForm R C) (p : CorePattern) {v w : Value} (h : R v w)
    {bound bound' : List (String × Value)} (hbound : Fields.Related R bound bound') :
    Option.Rel (Fields.Related R) (p.bindings? v bound) (p.bindings? w bound') := by
  match p with
  | .wildcard => exact .some hbound
  | .var x => exact .some (.cons ⟨rfl, h⟩ hbound)
  | .literal l =>
      have hmatches : l.matchesValue v = l.matchesValue w := by
        cases l <;> cases hR.iff.1 h <;> rfl
      rw [bindings?, bindings?, hmatches]
      split
      · exact .some hbound
      · exact .none
  | .tuple ps =>
      cases hR.iff.1 h with
      | tuple hvs =>
          rw [bindings?, bindings?, hvs.length_eq]
          split
          · exact rel_allBindings? hR ps hvs hbound
          · exact .none
      | _ => exact .none
  | .nil =>
      cases hR.iff.1 h with
      | list hvs =>
          cases hvs with
          | nil => exact .some hbound
          | cons _ _ => exact .none
      | _ => exact .none
  | .cons p q =>
      cases hR.iff.1 h with
      | list hvs =>
          cases hvs with
          | nil => exact .none
          | cons hv hvs =>
              refine rel_bind (rel_bindings? hR p hv hbound) fun _ _ hbound => ?_
              exact rel_bindings? hR q (hR.iff.2 (.list hvs)) hbound
      | _ => exact .none
  | .construct c ps =>
      cases hR.iff.1 h with
      | construct d hvs =>
          rw [bindings?, bindings?, hvs.length_eq]
          split
          · exact rel_allBindings? hR ps hvs hbound
          · exact .none
      | _ => exact .none
  | .alias p x =>
      exact rel_bind (rel_bindings? hR p h hbound) fun _ _ hbound => .some (.cons ⟨rfl, h⟩ hbound)

theorem rel_allBindings? (hR : ByForm R C) (ps : List CorePattern) {vs ws : List Value}
    (h : List.Forall₂ R vs ws) {bound bound' : List (String × Value)}
    (hbound : Fields.Related R bound bound') :
    Option.Rel (Fields.Related R) (allBindings? ps vs bound) (allBindings? ps ws bound') := by
  match ps, vs, ws, h with
  | [], _, _, _ =>
      rw [allBindings?, allBindings?]
      exact .some hbound
  | _ :: _, [], [], _ => exact .some hbound
  | p :: ps, v :: vs, w :: ws, .cons hv hvs =>
      exact rel_bind (rel_bindings? hR p hv hbound) fun _ _ hbound => rel_allBindings? hR ps hvs hbound

end

end CorePattern

end FieldML
