import FieldML.Proofs.Data.Basic
import FieldML.Proofs.Eval.Limits

/-!
# Data evaluates to itself

The elaborated form of data has nothing to compute. It is evaluated to the data on as many levels as
that is high, and the machine stays as it was.
-/

namespace FieldML

namespace Eval

variable {α β γ : Type} {p : Eval α} {k : α → Eval β} {a : α} {b : β}

/-- If the steps are not limited, the evaluation has this outcome and changes nothing. -/
def Yields (p : Eval α) (a : α) : Prop := ∀ m : Machine, m.fuel = none → p m = (.ok a, m)

theorem yields_pure (a : α) : Yields (pure a) a := fun _ _ => rfl

theorem Yields.bind (hp : Yields p a) (hk : Yields (k a) b) : Yields (p >>= k) b := by
  intro m hm
  rw [bind_run, hp m hm]
  exact hk m hm

theorem yields_spend : Yields spend () := by
  intro m hm
  have hspend := spend_none m
  rwa [← hm, Machine.withFuel_fuel] at hspend

end Eval

open Eval

namespace Value

variable {env : VariantEnv} {τ : GroundTy} {v : Value} {vs : List Value} {fs : List (String × Value)}

/-- What holds of a value without functions and references as soon as it holds of its parts. -/
structure Hereditary (P : Value → Prop) : Prop where
  unit : P .unit
  bool : ∀ b, P (.bool b)
  int : ∀ n, P (.int n)
  string : ∀ s, P (.string s)
  list : ∀ items, (∀ v ∈ items, P v) → P (.list items)
  tuple : ∀ items, (∀ v ∈ items, P v) → P (.tuple items)
  record : ∀ fields, Fields.Sorted fields → (∀ f ∈ fields, P f.2) → P (.record fields)
  construct : ∀ name args, (∀ v ∈ args, P v) → P (.construct name args)

theorem forall_of_forall_zip {α β : Type} {P : α → Prop} {as : List α} {bs : List β}
    (hlength : as.length = bs.length) (h : ∀ p ∈ as.zip bs, P p.1) : ∀ a ∈ as, P a := by
  have hfst : (as.zip bs).map Prod.fst = as := List.map_fst_zip hlength.le
  intro a ha
  rw [← hfst] at ha
  obtain ⟨p, hp, rfl⟩ := List.mem_map.1 ha
  exact h p hp

theorem IsData.of_hereditary {P : Value → Prop} (h : v.IsData env τ) (hP : Hereditary P) : P v := by
  induction h with
  | unit => exact hP.unit
  | bool b => exact hP.bool b
  | int n => exact hP.int n
  | string s => exact hP.string s
  | list _ ih => exact hP.list _ ih
  | tuple hlength _ ih => exact hP.tuple _ (forall_of_forall_zip hlength ih)
  | record hsorted hnames _ ih =>
      have hlength := congrArg List.length hnames
      rw [Fields.names, Fields.names, List.length_map, List.length_map] at hlength
      exact hP.record _ hsorted (forall_of_forall_zip hlength ih)
  | construct _ _ harity _ ih => exact hP.construct _ _ (forall_of_forall_zip harity ih)

/-! ### Evaluation -/

section Levels

variable [Text.Segmentation] {limit left : Nat} {scope : Scope}

/-- On one level more than its parts need, an expression is evaluated if its parts are. -/
theorem yields_atLevel {e : Core} {height : Nat} (hleft : height + 1 ≤ left)
    (h : ∀ below, height ≤ below → Yields (node (atLevel limit below) scope e) v) :
    Yields (atLevel limit left scope e) v := by
  obtain ⟨below, rfl⟩ := Nat.exists_eq_add_of_le' (Nat.le_of_add_left_le hleft)
  have hrun : atLevel limit (below + 1) scope e =
      (spend >>= fun _ => node (atLevel limit below) scope e) := by
    rw [atLevel]
    simp only [onLevel_eq]
  rw [hrun]
  exact yields_spend.bind (h below (Nat.le_of_add_le_add_right hleft))

omit [Text.Segmentation] in
theorem yields_cores (ev : Core → Eval Value) (h : ∀ v ∈ vs, Yields (ev v.core) v) :
    Yields ((cores vs).mapM ev) vs := by
  induction vs with
  | nil => exact yields_pure []
  | cons v vs ih =>
      obtain ⟨hv, hvs⟩ := List.forall_mem_cons.1 h
      rw [cores, List.mapM_cons]
      exact hv.bind ((ih hvs).bind (yields_pure _))

omit [Text.Segmentation] in
/-- Sorted fields are added one after the other at the end. -/
theorem yields_fieldCores (ev : Evaluator) (before : List (String × Value))
    (hsorted : Fields.Sorted (before ++ fs)) (h : ∀ f ∈ fs, Yields (ev scope f.2.core) f.2) :
    Yields (fields ev scope before (fieldCores fs)) (before ++ fs) := by
  induction fs generalizing before with
  | nil =>
      rw [List.append_nil]
      exact yields_pure before
  | cons f fs ih =>
      obtain ⟨name, v⟩ := f
      obtain ⟨hv, hfs⟩ := List.forall_mem_cons.1 h
      have hnames : ∀ n ∈ Fields.names before, n < name := by
        unfold Fields.Sorted Fields.names at hsorted
        rw [List.map_append, List.pairwise_append] at hsorted
        exact fun n hn => hsorted.2.2 n hn name List.mem_cons_self
      have hrest := ih (before ++ [(name, v)]) (by rwa [List.append_assoc]) hfs
      rw [List.append_assoc] at hrest
      rw [fieldCores, fields, List.foldlM_cons]
      have hinsert : Yields (do return Fields.insert name (← ev scope v.core) before)
          (before ++ [(name, v)]) :=
        hv.bind (Fields.insert_of_forall_lt v hnames ▸ yields_pure _)
      exact hinsert.bind hrest

/-- What is evaluated to itself on as many levels as it is high. -/
def Settles (limit : Nat) (v : Value) : Prop :=
  ∀ left scope, v.height ≤ left → Yields (atLevel limit left scope v.core) v

theorem yields_parts (ih : ∀ v ∈ vs, v.Settles limit) (hleft : heightOfList vs ≤ left) :
    Yields ((cores vs).mapM (atLevel limit left scope)) vs :=
  yields_cores _ fun v hv => ih v hv left scope ((height_le_heightOfList hv).trans hleft)

theorem hereditary_settles (limit : Nat) : Hereditary (Settles limit) where
  unit _ _ hleft := yields_atLevel hleft fun _ _ => yields_pure _
  bool _ _ _ hleft := yields_atLevel hleft fun _ _ => yields_pure _
  int _ _ _ hleft := yields_atLevel hleft fun _ _ => yields_pure _
  string _ _ _ hleft := yields_atLevel hleft fun _ _ => yields_pure _
  list _ ih _ _ hleft := yields_atLevel hleft fun _ hbelow =>
    (yields_parts ih hbelow).bind (yields_pure _)
  tuple _ ih _ _ hleft := yields_atLevel hleft fun _ hbelow =>
    (yields_parts ih hbelow).bind (yields_pure _)
  record _ hsorted ih _ scope hleft := yields_atLevel hleft fun below hbelow =>
    (yields_fieldCores _ [] hsorted fun f hf => ih f hf below scope
      ((height_le_heightOfFields hf).trans hbelow)).bind (yields_pure _)
  construct _ _ ih _ _ hleft := yields_atLevel hleft fun _ hbelow =>
    (yields_parts ih hbelow).bind (yields_pure _)

end Levels

/-- Data is evaluated to itself. -/
theorem IsData.evaluate [Text.Segmentation] (h : v.IsData env τ) (m : Machine) {limits : EvalLimits}
    (hfuel : limits.fuel = none) (hdepth : v.height ≤ limits.depth) (scope : Scope) :
    m.evaluate limits scope v.core = (.ok v, m.withFuel none) := by
  rw [Machine.evaluate_eq, hfuel]
  exact h.of_hereditary (hereditary_settles _) limits.depth scope hdepth _ (Machine.fuel_withFuel ..)

/-! ### Comparison -/

theorem allEqual?_self (h : ∀ v ∈ vs, v.equal? v = some true) : allEqual? vs vs = some true := by
  induction vs with
  | nil => rfl
  | cons v vs ih =>
      obtain ⟨hv, hvs⟩ := List.forall_mem_cons.1 h
      rw [allEqual?, hv]
      exact ih hvs

theorem fieldsEqual?_self (h : ∀ f ∈ fs, f.2.equal? f.2 = some true) :
    fieldsEqual? fs fs = some true := by
  induction fs with
  | nil => rfl
  | cons f fs ih =>
      obtain ⟨hf, hfs⟩ := List.forall_mem_cons.1 h
      rw [fieldsEqual?, hf]
      exact ih hfs

theorem hereditary_equal? : Hereditary fun v => v.equal? v = some true where
  unit := by simp [equal?, isFunction]
  bool _ := by simp [equal?, isFunction]
  int _ := by simp [equal?, isFunction]
  string _ := by simp [equal?, isFunction]
  list _ ih := by simp [equal?, isFunction, allEqual?_self ih]
  tuple _ ih := by simp [equal?, isFunction, allEqual?_self ih]
  record _ _ ih := by simp [equal?, isFunction, fieldsEqual?_self ih]
  construct _ _ ih := by simp [equal?, isFunction, allEqual?_self ih]

/-- Data is the same as itself. -/
theorem IsData.equal?_self (h : v.IsData env τ) : v.equal? v = some true :=
  h.of_hereditary hereditary_equal?

/-! ### Types in the elaborated form -/

variable (f : Ty → Ty)

theorem mapTypes_cores (h : ∀ v ∈ vs, v.core.mapTypes f = v.core) :
    Core.mapTypesList f (cores vs) = cores vs := by
  induction vs with
  | nil => rfl
  | cons v vs ih =>
      obtain ⟨hv, hvs⟩ := List.forall_mem_cons.1 h
      rw [cores, Core.mapTypesList, hv, ih hvs]

theorem mapTypes_fieldCores (h : ∀ e ∈ fs, e.2.core.mapTypes f = e.2.core) :
    Core.mapTypesFields f (fieldCores fs) = fieldCores fs := by
  induction fs with
  | nil => rfl
  | cons e fs ih =>
      obtain ⟨he, hfs⟩ := List.forall_mem_cons.1 h
      rw [fieldCores, Core.mapTypesFields, he, ih hfs]

theorem hereditary_mapTypes : Hereditary fun v => v.core.mapTypes f = v.core where
  unit := rfl
  bool _ := rfl
  int _ := rfl
  string _ := rfl
  list _ ih := congrArg Core.list (mapTypes_cores f ih)
  tuple _ ih := congrArg Core.tuple (mapTypes_cores f ih)
  record _ _ ih := congrArg Core.record (mapTypes_fieldCores f ih)
  construct name _ ih := congrArg (Core.construct name) (mapTypes_cores f ih)

/-- There are no types in the elaborated form of data. -/
theorem IsData.mapTypes_core (h : v.IsData env τ) : v.core.mapTypes f = v.core :=
  h.of_hereditary (hereditary_mapTypes f)

end Value

end FieldML
