import FieldML.Coverage
import FieldML.Eval
import FieldML.Proofs.Bare
import Mathlib.Data.List.Forall2

/-!
# Values of a type

Which values a type has, and which values a case accepts. A value has at most one head, so two cases
with different heads have no value in common. Matching accepts a value exactly if the case of the
pattern does.
-/

namespace FieldML

/-- The types of the constructor's arguments, in bare form, where its variant has these type
arguments. -/
def Constructor.partTypes (c : Constructor) (args : List Ty) : List Ty :=
  c.args.map fun t =>
    t.bare.mapVars (fun _ v r => ((c.params.zip args).lookup v).getD (.var v r)) []

/-- No pattern looks into the values of the type. -/
def Ty.IsOpaque : Ty → Prop
  | .func _ _ _ | .ref _ _ | .record _ _ | .var _ _ => True
  | _ => False

/-- The values of a bare type, given those of the opaque types. -/
inductive Value.HasType (env : VariantEnv) (Held : Ty → Value → Prop) : Ty → Value → Prop
  | unit (r : Range) : HasType env Held (.base .unit r) .unit
  | bool (b : Bool) (r : Range) : HasType env Held (.base .bool r) (.bool b)
  | int (n : Int64) (r : Range) : HasType env Held (.base .int r) (.int n)
  | string (s : String) (r : Range) : HasType env Held (.base .string r) (.string s)
  | list {t : Ty} {vs : List Value} (r : Range) (hvs : ∀ v ∈ vs, HasType env Held t v) :
      HasType env Held (.list t r) (.list vs)
  | tuple {ts : List Ty} {vs : List Value} (r : Range)
      (hvs : List.Forall₂ (HasType env Held) ts vs) : HasType env Held (.product ts r) (.tuple vs)
  | construct {name variant : String} {c : Constructor} {args : List Ty} {vs : List Value}
      (r : Range) (hc : env.constructor? name = some c) (hvariant : c.variant = variant)
      (hvs : List.Forall₂ (HasType env Held) (c.partTypes args) vs) :
      HasType env Held (.variant variant args r) (.construct name vs)
  | held {t : Ty} {v : Value} (ht : t.IsOpaque) (hv : Held t v) : HasType env Held t v

/-- The head of a value and its parts, if a pattern can look into it. -/
def Value.open? : Value → Option (Head × List Value)
  | .unit => some (.unit, [])
  | .bool b => some (.bool b, [])
  | .int n => some (.int n, [])
  | .string s => some (.string s, [])
  | .list [] => some (.nil, [])
  | .list (v :: vs) => some (.cons, [v, .list vs])
  | .tuple vs => some (.tuple vs.length, vs)
  | .construct c vs => some (.ctor c, vs)
  | .record _ | .closure _ _ _ | .primitive _ _ | .ref _ => none

/-- The value is in the set that the case stands for. -/
inductive Case.Accepts : Case → Value → Prop
  | any (v : Value) : Accepts .any v
  | of {h : Head} {cs : List Case} {v : Value} {ws : List Value} (hv : v.open? = some (h, ws))
      (hws : List.Forall₂ Accepts cs ws) : Accepts (.of h cs) v

namespace Case

variable {h : Head} {cs : List Case} {v : Value} {vs ws : List Value}

theorem accepts_of : Accepts (.of h cs) v ↔
    ∃ ws, v.open? = some (h, ws) ∧ List.Forall₂ Accepts cs ws := by
  constructor
  · rintro (_ | ⟨hv, hws⟩)
    exact ⟨_, hv, hws⟩
  · rintro ⟨ws, hv, hws⟩
    exact .of hv hws

theorem accepts_of_open (hv : v.open? = some (h, ws)) :
    Accepts (.of h cs) v ↔ List.Forall₂ Accepts cs ws := by
  simp [accepts_of, hv]

theorem not_accepts_of_ne {h' : Head} (hv : v.open? = some (h, ws)) (hne : h' ≠ h) :
    ¬Accepts (.of h' cs) v := by
  rw [accepts_of, hv]
  rintro ⟨ws, heq, -⟩
  exact hne (Prod.mk.inj (Option.some.inj heq)).1.symm

theorem forall₂_replicate_any (vs : List Value) :
    List.Forall₂ Accepts (List.replicate vs.length .any) vs := by
  induction vs with
  | nil => exact .nil
  | cons v vs ih => exact .cons (.any v) ih

theorem ofPatterns_eq_map (ps : List CorePattern) : ofPatterns ps = ps.map ofPattern := by
  induction ps with
  | nil => rfl
  | cons p ps ih => simp [ofPatterns, ih]

theorem length_ofPatterns (ps : List CorePattern) : (ofPatterns ps).length = ps.length := by
  rw [ofPatterns_eq_map, List.length_map]

theorem accepts_literal (l : Literal) (v : Value) :
    Accepts (.of (headOfLiteral l) []) v ↔ l.matchesValue v = true := by
  have hopen : Accepts (.of (headOfLiteral l) []) v ↔ v.open? = some (headOfLiteral l, []) := by
    simp [accepts_of]
  rw [hopen]
  match v with
  | .list [] | .list (_ :: _) => cases l <;> simp [Value.open?, headOfLiteral, Literal.matchesValue]
  | .unit | .bool _ | .int _ | .string _ | .tuple _ | .record _ | .construct _ _
  | .closure _ _ _ | .primitive _ _ | .ref _ =>
      cases l <;> simp [Value.open?, headOfLiteral, Literal.matchesValue, eq_comm]

end Case

namespace CorePattern

mutual

/-- A pattern binds names on exactly the values that its case accepts. -/
theorem isSome_bindings? (p : CorePattern) (v : Value) (bound : List (String × Value)) :
    (p.bindings? v bound).isSome = true ↔ (Case.ofPattern p).Accepts v := by
  match p with
  | .wildcard | .var _ => simp [bindings?, Case.ofPattern, Case.Accepts.any]
  | .literal l =>
      rw [Case.ofPattern, Case.accepts_literal, bindings?]
      split <;> simp [*]
  | .alias p x =>
      rw [Case.ofPattern, ← isSome_bindings? p v bound, bindings?]
      cases p.bindings? v bound <;> simp
  | .nil =>
      match v with
      | .list [] | .list (_ :: _) | .unit | .bool _ | .int _ | .string _ | .tuple _ | .record _
      | .construct _ _ | .closure _ _ _ | .primitive _ _ | .ref _ =>
          simp [Case.ofPattern, Case.accepts_of, bindings?, Value.open?]
  | .cons p q =>
      match v with
      | .list (w :: ws) =>
          rw [Case.ofPattern, bindings?, Case.accepts_of_open (v := .list (w :: ws)) rfl,
            List.forall₂_cons, List.forall₂_cons, ← isSome_bindings? p w bound]
          cases hw : p.bindings? w bound with
          | none => simp
          | some bound' => simpa using isSome_bindings? q (.list ws) bound'
      | .list [] | .unit | .bool _ | .int _ | .string _ | .tuple _ | .record _
      | .construct _ _ | .closure _ _ _ | .primitive _ _ | .ref _ =>
          simp [Case.ofPattern, Case.accepts_of, bindings?, Value.open?]
  | .tuple ps =>
      match v with
      | .tuple vs =>
          rw [Case.ofPattern, bindings?]
          split
          · next hlength =>
              have hopen : (Value.tuple vs).open? = some (.tuple ps.length, vs) := by
                rw [Value.open?, hlength]
              rw [Case.accepts_of_open hopen]
              exact isSome_allBindings? ps vs bound hlength.symm
          · next hlength =>
              simpa using Case.not_accepts_of_ne (v := .tuple vs) rfl
                fun heq => hlength (Head.tuple.inj heq).symm
      | .list [] | .list (_ :: _) | .unit | .bool _ | .int _ | .string _ | .record _
      | .construct _ _ | .closure _ _ _ | .primitive _ _ | .ref _ =>
          simp [Case.ofPattern, Case.accepts_of, bindings?, Value.open?]
  | .construct c ps =>
      match v with
      | .construct d vs =>
          rw [Case.ofPattern, bindings?]
          split
          · next h =>
              obtain ⟨rfl, hlength⟩ := h
              rw [Case.accepts_of_open (v := .construct d vs) rfl]
              exact isSome_allBindings? ps vs bound hlength
          · next h =>
              simp only [Option.isSome_none, Bool.false_eq_true, false_iff, Case.accepts_of,
                Value.open?]
              rintro ⟨ws, heq, hws⟩
              simp only [Option.some.injEq, Prod.mk.injEq, Head.ctor.injEq] at heq
              obtain ⟨rfl, rfl⟩ := heq
              exact h ⟨rfl, by rw [← Case.length_ofPatterns]; exact hws.length_eq⟩
      | .list [] | .list (_ :: _) | .unit | .bool _ | .int _ | .string _ | .tuple _ | .record _
      | .closure _ _ _ | .primitive _ _ | .ref _ =>
          simp [Case.ofPattern, Case.accepts_of, bindings?, Value.open?]

theorem isSome_allBindings? (ps : List CorePattern) (vs : List Value)
    (bound : List (String × Value)) (hlength : ps.length = vs.length) :
    (allBindings? ps vs bound).isSome = true ↔
      List.Forall₂ Case.Accepts (Case.ofPatterns ps) vs := by
  match ps, vs with
  | [], [] => simp [allBindings?, Case.ofPatterns]
  | p :: ps, v :: vs =>
      rw [Case.ofPatterns, List.forall₂_cons, allBindings?, ← isSome_bindings? p v bound]
      cases p.bindings? v bound with
      | none => simp
      | some bound => simp [isSome_allBindings? ps vs bound (by simpa using hlength)]

end

end CorePattern

namespace Eval

variable {v : Value} {alternatives : List (CoreArm Core)}

/-- If an arm accepts the value, the first one that does is selected. -/
theorem arms_of_accepts (h : ∃ arm ∈ alternatives, (Case.ofPattern arm.pattern).Accepts v) :
    ∃ before arm bound rest, alternatives = before ++ arm :: rest ∧
      arm.pattern.bindings? v [] = some bound ∧
      ∀ ev scope i, arms ev scope v i alternatives = (do
        reportArm (i + before.length) v
        ev (← enter scope bound.reverse) arm.body) := by
  induction alternatives with
  | nil => simp at h
  | cons arm rest ih =>
      cases hbound : arm.pattern.bindings? v [] with
      | some bound => exact ⟨[], arm, bound, rest, rfl, hbound, fun ev scope i => by
          simp [arms, hbound]⟩
      | none =>
          have hnot : ¬(Case.ofPattern arm.pattern).Accepts v := by
            rw [← CorePattern.isSome_bindings? _ _ [], hbound]
            simp
          obtain ⟨before, selected, bound, rest, rfl, hselected, heval⟩ :=
            ih (by simpa [hnot] using h)
          refine ⟨arm :: before, selected, bound, rest, rfl, hselected, fun ev scope i => ?_⟩
          rw [arms, hbound]
          simpa [Nat.add_assoc, Nat.add_comm 1] using heval ev scope (i + 1)

/-- If no arm accepts the value, the match fails on it. -/
theorem arms_of_not_accepts
    (h : ∀ arm ∈ alternatives, ¬(Case.ofPattern arm.pattern).Accepts v) (ev : Evaluator)
    (scope : Scope) (i : Nat) :
    arms ev scope v i alternatives = failOn .noMatchingPattern v := by
  induction alternatives generalizing i with
  | nil => rfl
  | cons arm rest ih =>
      have hnone : arm.pattern.bindings? v [] = none := by
        have hnot := h arm List.mem_cons_self
        rw [← CorePattern.isSome_bindings? _ _ []] at hnot
        simpa using hnot
      rw [arms, hnone]
      exact ih (fun arm harm => h arm (List.mem_cons_of_mem _ harm)) (i + 1)

end Eval

end FieldML
