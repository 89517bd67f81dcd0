import FieldML.Source.Range
import FieldML.Syntax
import Mathlib.Order.Basic

/-!
# Trees in a text

A property holds of all ranges of a tree. A tree lies between two positions if all of its ranges point
into the text and its own range lies between them.
-/

/-! ## Positions of a text

The positions of a text are those of its characters and the one after the last. A range points into
the text if it starts at one of them and does not end before it starts. -/

namespace FieldML

namespace Position

/-- Positions as they are met in reading. -/
protected def Before (p q : Position) : Prop :=
  p.line < q.line ∨ p.line = q.line ∧ p.column ≤ q.column

instance : Preorder Position where
  le := Position.Before
  le_refl p := Or.inr ⟨rfl, Nat.le_refl _⟩
  le_trans p q r := by
    unfold Position.Before
    omega

theorem le_iff {p q : Position} :
    p ≤ q ↔ p.line < q.line ∨ p.line = q.line ∧ p.column ≤ q.column := Iff.rfl

theorem le_right (p : Position) (n : Nat) : p ≤ ⟨p.line, p.column + n⟩ :=
  Or.inr ⟨rfl, Nat.le_add_right _ _⟩

theorem le_next (p : Position) (c : Char) : p ≤ p.next c := by
  unfold next
  split
  · exact Or.inl (Nat.lt_succ_self _)
  · exact p.le_right 1

theorem le_advance (p : Position) (cs : List Char) : p ≤ p.advance cs := by
  induction cs generalizing p with
  | nil => exact le_refl p
  | cons c cs ih => exact (p.le_next c).trans (ih _)

/-- The position of a character of the text, or of its end. -/
def IsIn (text : List Char) (p : Position) : Prop :=
  ∃ before after, text = before ++ after ∧ p = start.advance before

theorem IsIn.line_pos {text : List Char} {p : Position} (h : p.IsIn text) : 0 < p.line := by
  obtain ⟨before, after, -, rfl⟩ := h
  have hle := le_iff.1 (le_advance start before)
  have hstart : start.line = 1 := rfl
  omega

end Position

namespace Range

variable {P : Position → Prop} {lo mid hi lo' hi' : Position} {r q : Range}

/-- The range starts at a position with the property, and does not end before that. -/
def Points (P : Position → Prop) (r : Range) : Prop := ∃ a b, r = source a b ∧ P a ∧ a ≤ b

/-- The range lies between two positions, too. -/
def Lies (P : Position → Prop) (lo hi : Position) (r : Range) : Prop :=
  ∃ a b, r = source a b ∧ P a ∧ lo ≤ a ∧ a ≤ b ∧ b ≤ hi

theorem Lies.points (h : r.Lies P lo hi) : r.Points P := by
  obtain ⟨a, b, rfl, ha, -, hab, -⟩ := h
  exact ⟨a, b, rfl, ha, hab⟩

theorem Lies.le (h : r.Lies P lo hi) : lo ≤ hi := by
  obtain ⟨a, b, -, -, ha, hab, hb⟩ := h
  exact ha.trans (hab.trans hb)

theorem Lies.mono (h : r.Lies P lo hi) (hlo : lo' ≤ lo) (hhi : hi ≤ hi') : r.Lies P lo' hi' := by
  obtain ⟨a, b, rfl, hp, ha, hab, hb⟩ := h
  exact ⟨a, b, rfl, hp, hlo.trans ha, hab, hb.trans hhi⟩

/-- A range from one place to a later one. -/
theorem Lies.merge (hr : r.Lies P lo mid) (hq : q.Lies P mid hi) :
    (r.merge q).Lies P lo hi := by
  obtain ⟨a, b, rfl, hp, ha, hab, hb⟩ := hr
  obtain ⟨c, d, rfl, -, hc, hcd, hd⟩ := hq
  exact ⟨a, d, rfl, hp, ha, hab.trans (hb.trans (hc.trans hcd)), hd⟩

theorem Lies.merge_end (hr : r.Lies P lo hi) {a : Position} :
    (r.merge (source a hi)).Lies P lo hi := by
  obtain ⟨b, c, rfl, hp, hb, hbc, hc⟩ := hr
  exact ⟨b, hi, rfl, hp, hb, hbc.trans hc, le_refl _⟩

/-- The range lies between two positions and does not end before a third one. -/
def Crosses (P : Position → Prop) (lo mid hi : Position) (r : Range) : Prop :=
  ∃ a b, r = source a b ∧ P a ∧ lo ≤ a ∧ a ≤ b ∧ mid ≤ b ∧ b ≤ hi

theorem Crosses.lies (h : r.Crosses P lo mid hi) : r.Lies P lo hi := by
  obtain ⟨a, b, rfl, hp, ha, hab, -, hb⟩ := h
  exact ⟨a, b, rfl, hp, ha, hab, hb⟩

theorem Lies.crosses (h : r.Lies P mid hi) (hle : lo ≤ mid) : r.Crosses P lo mid hi := by
  obtain ⟨a, b, rfl, hp, ha, hab, hb⟩ := h
  exact ⟨a, b, rfl, hp, hle.trans ha, hab, ha.trans hab, hb⟩

theorem Crosses.mono (h : r.Crosses P lo mid hi) (hhi : hi ≤ hi') : r.Crosses P lo mid hi' := by
  obtain ⟨a, b, rfl, hp, ha, hab, hmid, hb⟩ := h
  exact ⟨a, b, rfl, hp, ha, hab, hmid, hb.trans hhi⟩

/-- The earlier places may overlap, as long as none of them ends after the third position. -/
theorem Lies.merge_crosses (hr : r.Lies P lo mid) (hq : q.Crosses P lo mid hi) :
    (r.merge q).Crosses P lo mid hi := by
  obtain ⟨a, b, rfl, hp, ha, hab, hb⟩ := hr
  obtain ⟨c, d, rfl, -, -, -, hmid, hd⟩ := hq
  exact ⟨a, d, rfl, hp, ha, hab.trans (hb.trans hmid), hmid, hd⟩

theorem Points.isInvalid {text : List Char} (h : r.Points (Position.IsIn text)) :
    r.isInvalid = false := by
  obtain ⟨a, b, rfl, ha, -⟩ := h
  have hline := ha.line_pos
  have hne : a.line ≠ 0 := by omega
  simpa [isInvalid] using hne

end Range

end FieldML

/-! ## Where the nodes of a tree are

What holds of all ranges of a tree holds of those of its parts. -/

namespace FieldML

mutual

def TypeExpr.All (R : Range → Prop) : TypeExpr → Prop
  | .var name => R name.range
  | .named args name range => AllList R args ∧ R name.range ∧ R range
  | .func param result range => param.All R ∧ result.All R ∧ R range
  | .product items range => AllList R items ∧ R range
  | .record fields range => AllFields R fields ∧ R range

def TypeExpr.AllList (R : Range → Prop) : List TypeExpr → Prop
  | [] => True
  | t :: ts => t.All R ∧ AllList R ts

def TypeExpr.AllFields (R : Range → Prop) : List (Ident × TypeExpr) → Prop
  | [] => True
  | (name, t) :: fields => R name.range ∧ t.All R ∧ AllFields R fields

end

mutual

def Pattern.All (R : Range → Prop) : Pattern → Prop
  | .wildcard range | .literal _ range | .nil range => R range
  | .var name => R name.range
  | .tuple items range => AllList R items ∧ R range
  | .cons head tail range => head.All R ∧ tail.All R ∧ R range
  | .construct ctor arg range => R ctor.range ∧ AllArg R arg ∧ R range
  | .alias pattern name range => pattern.All R ∧ R name.range ∧ R range

def Pattern.AllList (R : Range → Prop) : List Pattern → Prop
  | [] => True
  | p :: ps => p.All R ∧ AllList R ps

def Pattern.AllArg (R : Range → Prop) : Option Pattern → Prop
  | none => True
  | some p => p.All R

end

mutual

def Expr.All (R : Range → Prop) : Expr → Prop
  | .literal _ range => R range
  | .var name => R name.range
  | .lambda param body range => R param.range ∧ body.All R ∧ R range
  | .apply func arg range => func.All R ∧ arg.All R ∧ R range
  | .letIn name value body range => R name.range ∧ value.All R ∧ body.All R ∧ R range
  | .letRec bindings body range => AllBindings R bindings ∧ body.All R ∧ R range
  | .ifElse cond yes no range => cond.All R ∧ yes.All R ∧ no.All R ∧ R range
  | .list items range | .tuple items range => AllList R items ∧ R range
  | .record fields range => AllFields R fields ∧ R range
  | .field base name range => base.All R ∧ R name.range ∧ R range
  | .update base fields range => base.All R ∧ AllFields R fields ∧ R range
  | .construct ctor arg range => R ctor.range ∧ AllArg R arg ∧ R range
  | .caseOf scrutinee arms range => scrutinee.All R ∧ AllArms R arms ∧ R range
  | .ref value range | .deref value range => value.All R ∧ R range
  | .assign target value range => target.All R ∧ value.All R ∧ R range
  | .sequence first second range => first.All R ∧ second.All R ∧ R range
  | .annot body type range => body.All R ∧ type.All R ∧ R range

def Expr.AllList (R : Range → Prop) : List Expr → Prop
  | [] => True
  | e :: es => e.All R ∧ AllList R es

def Expr.AllFields (R : Range → Prop) : List (Ident × Expr) → Prop
  | [] => True
  | (name, e) :: fields => R name.range ∧ e.All R ∧ AllFields R fields

def Expr.AllBindings (R : Range → Prop) : List (RecBinding Expr) → Prop
  | [] => True
  | ⟨name, e, range⟩ :: bindings => R name.range ∧ e.All R ∧ R range ∧ AllBindings R bindings

def Expr.AllArg (R : Range → Prop) : Option Expr → Prop
  | none => True
  | some e => e.All R

def Expr.AllArms (R : Range → Prop) : List (MatchArm Expr) → Prop
  | [] => True
  | ⟨p, e, range⟩ :: arms => p.All R ∧ e.All R ∧ R range ∧ AllArms R arms

end

def CtorDecl.All (R : Range → Prop) (ctor : CtorDecl) : Prop :=
  R ctor.name.range ∧ (∀ t ∈ ctor.args, t.All R) ∧ R ctor.range

def TypeDecl.All (R : Range → Prop) : TypeDecl → Prop
  | .variant params name ctors range =>
      (∀ p ∈ params, R p.range) ∧ R name.range ∧ (∀ c ∈ ctors, c.All R) ∧ R range
  | .synonym params name body range =>
      (∀ p ∈ params, R p.range) ∧ R name.range ∧ body.All R ∧ R range

def Program.All (R : Range → Prop) (p : Program) : Prop :=
  (∀ group ∈ p.groups, ∀ decl ∈ group, decl.All R) ∧ p.body.All R

section

variable {R : Range → Prop}

theorem TypeExpr.allList_iff {ts : List TypeExpr} : AllList R ts ↔ ∀ t ∈ ts, t.All R := by
  induction ts with
  | nil => simp [AllList]
  | cons t ts ih => rw [AllList, ih, List.forall_mem_cons]

theorem TypeExpr.allFields_iff {fields : List (Ident × TypeExpr)} :
    AllFields R fields ↔ ∀ f ∈ fields, R f.1.range ∧ f.2.All R := by
  induction fields with
  | nil => simp [AllFields]
  | cons field fields ih => rw [AllFields, ih, List.forall_mem_cons, and_assoc]

theorem Pattern.allList_iff {ps : List Pattern} : AllList R ps ↔ ∀ p ∈ ps, p.All R := by
  induction ps with
  | nil => simp [AllList]
  | cons p ps ih => rw [AllList, ih, List.forall_mem_cons]

theorem Expr.allList_iff {es : List Expr} : AllList R es ↔ ∀ e ∈ es, e.All R := by
  induction es with
  | nil => simp [AllList]
  | cons e es ih => rw [AllList, ih, List.forall_mem_cons]

theorem Expr.allFields_iff {fields : List (Ident × Expr)} :
    AllFields R fields ↔ ∀ f ∈ fields, R f.1.range ∧ f.2.All R := by
  induction fields with
  | nil => simp [AllFields]
  | cons field fields ih => rw [AllFields, ih, List.forall_mem_cons, and_assoc]

theorem Expr.allBindings_iff {bindings : List (RecBinding Expr)} :
    AllBindings R bindings ↔ ∀ b ∈ bindings, R b.name.range ∧ b.value.All R ∧ R b.range := by
  induction bindings with
  | nil => simp [AllBindings]
  | cons b bindings ih => rw [AllBindings, ih, List.forall_mem_cons, and_assoc, and_assoc]

theorem Expr.allArms_iff {arms : List (MatchArm Expr)} :
    AllArms R arms ↔ ∀ arm ∈ arms, arm.pattern.All R ∧ arm.body.All R ∧ R arm.range := by
  induction arms with
  | nil => simp [AllArms]
  | cons arm arms ih => rw [AllArms, ih, List.forall_mem_cons, and_assoc, and_assoc]

theorem TypeExpr.All.range {t : TypeExpr} (h : t.All R) : R t.range := by
  cases t with
  | var => exact h
  | named | func => exact h.2.2
  | product | record => exact h.2

theorem Pattern.All.range {p : Pattern} (h : p.All R) : R p.range := by
  match p with
  | .wildcard _ | .literal _ _ | .nil _ | .var _ => exact h
  | .tuple _ _ => exact h.2
  | .cons _ _ _ | .construct _ _ _ | .alias _ _ _ => exact h.2.2

theorem Expr.All.range {e : Expr} (h : e.All R) : R e.range := by
  cases e with
  | literal | var => exact h
  | list | tuple | record | ref | deref => exact h.2
  | letIn | ifElse => exact h.2.2.2
  | lambda | apply | letRec | field | update | construct | caseOf | assign | sequence | annot =>
      exact h.2.2

end

def TypeDecl.range : TypeDecl → Range
  | .variant _ _ _ range | .synonym _ _ _ range => range

/-! ### Trees between two positions -/

/-- What has a range of its own, and other ranges inside. -/
class Tree (α : Type) where
  All : (Range → Prop) → α → Prop
  range : α → Range

namespace Tree

instance : Tree Ident := ⟨fun R name => R name.range, Ident.range⟩

instance : Tree TypeExpr := ⟨TypeExpr.All, TypeExpr.range⟩

instance : Tree Pattern := ⟨Pattern.All, Pattern.range⟩

instance : Tree Expr := ⟨Expr.All, Expr.range⟩

instance : Tree (RecBinding Expr) :=
  ⟨fun R b => R b.name.range ∧ b.value.All R ∧ R b.range, RecBinding.range⟩

instance : Tree (MatchArm Expr) :=
  ⟨fun R arm => arm.pattern.All R ∧ arm.body.All R ∧ R arm.range, MatchArm.range⟩

/-- A field with what it is given. -/
instance {α : Type} [Tree α] : Tree (Ident × α) :=
  ⟨fun R field => R field.1.range ∧ All R field.2, fun field => field.1.range.merge (range field.2)⟩

instance : Tree CtorDecl := ⟨CtorDecl.All, CtorDecl.range⟩

instance : Tree TypeDecl := ⟨TypeDecl.All, TypeDecl.range⟩

variable {α : Type} [Tree α] {P : Position → Prop} {lo hi lo' hi' : Position} {a : α}

/-- All ranges point into the text, and the range of the tree lies between two positions. -/
structure Lies (P : Position → Prop) (lo hi : Position) (a : α) : Prop where
  all : All (Range.Points P) a
  range : (range a).Lies P lo hi

theorem Lies.mono (h : Lies P lo hi a) (hlo : lo' ≤ lo) (hhi : hi ≤ hi') : Lies P lo' hi' a :=
  ⟨h.all, h.range.mono hlo hhi⟩

end Tree

end FieldML
