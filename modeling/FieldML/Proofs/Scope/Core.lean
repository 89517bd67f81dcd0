import FieldML.Check.Program
import FieldML.Eval.Match
import FieldML.Proofs.Fields

/-!
# Names in elaborated programs

An expression is scoped in some names if it uses no others, and if every value of a recursive group
in it is a function. Which names a pattern binds does not depend on the value it is tried on.
-/

namespace FieldML

namespace CorePattern

mutual

/-- The names that the pattern binds, in the order in which it binds them. -/
def binders : CorePattern → List String
  | .wildcard | .literal _ | .nil => []
  | .var x => [x]
  | .tuple ps => bindersOfList ps
  | .cons p q => p.binders ++ q.binders
  | .construct _ ps => bindersOfList ps
  | .alias p x => p.binders ++ [x]

def bindersOfList : List CorePattern → List String
  | [] => []
  | p :: ps => p.binders ++ bindersOfList ps

end

theorem bindersOfList_wildcards {α : Type} (as : List α) :
    bindersOfList (as.map fun _ => .wildcard) = [] := by
  induction as with
  | nil => rfl
  | cons a as ih => simpa [bindersOfList, binders] using ih

mutual

/-- Matching binds the names of the pattern, the latest first. -/
theorem names_bindings? (p : CorePattern) (v : Value) (bound bound' : List (String × Value))
    (h : p.bindings? v bound = some bound') :
    Fields.names bound' = p.binders.reverse ++ Fields.names bound := by
  match p with
  | .wildcard =>
      obtain rfl : bound = bound' := by simpa [bindings?] using h
      simp [binders]
  | .var x =>
      obtain rfl : (x, v) :: bound = bound' := by simpa [bindings?] using h
      simp [binders]
  | .literal l =>
      obtain ⟨-, rfl⟩ : l.matchesValue v = true ∧ bound = bound' := by
        simpa [bindings?] using h
      simp [binders]
  | .tuple ps =>
      match v with
      | .tuple vs =>
          obtain ⟨hlength, h⟩ : vs.length = ps.length ∧ allBindings? ps vs bound = some bound' := by
            simpa [bindings?] using h
          exact names_allBindings? ps vs bound bound' hlength.symm h
      | .unit | .bool _ | .int _ | .string _ | .list _ | .record _ | .construct _ _
      | .closure _ _ _ | .primitive _ _ | .ref _ => simp [bindings?] at h
  | .nil =>
      match v with
      | .list [] =>
          obtain rfl : bound = bound' := by simpa [bindings?] using h
          simp [binders]
      | .list (_ :: _) | .unit | .bool _ | .int _ | .string _ | .tuple _ | .record _
      | .construct _ _ | .closure _ _ _ | .primitive _ _ | .ref _ => simp [bindings?] at h
  | .cons p q =>
      match v with
      | .list (w :: ws) =>
          obtain ⟨bound₁, h₁, h₂⟩ : ∃ bound₁, p.bindings? w bound = some bound₁ ∧
              q.bindings? (.list ws) bound₁ = some bound' := by
            simpa [bindings?, Option.bind_eq_some_iff] using h
          rw [names_bindings? q _ bound₁ bound' h₂, names_bindings? p w bound bound₁ h₁]
          simp [binders]
      | .list [] | .unit | .bool _ | .int _ | .string _ | .tuple _ | .record _
      | .construct _ _ | .closure _ _ _ | .primitive _ _ | .ref _ => simp [bindings?] at h
  | .construct c ps =>
      match v with
      | .construct d vs =>
          obtain ⟨⟨-, hlength⟩, h⟩ : (d = c ∧ ps.length = vs.length) ∧
              allBindings? ps vs bound = some bound' := by
            simpa [bindings?] using h
          exact names_allBindings? ps vs bound bound' hlength h
      | .unit | .bool _ | .int _ | .string _ | .list _ | .tuple _ | .record _
      | .closure _ _ _ | .primitive _ _ | .ref _ => simp [bindings?] at h
  | .alias p x =>
      obtain ⟨bound₁, h₁, rfl⟩ : ∃ bound₁, p.bindings? v bound = some bound₁ ∧
          (x, v) :: bound₁ = bound' := by
        simpa [bindings?, Option.bind_eq_some_iff] using h
      rw [Fields.names_cons, names_bindings? p v bound bound₁ h₁]
      simp [binders]

theorem names_allBindings? (ps : List CorePattern) (vs : List Value)
    (bound bound' : List (String × Value)) (hlength : ps.length = vs.length)
    (h : allBindings? ps vs bound = some bound') :
    Fields.names bound' = (bindersOfList ps).reverse ++ Fields.names bound := by
  match ps, vs with
  | [], [] =>
      obtain rfl : bound = bound' := by simpa [allBindings?] using h
      simp [bindersOfList]
  | p :: ps, v :: vs =>
      obtain ⟨bound₁, h₁, h₂⟩ : ∃ bound₁, p.bindings? v bound = some bound₁ ∧
          allBindings? ps vs bound₁ = some bound' := by
        simpa [allBindings?, Option.bind_eq_some_iff] using h
      rw [names_allBindings? ps vs bound₁ bound' (by simpa using hlength) h₂,
        names_bindings? p v bound bound₁ h₁]
      simp [bindersOfList]

end

end CorePattern

namespace Core

/-- The expression is a function as it is written. -/
def IsLambda (e : Core) : Prop := ∃ x t body, e = .lambda x t body

instance : (e : Core) → Decidable e.IsLambda
  | .lambda x t body => isTrue ⟨x, t, body, rfl⟩
  | .literal _ | .var _ | .apply _ _ | .letIn _ _ _ _ | .letRec _ _ | .ifElse _ _ _ | .list _
  | .tuple _ | .record _ | .field _ _ | .update _ _ | .construct _ _ | .caseOf _ _ _ | .ref _
  | .deref _ | .assign _ _ | .sequence _ _ | .annot _ _ => isFalse (by rintro ⟨_, _, _, ⟨⟩⟩)

mutual

/-- The names that the expression refers to outside of itself. The names of a recursive group are
bound in all of its values; with `early`, only in those that are functions, since the values are
evaluated before the names have any. -/
def freeNames (early : Bool) : Core → List String
  | .literal _ => []
  | .var x => [x]
  | .lambda x _ e => (e.freeNames early).filter (· ≠ x)
  | .apply a b | .assign a b | .sequence a b => a.freeNames early ++ b.freeNames early
  | .letIn x _ a b => a.freeNames early ++ (b.freeNames early).filter (· ≠ x)
  | .letRec bindings e =>
      freeNamesOfBindings early (bindings.map (·.name)) bindings ++
        (e.freeNames early).filter (· ∉ bindings.map (·.name))
  | .ifElse a b c => a.freeNames early ++ b.freeNames early ++ c.freeNames early
  | .list es | .tuple es | .construct _ es => freeNamesOfList early es
  | .record fs => freeNamesOfFields early fs
  | .update e fs => e.freeNames early ++ freeNamesOfFields early fs
  | .field e _ | .ref e | .deref e | .annot e _ => e.freeNames early
  | .caseOf e _ arms => e.freeNames early ++ freeNamesOfArms early arms

def freeNamesOfList (early : Bool) : List Core → List String
  | [] => []
  | e :: es => e.freeNames early ++ freeNamesOfList early es

def freeNamesOfFields (early : Bool) : List (String × Core) → List String
  | [] => []
  | (_, e) :: fs => e.freeNames early ++ freeNamesOfFields early fs

def freeNamesOfBindings (early : Bool) (names : List String) :
    List (CoreBinding Core) → List String
  | [] => []
  | ⟨_, _, e⟩ :: bindings =>
      (if early ∧ ¬e.IsLambda then e.freeNames early
        else (e.freeNames early).filter (· ∉ names)) ++ freeNamesOfBindings early names bindings

def freeNamesOfArms (early : Bool) : List (CoreArm Core) → List String
  | [] => []
  | ⟨p, e⟩ :: arms => (e.freeNames early).filter (· ∉ p.binders) ++ freeNamesOfArms early arms

end

section FreeNames

variable {early : Bool}

theorem freeNamesOfList_eq (es : List Core) :
    freeNamesOfList early es = es.flatMap (freeNames early) := by
  induction es with
  | nil => rfl
  | cons e es ih => rw [freeNamesOfList, ih, List.flatMap_cons]

theorem freeNamesOfFields_eq (fs : List (String × Core)) :
    freeNamesOfFields early fs = fs.flatMap fun f => f.2.freeNames early := by
  induction fs with
  | nil => rfl
  | cons f fs ih => rw [freeNamesOfFields, ih, List.flatMap_cons]

theorem freeNamesOfBindings_eq (names : List String) (bindings : List (CoreBinding Core)) :
    freeNamesOfBindings early names bindings = bindings.flatMap fun b =>
      if early ∧ ¬b.value.IsLambda then b.value.freeNames early
      else (b.value.freeNames early).filter (· ∉ names) := by
  induction bindings with
  | nil => rfl
  | cons b bindings ih => rw [freeNamesOfBindings, ih, List.flatMap_cons]

theorem freeNamesOfArms_eq (arms : List (CoreArm Core)) :
    freeNamesOfArms early arms =
      arms.flatMap fun arm => (arm.body.freeNames early).filter (· ∉ arm.pattern.binders) := by
  induction arms with
  | nil => rfl
  | cons arm arms ih => rw [freeNamesOfArms, ih, List.flatMap_cons]

end FreeNames

/-- The expression looks up no names but these, whatever part of it is evaluated. -/
inductive Scoped : List String → Core → Prop
  | literal {xs : List String} (v : Literal) : Scoped xs (.literal v)
  | var {xs : List String} {x : String} (hx : x ∈ xs) : Scoped xs (.var x)
  | lambda {xs : List String} {x : String} {t : Ty} {e : Core} (he : Scoped (x :: xs) e) :
      Scoped xs (.lambda x t e)
  | apply {xs : List String} {f a : Core} (hf : Scoped xs f) (ha : Scoped xs a) :
      Scoped xs (.apply f a)
  | letIn {xs : List String} {x : String} {t : Ty} {v e : Core} (hv : Scoped xs v)
      (he : Scoped (x :: xs) e) : Scoped xs (.letIn x t v e)
  | letRec {xs : List String} {bs : List (CoreBinding Core)} {e : Core}
      (hlambda : ∀ b ∈ bs, b.value.IsLambda)
      (hbs : ∀ b ∈ bs, Scoped (bs.map (·.name) ++ xs) b.value)
      (he : Scoped (bs.map (·.name) ++ xs) e) : Scoped xs (.letRec bs e)
  | ifElse {xs : List String} {c y n : Core} (hc : Scoped xs c) (hy : Scoped xs y)
      (hn : Scoped xs n) : Scoped xs (.ifElse c y n)
  | list {xs : List String} {es : List Core} (hes : ∀ e ∈ es, Scoped xs e) : Scoped xs (.list es)
  | tuple {xs : List String} {es : List Core} (hes : ∀ e ∈ es, Scoped xs e) : Scoped xs (.tuple es)
  | record {xs : List String} {fs : List (String × Core)} (hfs : ∀ p ∈ fs, Scoped xs p.2) :
      Scoped xs (.record fs)
  | field {xs : List String} {e : Core} (name : String) (he : Scoped xs e) :
      Scoped xs (.field e name)
  | update {xs : List String} {e : Core} {fs : List (String × Core)} (he : Scoped xs e)
      (hfs : ∀ p ∈ fs, Scoped xs p.2) : Scoped xs (.update e fs)
  | construct {xs : List String} (c : String) {es : List Core} (hes : ∀ e ∈ es, Scoped xs e) :
      Scoped xs (.construct c es)
  | caseOf {xs : List String} {e : Core} {t : Ty} {arms : List (CoreArm Core)} (he : Scoped xs e)
      (harms : ∀ arm ∈ arms, Scoped (arm.pattern.binders ++ xs) arm.body) :
      Scoped xs (.caseOf e t arms)
  | ref {xs : List String} {e : Core} (he : Scoped xs e) : Scoped xs (.ref e)
  | deref {xs : List String} {e : Core} (he : Scoped xs e) : Scoped xs (.deref e)
  | assign {xs : List String} {a b : Core} (ha : Scoped xs a) (hb : Scoped xs b) :
      Scoped xs (.assign a b)
  | sequence {xs : List String} {a b : Core} (ha : Scoped xs a) (hb : Scoped xs b) :
      Scoped xs (.sequence a b)
  | annot {xs : List String} {e : Core} {t : Ty} (he : Scoped xs e) : Scoped xs (.annot e t)

theorem append_subset_append {xs ys : List String} (zs : List String) (h : xs ⊆ ys) :
    zs ++ xs ⊆ zs ++ ys :=
  List.append_subset.2 ⟨List.subset_append_left _ _,
    List.Subset.trans h (List.subset_append_right _ _)⟩

theorem Scoped.mono {xs ys : List String} {e : Core} (h : e.Scoped xs) (hsub : xs ⊆ ys) :
    e.Scoped ys := by
  induction h generalizing ys with
  | literal v => exact .literal v
  | var hx => exact .var (hsub hx)
  | lambda _ ih => exact .lambda (ih (List.cons_subset_cons _ hsub))
  | apply _ _ ihf iha => exact .apply (ihf hsub) (iha hsub)
  | letIn _ _ ihv ihe => exact .letIn (ihv hsub) (ihe (List.cons_subset_cons _ hsub))
  | letRec hlambda _ _ ihbs ihe =>
      exact .letRec hlambda (fun b hb => ihbs b hb (append_subset_append _ hsub))
        (ihe (append_subset_append _ hsub))
  | ifElse _ _ _ ihc ihy ihn => exact .ifElse (ihc hsub) (ihy hsub) (ihn hsub)
  | list _ ih => exact .list fun e he => ih e he hsub
  | tuple _ ih => exact .tuple fun e he => ih e he hsub
  | record _ ih => exact .record fun p hp => ih p hp hsub
  | field name _ ih => exact .field name (ih hsub)
  | update _ _ ihe ih => exact .update (ihe hsub) fun p hp => ih p hp hsub
  | construct c _ ih => exact .construct c fun e he => ih e he hsub
  | caseOf _ _ ihe ih =>
      exact .caseOf (ihe hsub) fun arm harm => ih arm harm (append_subset_append _ hsub)
  | ref _ ih => exact .ref (ih hsub)
  | deref _ ih => exact .deref (ih hsub)
  | assign _ _ iha ihb => exact .assign (iha hsub) (ihb hsub)
  | sequence _ _ iha ihb => exact .sequence (iha hsub) (ihb hsub)
  | annot _ ih => exact .annot (ih hsub)

/-- Where the values of recursive groups are functions, no name is looked up early. -/
theorem Scoped.freeNames_early {xs : List String} {e : Core} (h : e.Scoped xs) :
    e.freeNames true = e.freeNames false := by
  induction h with
  | literal v => rfl
  | var hx => rfl
  | lambda _ ih => rw [freeNames, freeNames, ih]
  | apply _ _ ihf iha => rw [freeNames, freeNames, ihf, iha]
  | letIn _ _ ihv ihe => rw [freeNames, freeNames, ihv, ihe]
  | @letRec xs bs e hlambda _ _ ihbs ihe =>
      rw [freeNames, freeNames, freeNamesOfBindings_eq, freeNamesOfBindings_eq, ihe]
      congr 1
      exact List.flatMap_congr fun b hb => by simp [hlambda b hb, ihbs b hb]
  | ifElse _ _ _ ihc ihy ihn => rw [freeNames, freeNames, ihc, ihy, ihn]
  | list _ ih | tuple _ ih | construct c _ ih =>
      rw [freeNames, freeNames, freeNamesOfList_eq, freeNamesOfList_eq, List.flatMap_congr ih]
  | record _ ih =>
      rw [freeNames, freeNames, freeNamesOfFields_eq, freeNamesOfFields_eq, List.flatMap_congr ih]
  | update _ _ ihe ih =>
      rw [freeNames, freeNames, ihe, freeNamesOfFields_eq, freeNamesOfFields_eq,
        List.flatMap_congr ih]
  | caseOf _ _ ihe ih =>
      rw [freeNames, freeNames, ihe, freeNamesOfArms_eq, freeNamesOfArms_eq,
        List.flatMap_congr fun arm harm => by rw [ih arm harm]]
  | field name _ ih | ref _ ih | deref _ ih | annot _ ih => rw [freeNames, freeNames, ih]
  | assign _ _ iha ihb | sequence _ _ iha ihb => rw [freeNames, freeNames, iha, ihb]

section MapTypes

variable {f : Ty → Ty}

theorem mapTypesList_eq_map (es : List Core) :
    mapTypesList f es = es.map (mapTypes f) := by
  induction es with
  | nil => rfl
  | cons e es ih => simp [mapTypesList, ih]

theorem mapTypesFields_eq_map (fs : List (String × Core)) :
    mapTypesFields f fs = fs.map fun p => (p.1, p.2.mapTypes f) := by
  induction fs with
  | nil => rfl
  | cons p fs ih => simp [mapTypesFields, ih]

theorem mapTypesBindings_eq_map (bs : List (CoreBinding Core)) :
    mapTypesBindings f bs = bs.map fun b => ⟨b.name, f b.type, b.value.mapTypes f⟩ := by
  induction bs with
  | nil => rfl
  | cons b bs ih => simp [mapTypesBindings, ih]

theorem mapTypesArms_eq_map (arms : List (CoreArm Core)) :
    mapTypesArms f arms = arms.map fun arm => ⟨arm.pattern, arm.body.mapTypes f⟩ := by
  induction arms with
  | nil => rfl
  | cons arm arms ih => simp [mapTypesArms, ih]

theorem IsLambda.mapTypes {e : Core} (he : e.IsLambda) : (e.mapTypes f).IsLambda := by
  obtain ⟨x, t, body, rfl⟩ := he
  exact ⟨x, f t, body.mapTypes f, rfl⟩

/-- The types in an expression do not matter to which names it uses. -/
theorem Scoped.mapTypes {xs : List String} {e : Core} (h : e.Scoped xs) :
    (e.mapTypes f).Scoped xs := by
  induction h with
  | literal v => exact .literal v
  | var hx => exact .var hx
  | lambda _ ih => exact .lambda ih
  | apply _ _ ihf iha => exact .apply ihf iha
  | letIn _ _ ihv ihe => exact .letIn ihv ihe
  | @letRec xs bs e hlambda _ _ ihbs ihe =>
      have hnames : (bs.map fun b => (⟨b.name, f b.type, b.value.mapTypes f⟩ : CoreBinding Core)).map
          (·.name) = bs.map (·.name) := by simp
      rw [Core.mapTypes, mapTypesBindings_eq_map]
      refine .letRec (fun b hb => ?_) (fun b hb => ?_) (by rwa [hnames])
      · obtain ⟨b, hmem, rfl⟩ := List.mem_map.1 hb
        exact (hlambda b hmem).mapTypes
      · obtain ⟨b, hmem, rfl⟩ := List.mem_map.1 hb
        rw [hnames]
        exact ihbs b hmem
  | ifElse _ _ _ ihc ihy ihn => exact .ifElse ihc ihy ihn
  | list _ ih =>
      rw [Core.mapTypes, mapTypesList_eq_map]
      exact .list (List.forall_mem_map.2 ih)
  | tuple _ ih =>
      rw [Core.mapTypes, mapTypesList_eq_map]
      exact .tuple (List.forall_mem_map.2 ih)
  | record _ ih =>
      rw [Core.mapTypes, mapTypesFields_eq_map]
      exact .record (List.forall_mem_map.2 ih)
  | field name _ ih => exact .field name ih
  | update _ _ ihe ih =>
      rw [Core.mapTypes, mapTypesFields_eq_map]
      exact .update ihe (List.forall_mem_map.2 ih)
  | construct c _ ih =>
      rw [Core.mapTypes, mapTypesList_eq_map]
      exact .construct c (List.forall_mem_map.2 ih)
  | caseOf _ _ ihe ih =>
      rw [Core.mapTypes, mapTypesArms_eq_map]
      exact .caseOf ihe (List.forall_mem_map.2 ih)
  | ref _ ih => exact .ref ih
  | deref _ ih => exact .deref ih
  | assign _ _ iha ihb => exact .assign iha ihb
  | sequence _ _ iha ihb => exact .sequence iha ihb
  | annot _ ih => exact .annot ih

end MapTypes

end Core

end FieldML
