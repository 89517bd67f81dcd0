import FieldML.Check.Infer
import FieldML.Proofs.Check.Generalize
import FieldML.Proofs.Layout.Check
import FieldML.Proofs.Script.Program

/-!
# Patterns and generalization do not look at ranges

A pattern binds the same names to the same types wherever it stands, and a type is generalized over
the same variables in the same order.
-/

namespace FieldML

namespace CheckState.Erased

variable {s s' : CheckState}

theorem kindVars (h : s.Erased s') : Check.kindVars s' = Check.kindVars s := by
  funext v
  rw [Check.kindVars, Check.kindVars, h.solver.kinds.kindOf, ← h.solver.subst.applyKind,
    Kind.freeVars_erase]

theorem closedUnderKinds (h : s.Erased s') (vars : List TypeVar) :
    Check.closedUnderKinds s' vars = Check.closedUnderKinds s vars := by
  rw [Check.closedUnderKinds, Check.closedUnderKinds, h.kindVars, h.next]

theorem envVars (h : s.Erased s') (env : TypeEnv) :
    Check.envVars s' (Ty.eraseFields env) = Check.envVars s env := by
  rw [Check.envVars, Check.envVars, h.closedUnderKinds, Ty.eraseFields_eq_map, List.flatMap_map]
  refine congrArg (fun f => Check.closedUnderKinds s (List.flatMap f env)) (funext fun p => ?_)
  change (s'.solver.subst.apply p.2.erase).freeVars = (s.solver.subst.apply p.2).freeVars
  rw [← h.solver.subst.apply, Ty.freeVars_erase]

theorem quantified (h : s.Erased s') (env : TypeEnv) (t : Ty) :
    s'.quantified (Ty.eraseFields env) t.erase = s.quantified env t := by
  simp only [CheckState.quantified, Check.quantifiable, h.envVars, h.closedUnderKinds,
    ← h.solver.subst.apply, Ty.freeVars_erase]

theorem quantify (h : s.Erased s') (vars : List TypeVar) (t : Ty) :
    Check.quantify s' vars t.erase = (Check.quantify s vars t).erase := by
  induction vars with
  | nil => rfl
  | cons v vars ih =>
      change Ty.all v _ (Check.quantify s' vars t.erase) t.erase.range = _
      rw [ih, h.solver.kinds.kindOf, ← h.solver.subst.applyKind, Ty.range_erase]
      rfl

theorem scheme (h : s.Erased s') (env : TypeEnv) (t : Ty) :
    s'.scheme (Ty.eraseFields env) t.erase = (s.scheme env t).erase := by
  rw [CheckState.scheme, CheckState.scheme, h.kindVars, h.quantified, ← h.solver.subst.apply,
    h.quantify]

end CheckState.Erased

namespace Check

theorem blind_generalize (t : Ty) (env : TypeEnv) :
    Blind Ty.erase (generalize t env) (generalize t.erase (Ty.eraseFields env)) := by
  intro o s s' hs
  obtain ⟨events, hrun⟩ := CheckState.generalize_apply t env o s
  obtain ⟨events', hrun'⟩ := CheckState.generalize_apply t.erase (Ty.eraseFields env) o s'
  rw [hrun, hrun', hs.scheme]
  exact ⟨rfl, hs.variants, hs.solver, hs.next, hs.warnings⟩

/-! ### Patterns -/

theorem blind_freshEach {γ δ : Type} (c : γ → δ) (place : γ → Range) (place' : δ → Range)
    (h : ∀ a, place' (c a) = .erased) (as : List γ) :
    Blind Ty.eraseList (as.mapM fun a => fresh (place a))
      ((as.map c).mapM fun a => fresh (place' a)) := by
  refine (blind_mapM (fun a => ?_) as).congr fun ts => (Ty.eraseList_eq_map ts).symm
  rw [h]
  exact blind_fresh (place a)

theorem erase_literalType (l : Literal) (r : Range) :
    (literalType l r).erase = literalType l .erased := by
  cases l <;> rfl

/-- The types that a pattern binds names to, without ranges. -/
abbrev eraseBound {α : Type} (p : α × PatternBindings) : α × PatternBindings :=
  (p.1, Ty.eraseFields p.2)

theorem blind_bindName (bindings : PatternBindings) (name : Ident) (t : Ty) :
    Blind Ty.eraseFields (bindName bindings name t)
      (bindName (Ty.eraseFields bindings) name.erase t.erase) := by
  unfold bindName
  rw [Ty.any_eraseFields, Ident.erase]
  refine .ite (blind_fail _) (.pure ?_)
  rw [Ty.eraseFields_eq_map, Ty.eraseFields_eq_map, List.map_append]
  rfl

theorem blind_instantiateConstructor (ctor : Ident) :
    Blind (fun p => (p.1.erase, Ty.eraseList p.2)) (instantiateConstructor ctor)
      (instantiateConstructor ctor.erase) := by
  refine blind_get_bind fun s s' hs => ?_
  have hlookup := s.variants.lookupConstructor_erase ctor.text ctor.range
  rw [← hs.variants] at hlookup
  refine (blind_liftVariant hlookup).bind fun c => ?_
  have hfresh := blind_freshEach id (fun _ => ctor.range) (fun _ => .erased) (fun _ => rfl) c.params
  rw [List.map_id] at hfresh
  refine hfresh.bind fun ts => .pure ?_
  rw [c.instantiateArgs_erase]
  rfl

mutual

theorem blind_pattern (expected : Ty) (bindings : PatternBindings) (p : Pattern) :
    Blind eraseBound (pattern expected bindings p)
      (pattern expected.erase (Ty.eraseFields bindings) p.erase) := by
  match p with
  | .wildcard _ => exact .pure rfl
  | .var name => exact (blind_bindName bindings name expected).bind fun _ => .pure rfl
  | .literal l r =>
      rw [Pattern.erase, pattern, pattern, ← erase_literalType l r]
      exact (blind_unify expected (literalType l r)).bind fun _ => .pure rfl
  | .tuple items r =>
      have hfresh := blind_freshEach Pattern.erase Pattern.range Pattern.range Pattern.range_erase
        items
      rw [← Pattern.eraseList_eq_map] at hfresh
      refine hfresh.bind fun types => ?_
      refine (blind_unify expected (.product types r)).bind fun _ => ?_
      exact (blind_patterns types bindings items).bind fun found => .pure rfl
  | .nil r =>
      refine (blind_fresh r).bind fun elem => ?_
      exact (blind_unify expected (.list elem r)).bind fun _ => .pure rfl
  | .cons head tail r =>
      rw [Pattern.erase, pattern, pattern, Pattern.range_erase]
      refine (blind_fresh head.range).bind fun elem => ?_
      refine (blind_unify expected (.list elem r)).bind fun _ => ?_
      refine (blind_pattern elem bindings head).bind fun found => ?_
      exact (blind_pattern (.list elem r) found.2 tail).bind fun found' => .pure rfl
  | .construct ctor arg r =>
      rw [Pattern.erase, pattern_construct, pattern_construct]
      refine (blind_instantiateConstructor ctor).bind fun found => ?_
      refine (blind_unify expected found.1).bind fun _ => ?_
      exact blind_patternArgs ctor found.2 bindings r arg
  | .alias inner name _ =>
      refine (blind_pattern expected bindings inner).bind fun found => ?_
      exact (blind_bindName found.2 name expected).bind fun _ => .pure rfl

theorem blind_patternArgs (ctor : Ident) (types : List Ty) (bindings : PatternBindings) (r : Range)
    (arg : Option Pattern) :
    Blind eraseBound (patternArgs ctor types bindings r arg)
      (patternArgs ctor.erase (Ty.eraseList types) (Ty.eraseFields bindings) .erased
        (Pattern.eraseArg arg)) := by
  have hgiven : givenPatterns (Pattern.eraseArg arg) = givenPatterns arg := by
    rcases arg with _ | (_ | _ | _ | ⟨items, _⟩ | _ | _ | _ | _)
    case some.tuple => simp [Pattern.eraseArg, Pattern.erase, givenPatterns]
    all_goals rfl
  have refused : Blind (eraseBound (α := CorePattern))
      (fail (.constructorArity ctor.text types.length (givenPatterns arg)) r)
      (fail (.constructorArity ctor.text (Ty.eraseList types).length
        (givenPatterns (Pattern.eraseArg arg))) .erased) := by
    rw [hgiven, Ty.length_eraseList]
    exact blind_fail _
  cases arg with
  | none =>
      cases types with
      | nil => exact .pure rfl
      | cons => exact refused
  | some arg =>
      rcases types with _ | ⟨t, _ | ⟨u, types⟩⟩
      · exact refused
      · exact (blind_pattern t bindings arg).bind fun found => .pure rfl
      · cases arg with
        | wildcard _ =>
            have hwild : (Ty.eraseList (t :: u :: types)).map (fun _ => CorePattern.wildcard) =
                (t :: u :: types).map fun _ => .wildcard := by
              rw [Ty.eraseList_eq_map, List.map_map]
              rfl
            exact .pure (congrArg (fun ps => (CorePattern.construct ctor.text ps, _)) hwild.symm)
        | tuple items _ =>
            refine .ite_iff ?_ ?_ refused
            · simp
            · exact (blind_patterns (t :: u :: types) bindings items).bind fun found => .pure rfl
        | _ => exact refused

theorem blind_patterns (types : List Ty) (bindings : PatternBindings) (ps : List Pattern) :
    Blind eraseBound (patterns types bindings ps)
      (patterns (Ty.eraseList types) (Ty.eraseFields bindings) (Pattern.eraseList ps)) := by
  match ps with
  | [] => exact .pure rfl
  | p :: ps =>
      cases types with
      | nil => exact .pure rfl
      | cons t types =>
          refine (blind_pattern t bindings p).bind fun found => ?_
          exact (blind_patterns types found.2 ps).bind fun found' => .pure rfl

end

end Check

end FieldML
