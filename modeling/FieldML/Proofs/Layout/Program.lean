import FieldML.Primitive
import FieldML.Proofs.Layout.Grammar
import FieldML.Proofs.Layout.Infer

/-!
# Layout carries no meaning

Programs that are the same up to ranges check alike. Together with the parser this says that only the
kinds and the texts of the tokens matter: what they are elaborated to, and how they are refused.
-/

namespace FieldML

namespace Core

variable (f g : Ty → Ty)

mutual

theorem mapTypes_mapTypes (e : Core) : (e.mapTypes f).mapTypes g = e.mapTypes (g ∘ f) := by
  match e with
  | .literal _ | .var _ => rfl
  | .lambda _ _ e | .field e _ | .ref e | .deref e | .annot e _ =>
      simp only [mapTypes, mapTypes_mapTypes e, Function.comp_apply]
  | .apply a b | .letIn _ _ a b | .assign a b | .sequence a b =>
      simp only [mapTypes, mapTypes_mapTypes a, mapTypes_mapTypes b, Function.comp_apply]
  | .letRec bs e => simp only [mapTypes, mapTypesBindings_mapTypesBindings bs, mapTypes_mapTypes e]
  | .ifElse a b c =>
      simp only [mapTypes, mapTypes_mapTypes a, mapTypes_mapTypes b, mapTypes_mapTypes c]
  | .list es | .tuple es | .construct _ es => simp only [mapTypes, mapTypesList_mapTypesList es]
  | .record fs => simp only [mapTypes, mapTypesFields_mapTypesFields fs]
  | .update e fs => simp only [mapTypes, mapTypes_mapTypes e, mapTypesFields_mapTypesFields fs]
  | .caseOf e _ arms =>
      simp only [mapTypes, mapTypes_mapTypes e, mapTypesArms_mapTypesArms arms, Function.comp_apply]

theorem mapTypesList_mapTypesList (es : List Core) :
    mapTypesList g (mapTypesList f es) = mapTypesList (g ∘ f) es := by
  match es with
  | [] => rfl
  | e :: es => simp only [mapTypesList, mapTypes_mapTypes e, mapTypesList_mapTypesList es]

theorem mapTypesFields_mapTypesFields (fs : List (String × Core)) :
    mapTypesFields g (mapTypesFields f fs) = mapTypesFields (g ∘ f) fs := by
  match fs with
  | [] => rfl
  | (_, e) :: fs => simp only [mapTypesFields, mapTypes_mapTypes e, mapTypesFields_mapTypesFields fs]

theorem mapTypesBindings_mapTypesBindings (bs : List (CoreBinding Core)) :
    mapTypesBindings g (mapTypesBindings f bs) = mapTypesBindings (g ∘ f) bs := by
  match bs with
  | [] => rfl
  | ⟨_, _, e⟩ :: bs =>
      simp only [mapTypesBindings, mapTypes_mapTypes e, mapTypesBindings_mapTypesBindings bs,
        Function.comp_apply]

theorem mapTypesArms_mapTypesArms (arms : List (CoreArm Core)) :
    mapTypesArms g (mapTypesArms f arms) = mapTypesArms (g ∘ f) arms := by
  match arms with
  | [] => rfl
  | ⟨_, e⟩ :: arms =>
      simp only [mapTypesArms, mapTypes_mapTypes e, mapTypesArms_mapTypesArms arms]

end

end Core

/-! ### The state that a check begins in -/

def CheckState.erase (s : CheckState) : CheckState where
  variants := s.variants.erase
  solver :=
    { subst := ⟨s.solver.subst.bindings.map fun _ t => t.erase⟩
      kinds := ⟨s.solver.kinds.kinds.map fun _ k => k.erase⟩ }
  next := s.next
  warnings := s.warnings.map Warning.erase

theorem CheckState.erased_erase (s : CheckState) : s.Erased s.erase where
  variants := rfl
  solver := ⟨fun _ => Std.TreeMap.getElem?_map, fun _ => Std.TreeMap.getElem?_map⟩
  next := rfl
  warnings := rfl

/-- The checked program without the ranges of the remarks on it. Its types have none. -/
def Checked.erase (c : Checked) : Checked := { c with warnings := c.warnings.map Warning.erase }

namespace Check

theorem finish_erased {s s' : CheckState} (h : s.Erased s') (core : Core) (t : Ty) :
    finish s' (core.mapTypes Ty.erase) t.erase = (finish s core t).erase := by
  have hfinal (t : Ty) :
      (s'.solver.subst.apply t.erase).erase = (s.solver.subst.apply t).erase := by
    rw [← h.solver.subst.apply, Ty.erase_erase]
  have hcore : (core.mapTypes Ty.erase).mapTypes (fun t => (s'.solver.subst.apply t).erase) =
      core.mapTypes fun t => (s.solver.subst.apply t).erase := by
    rw [Core.mapTypes_mapTypes]
    exact congrArg core.mapTypes (funext hfinal)
  have hkind (v : TypeVar) :
      (s'.solver.subst.applyKind (s'.solver.kinds.kindOf v)).erase =
        (s.solver.subst.applyKind (s.solver.kinds.kindOf v)).erase := by
    rw [h.solver.kinds.kindOf, ← h.solver.subst.applyKind, Kind.erase_erase]
  simp only [finish, Checked.erase, hcore, hfinal, hkind, h.warnings, List.map_reverse]

theorem blind_session (env : Environments) (p : Program) :
    Blind eraseFound (session env p)
      (session { env with types := Ty.eraseFields env.types } p.erase) :=
  (blind_forM blind_declareGroup p.groups).bind fun _ => blind_infer env.types p.body

/-- The outcome of a check without ranges, from any run of it that has none. -/
theorem program_eq_finish (env : Environments) (o : CheckOptions) (p : Program) :
    ((program env o p).1.map Checked.erase).mapError TypeError.erase =
      match session { env with types := Ty.eraseFields env.types } p.erase o
        (start env.variants env.kinds env.types).erase with
      | (.ok (core, t), s) => .ok (finish s core t)
      | (.error e, _) => .error e.erase := by
  obtain ⟨hresult, hstate⟩ := blind_session env p o _ _
    (start env.variants env.kinds env.types).erased_erase
  unfold program
  rw [outcome_eq_session]
  rcases hfirst : session env p o (start env.variants env.kinds env.types) with
    ⟨e | ⟨core, t⟩, s⟩ <;>
  rcases hsecond : session { env with types := Ty.eraseFields env.types } p.erase o
    (start env.variants env.kinds env.types).erase with ⟨e' | ⟨core', t'⟩, s'⟩ <;>
    rw [hfirst, hsecond] at hresult hstate
  · exact congrArg Except.error (Except.error.inj hresult).symm
  · cases hresult
  · cases hresult
  · obtain ⟨rfl, rfl⟩ := Prod.mk.inj (Except.ok.inj hresult)
    exact congrArg Except.ok (finish_erased hstate core t).symm

/-- Programs that are the same up to ranges check alike. -/
theorem program_congr {p q : Program} (h : p.erase = q.erase) (env : Environments)
    (o : CheckOptions) :
    ((program env o p).1.map Checked.erase).mapError TypeError.erase =
      ((program env o q).1.map Checked.erase).mapError TypeError.erase := by
  rw [program_eq_finish, program_eq_finish, h]

/-- Two outcomes of a check are the same fault up to ranges, or the same checked program up to the
ranges of what was remarked on. -/
def Agree : Except TypeError Checked → Except TypeError Checked → Prop
  | .ok c, .ok c' =>
      c.core = c'.core ∧ c.type = c'.type ∧ c.kind = c'.kind ∧
        c.warnings.map Warning.erase = c'.warnings.map Warning.erase
  | .error e, .error e' => e.erase = e'.erase
  | _, _ => False

theorem agree_of_erase_eq {r r' : Except TypeError Checked}
    (h : (r.map Checked.erase).mapError TypeError.erase =
      (r'.map Checked.erase).mapError TypeError.erase) : Agree r r' := by
  rcases r with e | c <;> rcases r' with e' | c'
  · exact Except.error.inj h
  · cases h
  · cases h
  · obtain ⟨hcore, htype, hkind, hwarnings⟩ := Checked.mk.inj (Except.ok.inj h)
    exact ⟨hcore, htype, hkind, hwarnings⟩

end Check

namespace Program

/-- Two outcomes of parsing are the same fault up to ranges, or the same program up to ranges. -/
def Agree : Except ParseError Program → Except ParseError Program → Prop
  | .ok p, .ok q => p.erase = q.erase
  | .error e, .error e' => e.erase = e'.erase
  | _, _ => False

theorem agree_of_erase_eq {r r' : Except ParseError Program}
    (h : (r.map erase).mapError ParseError.erase = (r'.map erase).mapError ParseError.erase) :
    Agree r r' := by
  rcases r with e | p <;> rcases r' with e' | q
  · exact Except.error.inj h
  · cases h
  · cases h
  · exact Except.ok.inj h

end Program

theorem Token.map_erase_eq {ts us : List Token}
    (h : List.Forall₂ (fun t u => t.kind = u.kind ∧ t.text = u.text) ts us) :
    ts.map Token.erase = us.map Token.erase := by
  induction h with
  | nil => rfl
  | cons hword _ ih =>
      rw [List.map_cons, List.map_cons, ih, Token.erase, Token.erase, hword.1, hword.2]

/-- Only the kinds and the texts of tokens carry meaning. Where two lists of tokens agree in these,
the parser refuses both for the same cause or reads the same program up to ranges. Checking the two
programs then gives the same elaborated form, type and kind with the same remarks up to ranges, or
the same fault up to ranges. -/
theorem layout_carries_no_meaning {ts us : List Token}
    (h : List.Forall₂ (fun t u => t.kind = u.kind ∧ t.text = u.text) ts us) :
    Program.Agree (Program.ofTokens ts) (Program.ofTokens us) ∧
      ∀ p q, Program.ofTokens ts = .ok p → Program.ofTokens us = .ok q → ∀ o,
        Check.Agree (Check.program initialEnvironments o p).1
          (Check.program initialEnvironments o q).1 := by
  have hparse : Program.Agree (Program.ofTokens ts) (Program.ofTokens us) := by
    apply Program.agree_of_erase_eq
    rw [← Program.ofTokens_erase, ← Program.ofTokens_erase, Token.map_erase_eq h]
  refine ⟨hparse, fun p q hp hq o => Check.agree_of_erase_eq ?_⟩
  rw [hp, hq] at hparse
  exact Check.program_congr hparse initialEnvironments o

theorem layout_carries_no_meaning_identity :
    let line := fun n => Range.source ⟨n, 1⟩ ⟨n, 3⟩
    let tokens := fun place : Nat → Range =>
      [⟨.keyword, "fun", place 1⟩, ⟨.ident, "x", place 2⟩, ⟨.symbol, "->", place 3⟩,
        ⟨.ident, "x", place 4⟩, ⟨.eof, "", place 5⟩]
    tokens line ≠ tokens (fun _ => line 1) ∧
      ∃ p q, Program.ofTokens (tokens line) = .ok p ∧
        Program.ofTokens (tokens fun _ => line 1) = .ok q ∧ p.erase = q.erase ∧
        ∀ o, Check.Agree (Check.program initialEnvironments o p).1
          (Check.program initialEnvironments o q).1 := by
  intro line tokens
  have hwords : List.Forall₂ (fun t u => t.kind = u.kind ∧ t.text = u.text)
      (tokens line) (tokens fun _ => line 1) := by
    simp [tokens]
  have hline : (Program.ofTokens (tokens line)).isOk = true := by decide +kernel
  have hfirst : (Program.ofTokens (tokens fun _ => line 1)).isOk = true := by decide +kernel
  have h := layout_carries_no_meaning hwords
  cases hp : Program.ofTokens (tokens line) with
  | error e =>
      rw [hp] at hline
      cases hline
  | ok p =>
      cases hq : Program.ofTokens (tokens fun _ => line 1) with
      | error e =>
          rw [hq] at hfirst
          cases hfirst
      | ok q =>
          rw [hp, hq] at h
          exact ⟨by decide, p, q, rfl, rfl, h.1, h.2 p q rfl rfl⟩

end FieldML

/-! ### Faults read alike

What is printed of types shows no ranges. So faults that are the same up to ranges are told in the
same words, and the place in front of these is all that layout changes.
 -/

namespace FieldML

mutual

theorem Ty.print_erase (place : TypeLevel) (t : Ty) : t.erase.print place = t.print place := by
  match t with
  | .base _ _ | .var _ _ => rfl
  | .func p q _ => simp only [Ty.erase, Ty.print, p.print_erase, q.print_erase]
  | .list t _ | .ref t _ => simp only [Ty.erase, Ty.print, t.print_erase]
  | .product ts _ => simp only [Ty.erase, Ty.print, Ty.printList_eraseList .applied ts]
  | .variant n ts _ | .synonym n ts _ _ => exact Ty.printApplied_eraseList n ts
  | .all _ k t _ => simp only [Ty.erase, Ty.print, k.printBinder_erase, t.print_erase]
  | .record fs _ => simp only [Ty.erase, Ty.print, Ty.printFields_eraseFields fs]

theorem Ty.printApplied_eraseList (name : String) (ts : List Ty) :
    Ty.printApplied name (Ty.eraseList ts) = Ty.printApplied name ts := by
  match ts with
  | [] => rfl
  | [t] => simp only [Ty.eraseList, Ty.printApplied, t.print_erase]
  | t :: u :: ts =>
      simp only [Ty.eraseList, Ty.printApplied, t.print_erase, Ty.printList, u.print_erase,
        Ty.printList_eraseList .arrow ts]

theorem Kind.printBinder_erase (name : String) (k : Kind) :
    k.erase.printBinder name = k.printBinder name := by
  match k with
  | .universal => rfl
  | .record fs => simp only [Kind.erase, Kind.printBinder, Ty.printFields_eraseFields fs]

theorem Ty.printList_eraseList (place : TypeLevel) (ts : List Ty) :
    Ty.printList place (Ty.eraseList ts) = Ty.printList place ts := by
  match ts with
  | [] => rfl
  | t :: ts =>
      simp only [Ty.eraseList, Ty.printList, t.print_erase, Ty.printList_eraseList place ts]

theorem Ty.printFields_eraseFields (fs : List (String × Ty)) :
    Ty.printFields (Ty.eraseFields fs) = Ty.printFields fs := by
  match fs with
  | [] => rfl
  | (_, t) :: fs =>
      simp only [Ty.eraseFields, Ty.printFields, t.print_erase, Ty.printFields_eraseFields fs]

end

theorem Kind.print_erase (k : Kind) : k.erase.print = k.print := by
  cases k with
  | universal => rfl
  | record fs => simp only [erase, print, Ty.printFields_eraseFields]

theorem Reason.detail_erase (reason : Reason) : reason.erase.detail = reason.detail := by
  cases reason with
  | occurs v t => simp only [erase, detail, t.print_erase]
  | _ => rfl

theorem Contradiction.message_erase (c : Contradiction) : c.erase.message = c.message := by
  have hkinds : (c.kinds.map fun p => (p.1, p.2.erase)).mapM constraint = c.kinds.mapM constraint := by
    rw [List.mapM_map]
    refine congrArg (List.mapM · c.kinds) (funext fun p => ?_)
    simp only [Function.comp_apply, constraint, p.2.print_erase]
  simp only [message, describe, erase, Ty.print_erase, Reason.detail_erase, hkinds]

theorem TypeError.Cause.message_erase (cause : Cause) : cause.erase.message = cause.message := by
  cases cause with
  | contradiction c => exact c.message_erase
  | _ => rfl

theorem TypeError.Cause.code_erase (cause : Cause) : cause.erase.code = cause.code := by
  cases cause <;> rfl

/-- Faults that are the same up to ranges have the same number and are told in the same words. -/
theorem TypeError.words_of_erase_eq {e e' : TypeError} (h : e.erase = e'.erase) :
    e.cause.code = e'.cause.code ∧ e.cause.message = e'.cause.message := by
  have hcause : e.cause.erase = e'.cause.erase := congrArg TypeError.cause h
  rw [← e.cause.code_erase, ← e.cause.message_erase, hcause, e'.cause.code_erase,
    e'.cause.message_erase]
  exact ⟨rfl, rfl⟩

end FieldML
