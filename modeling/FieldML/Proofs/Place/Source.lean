import FieldML.Proofs.Place.Infer
import FieldML.Proofs.Place.Lexer
import FieldML.Proofs.Place.Program
import FieldML.Proofs.Script.FreshInfer
import FieldML.Run

/-!
# Diagnostics point into the text

The three stages before the evaluation take the range of a fault from elsewhere each: from the tokens,
from the nodes of the tree, or from a type. What the types of the primitives say about their place is
no place in the text, and the kind that a variable has already has no place at all. None of these
is shown: a label without a place is left out, and the check gives no variable a second kind.
-/

namespace FieldML

variable {P : Position → Prop}

/-- Every range of the diagnostic is a place in the text. -/
def Diagnostic.PointsInto (text : List Char) (d : Diagnostic) : Prop :=
  ∀ r ∈ d.range :: d.labels.map (·.range),
    r.isInvalid = false ∧ r.Points (Position.IsIn text)

theorem Diagnostic.pointsInto_iff {text : List Char} {d : Diagnostic} : d.PointsInto text ↔
    d.range.Points (Position.IsIn text) ∧ ∀ l ∈ d.labels, l.range.Points (Position.IsIn text) := by
  unfold PointsInto
  rw [List.forall_mem_cons, List.forall_mem_map]
  exact and_congr ⟨And.right, fun h => ⟨h.isInvalid, h⟩⟩
    (forall₂_congr fun _ _ => ⟨And.right, fun h => ⟨h.isInvalid, h⟩⟩)

namespace Primitive

theorem sound_type (p : Primitive) : p.type.All (Range.Sound P) := by
  have hlabel : Range.Sound P range := Range.sound_label _
  cases p <;> simp [type, polymorphic, arrow, base, Ty.All, Kind.All, hlabel]

end Primitive

namespace Check

theorem soundNames_initialEnvironments : SoundNames P initialEnvironments.types := by
  rw [SoundNames, Ty.allFields_iff]
  rintro ⟨name, t⟩ hp
  obtain ⟨p, -, heq⟩ := List.mem_map.1 (Fields.mem_of_mem_ofList hp)
  obtain ⟨-, rfl⟩ := Prod.mk.inj heq
  exact p.sound_type

theorem points_start : (start initialEnvironments.variants initialEnvironments.kinds
    initialEnvironments.types).Points P where
  variants := by
    refine ⟨fun p hp params body h => ?_, fun p hp t ht => ?_⟩
    · obtain rfl := List.mem_singleton.1 hp
      cases h
    · rcases List.mem_cons.1 hp with rfl | hp
      · cases ht
      · obtain rfl := List.mem_singleton.1 hp
        obtain rfl := List.mem_singleton.1 ht
        exact Range.sound_label _
  solver := ⟨nofun, fun _ => trivial⟩
  warnings := List.forall_mem_nil _

theorem aims_session {env : Environments} (henv : SoundNames P env.types) {p : Program}
    (hp : p.All (Range.Points P)) : Aims P (session env p) fun _ => True := by
  apply (aims_forM fun group hgroup => aims_declareGroup (hp.1 group hgroup)).bind
  intro _ _
  exact (aims_infer henv hp.2).mono fun _ _ => trivial

/-- The check of a program that points into a text everywhere finds faults of that text only. -/
theorem points_program (o : CheckOptions) {p : Program} (hp : p.All (Range.Points P)) :
    match (program initialEnvironments o p).1 with
    | .ok checked => ∀ w ∈ checked.warnings, w.range.Points P
    | .error e => e.range.Points P ∧ ∀ l ∈ e.labels, l.range.Points P := by
  have hrun := aims_session soundNames_initialEnvironments hp o _ points_start
  have htracks := tracks_session (o := o) .start wf_initialEnvironments.types p
  unfold program
  rw [outcome_eq_session]
  rcases hsession : session initialEnvironments p o (start initialEnvironments.variants
    initialEnvironments.kinds initialEnvironments.types) with ⟨e | ⟨core, t⟩, s'⟩
  · rw [hsession] at hrun
    exact hrun (htracks.error (P := fun e => ∀ k, e.cause ≠ .alreadyKinded k)
      (fun _ _ _ _ _ hc hrun => hc.sound.not_alreadyKinded hrun) hsession)
  · rw [hsession] at hrun
    exact fun w hw => hrun.1.warnings w (List.mem_reverse.1 hw)

end Check

/-- All diagnostics of a text point into it, under every configuration: the fault for which the text
is refused with the places that explain it, and what is remarked on in a text that is accepted. -/
theorem diagnostics_point_into_source (source : String) (settings : Settings) :
    match (checkSource source settings).1 with
    | .ok checked => ∀ w ∈ checked.warnings, w.toDiagnostic.PointsInto source.toList
    | .error e => e.toDiagnostic.PointsInto source.toList := by
  have hlex := Token.inOrder_lex source
  unfold checkSource
  cases htokens : Token.lex source with
  | error e =>
      rw [htokens] at hlex
      exact Diagnostic.pointsInto_iff.2 ⟨hlex, List.forall_mem_nil _⟩
  | ok tokens =>
      rw [htokens] at hlex
      obtain ⟨words, stop, rfl, hkinds, horder⟩ := hlex
      have hread := Program.points_ofTokens hkinds horder
      dsimp only
      cases hprogram : Program.ofTokens (words ++ [⟨.eof, "", stop⟩]) with
      | error e =>
          rw [hprogram] at hread
          exact Diagnostic.pointsInto_iff.2 ⟨hread, List.forall_mem_nil _⟩
      | ok p =>
          rw [hprogram] at hread
          have hcheck := Check.points_program settings.checkOptions hread
          dsimp only
          rw [Check.conclude_outcome]
          rcases hresult : Check.program initialEnvironments settings.checkOptions p with
            ⟨e | checked, events⟩
          · rw [hresult] at hcheck
            exact Diagnostic.pointsInto_iff.2 hcheck
          · rw [hresult] at hcheck
            exact fun w hw => Diagnostic.pointsInto_iff.2 ⟨hcheck w hw, List.forall_mem_nil _⟩

end FieldML
