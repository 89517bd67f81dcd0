import FieldML.Proofs.Check.Program
import FieldML.Proofs.Data.Check
import FieldML.Proofs.Data.Eval
import FieldML.Proofs.Data.Print
import FieldML.Proofs.Layout.Ty
import FieldML.Proofs.Typing.Generalize
import FieldML.Text.Graphemes

/-!
# Printed data is a program

The text of data is a program. Wherever the types of the data are declared, it is accepted, and it
evaluates to the data.
-/

namespace FieldML

open Check

variable {env : VariantEnv} {types : TypeEnv} {o : CheckOptions} {n : TypeVar}

/-- The declared types that checks lead to, one after the other, from nothing or from the types that
every program can use. A declaration may also be refused, which leaves those before it. -/
inductive VariantEnv.Reached : VariantEnv → Prop
  | empty : Reached {}
  | initial : Reached initialVariantEnv
  | declare {env : VariantEnv} (types : TypeEnv) (o : CheckOptions) (p : Program) (h : Reached env) :
      Reached (declared ⟨env, .empty, types⟩ o p).2.variants

/-- A check starts above the parameters of all declared types. -/
theorem VariantEnv.Known.above (h : env.Known n) (types : TypeEnv) :
    env.Known (start env .empty types).next := by
  refine ⟨h.toWf, fun name c hc => ⟨(h.params name c hc).1, fun v hv => ?_⟩⟩
  obtain ⟨ctors, hdef, -⟩ := h.listed name c hc
  refine TypeVar.lt_above (List.mem_append_left _ (List.mem_append_left _ ?_))
  refine List.mem_append_left _ (List.mem_flatMap.2 ⟨_, Fields.mem_of_get? hdef, ?_⟩)
  exact List.mem_append_left _ hv

theorem VariantEnv.Reached.known (h : env.Reached) (types : TypeEnv) :
    env.Known (start env .empty types).next := by
  have hsome : ∃ n, env.Known n := by
    induction h with
    | empty => exact ⟨0, ⟨by simp [definition?, Fields.get?], by simp [constructor?, Fields.get?],
        by simp [constructor?, Fields.get?]⟩, by simp [constructor?, Fields.get?]⟩
    | initial => exact ⟨5, known_initialVariantEnv⟩
    | @declare env types o p _ ih =>
        obtain ⟨n, hknown⟩ := ih
        let envs : Environments := ⟨env, .empty, types⟩
        have hs : (start envs.variants envs.kinds envs.types).Wf := wf_start (hknown.above types)
        have hdeclares := declares_declared (o := o) (p := p) hs
        exact ⟨_, hdeclares.2.1.variants⟩
  obtain ⟨n, hknown⟩ := hsome
  exact hknown.above types

/-- Where a check starts, no variable has a record kind, and every assignment is a solution. -/
theorem CheckState.unkinded_start (h : env.Known (start env .empty types).next) :
    (start env .empty types).Unkinded where
  wf := wf_start h
  proper := by
    refine ⟨⟨fun v t hv => ?_, fun _ => 0, fun v t hv => ?_⟩, (wf_start h).simple.kind⟩
    · simp [find?_start] at hv
    · simp [find?_start] at hv
  plain := kindOf_start

theorem Solver.solvedBy_start (θ : Assignment) : (start env .empty types).solver.SolvedBy θ where
  binding v t hv := by simp [find?_start] at hv
  kind v := by
    rw [kindOf_start]
    trivial

theorem Ty.Simple.ground_erase {syn : Prop} {t : Ty} {θ : Assignment} (ht : t.Simple syn) :
    t.erase.ground θ = t.ground θ := by
  induction ht with
  | base b r => rfl
  | var v r => rfl
  | func r hp hq ihp ihq => simp only [erase, ground, ihp, ihq]
  | list r ht ih => simp only [erase, ground, ih]
  | ref r ht ih => simp only [erase, ground, ih]
  | product r hts ih =>
      simp only [erase, eraseList_eq_map, ground_product, List.map_map, GroundTy.product.injEq]
      exact List.map_congr_left ih
  | variant n r hts ih =>
      simp only [erase, eraseList_eq_map, ground_variant, List.map_map, GroundTy.variant.injEq,
        true_and]
      exact List.map_congr_left ih
  | synonym n r hsyn hts ht hvars ihts iht => simpa only [erase, ground] using iht
  | record r hsorted hfs ih =>
      simp only [erase, eraseFields_eq_map, ground_record, List.map_map, GroundTy.record.injEq]
      exact List.map_congr_left fun p hp => by simp [ih p hp]

/-- The printed form of data is read as a program, unless it is nested too deeply. The check of that
program accepts it over the declared types, with a type of which that of the data is a case, and on
as many levels as the data is high it evaluates to the same data. -/
theorem printed_data_evaluates [Text.Segmentation] {v : Value} {τ : GroundTy} (henv : env.Reached)
    (hdata : v.IsData env τ) (hwritable : v.Writable) (cells : Array Value) (types : TypeEnv)
    (o : CheckOptions) :
    ∃ tokens, Token.lex (v.print cells) = .ok tokens ∧
      ((∃ e, Program.ofTokens tokens = .error e ∧ e.IsNestingLimit) ∨
        ∃ p checked events, Program.ofTokens tokens = .ok p ∧
          Check.program ⟨env, .empty, types⟩ o p = (.ok checked, events) ∧
          (∃ θ, checked.type.ground θ = τ) ∧
          ∀ (m : Machine) (limits : EvalLimits) (scope : Scope), limits.fuel = none →
            v.height ≤ limits.depth →
            ∃ w, m.evaluate limits scope checked.core = (.ok w, m.withFuel none) ∧
              v.equal? w = some true) := by
  obtain ⟨tokens, hlex, hread⟩ := hwritable.reads cells
  refine ⟨tokens, hlex, ?_⟩
  rcases hread with ⟨⟨groups, body⟩, hparse, rfl, hwritten⟩ | ⟨e, hparse, he⟩
  · have hunkinded := CheckState.unkinded_start (henv.known types)
    obtain ⟨⟨core, t⟩, s, θ, hrun, hadv, rfl, hfound, hground⟩ :=
      hdata.elaborates hwritten types o _ (fun _ => .base .unit) hunkinded rfl
        (Solver.solvedBy_start _)
    have hdeclared : declared ⟨env, .empty, types⟩ o ⟨[], body⟩ =
        (.ok (), start env .empty types) := rfl
    have houtcome : outcome ⟨env, .empty, types⟩ o ⟨[], body⟩ = (.ok (v.core, t), s) := by
      rw [outcome_eq, hdeclared]
      exact hrun
    have hcore : (finish s v.core t).core = v.core := hdata.mapTypes_core _
    have ht : t.Simple True := (hfound.known t List.mem_cons_self).simple
    refine Or.inr ⟨_, finish s v.core t, s.events.reverse, hparse, ?_, ⟨θ, ?_⟩, ?_⟩
    · rw [Check.program, houtcome]
      rfl
    · have hsimple := hadv.unkinded.proper.triangular.simple
      exact (hsimple.apply ht).ground_erase.trans
        ((hadv.solved.binding.ground_apply hsimple ht).trans hground)
    · intro m limits scope hfuel hdepth
      exact ⟨v, by rw [hcore, hdata.evaluate m hfuel hdepth], hdata.equal?_self⟩
  · exact Or.inl ⟨e, hparse, he⟩

/-- A value in which a negative number, escapes and nested forms have to be read back. -/
def nestedData : Value :=
  .construct "Some" [.tuple [.int (-1), .string "a\t\"b\"", .record [("x", .list [.bool true])]]]

def nestedDataTy : GroundTy :=
  .product [.base .int, .base .string, .record [("x", .list (.base .bool))]]

theorem isData_nestedData :
    nestedData.IsData initialVariantEnv (.variant "option" [nestedDataTy]) := by
  have hlist : (Value.list [.bool true]).IsData initialVariantEnv (.list (.base .bool)) :=
    .list (List.forall_mem_singleton.2 (.bool true))
  have hrecord : (Value.record [("x", .list [.bool true])]).IsData initialVariantEnv
      (.record [("x", .list (.base .bool))]) :=
    .record (List.pairwise_singleton ..) rfl (List.forall_mem_singleton.2 hlist)
  have htuple : (Value.tuple [.int (-1), .string "a\t\"b\"",
      .record [("x", .list [.bool true])]]).IsData initialVariantEnv nestedDataTy :=
    .tuple rfl (by simpa using ⟨.int _, .string _, hrecord⟩)
  have hctor : initialVariantEnv.constructor? "Some" =
      some ⟨"option", [4], [.var 4 Primitive.range]⟩ := rfl
  exact .construct (fun _ => nestedDataTy) hctor rfl (List.forall_mem_singleton.2 htuple)

theorem writable_nestedData : nestedData.Writable := by
  have hlist : (Value.list [.bool true]).Writable := .list (List.forall_mem_singleton.2 (.bool true))
  have hrecord : (Value.record [("x", .list [.bool true])]).Writable :=
    .record (List.forall_mem_singleton.2 ⟨_, _, rfl, rfl⟩) (List.forall_mem_singleton.2 hlist)
  have hstring : (Value.string "a\t\"b\"").Writable := .string (by decide +kernel)
  refine .construct ⟨_, _, rfl, rfl⟩ (List.forall_mem_singleton.2 (.tuple (by decide) ?_))
  simpa using ⟨.int _, hstring, hrecord⟩

theorem printed_data_evaluates_nestedData :
    initialVariantEnv.Reached ∧
      nestedData.IsData initialVariantEnv (.variant "option" [nestedDataTy]) ∧ nestedData.Writable ∧
      ∃ tokens p checked events, Token.lex (nestedData.print #[]) = .ok tokens ∧
        Program.ofTokens tokens = .ok p ∧
        Check.program initialEnvironments {} p = (.ok checked, events) ∧
        ∃ w, ((Machine.start false).evaluate {} initialScope checked.core).1 = .ok w ∧
          nestedData.equal? w = some true := by
  refine ⟨.initial, isData_nestedData, writable_nestedData, ?_⟩
  obtain ⟨tokens, hlex, hread⟩ := printed_data_evaluates .initial isData_nestedData
    writable_nestedData #[] initialTypeEnv {}
  have hparses : (Token.lex (nestedData.print #[])).toOption.map
      (fun tokens => (Program.ofTokens tokens).isOk) = some true := by decide +kernel
  rw [hlex] at hparses
  rcases hread with ⟨e, herror, -⟩ | ⟨p, checked, events, hparse, hcheck, -, heval⟩
  · rw [Except.toOption, Option.map_some, herror] at hparses
    cases hparses
  · obtain ⟨w, hw, hequal⟩ := heval (.start false) {} initialScope rfl (by decide)
    exact ⟨tokens, p, checked, events, hlex, hparse, hcheck, w, by rw [hw], hequal⟩

/-- A string with a single quote, which is printed by an escape that program text has not. -/
theorem printed_quote_unreadable :
    initialVariantEnv.Reached ∧ (Value.string "it's").IsData initialVariantEnv (.base .string) ∧
      ∀ tokens, Token.lex ((Value.string "it's").print #[]) ≠ .ok tokens := by
  refine ⟨.initial, .string _, fun tokens htokens => ?_⟩
  have hlegible : Text.Legible "it's" := Token.lex_quoted_iff.1 ⟨tokens, htokens⟩
  exact absurd hlegible (by decide +kernel)

end FieldML
