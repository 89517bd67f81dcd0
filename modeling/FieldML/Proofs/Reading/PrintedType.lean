import FieldML.Proofs.Check.Coverage
import FieldML.Proofs.Reading.TypeMeaning

/-!
# Printed types are read back

A type that is printed, read and understood as an annotation is the same type but for its variables,
of which different ones stay different. So types that are printed alike differ in nothing else.
-/

open FieldML.Check

namespace FieldML

/-- The second type is the first one with other variables, of which different ones stay different. -/
def Ty.RenamesTo (t u : Ty) : Prop :=
  ∃ ρ : TypeVar → TypeVar, Set.InjOn ρ {v | v ∈ t.freeVars} ∧ u.erase = (t.rename ρ).erase

/-- The type that the tokens are read as. -/
def TypeExpr.ofTokens (tokens : List Token) : Except ParseError TypeExpr :=
  Parser.ofTokens Parser.type tokens

section Renaming

variable {syn : Prop} {ρ σ : TypeVar → TypeVar} {t u : Ty}

/-- Two types with the same renaming are renamings of each other. -/
theorem Ty.Simple.renamesTo (ht : t.Simple syn) (hu : u.Simple syn)
    (hρ : Set.InjOn ρ {v | v ∈ t.freeVars}) (hσ : Set.InjOn σ {v | v ∈ u.freeVars})
    (h : (t.rename ρ).erase = (u.rename σ).erase) : t.RenamesTo u := by
  have hvars : (t.rename ρ).freeVars = (u.rename σ).freeVars := by
    rw [← Ty.freeVars_erase (t.rename ρ), h, Ty.freeVars_erase]
  let back := Function.invFunOn σ {v | v ∈ u.freeVars}
  have hback : ∀ v ∈ u.freeVars, back (σ v) = v := fun v hv => hσ.leftInvOn_invFunOn hv
  have hexists : ∀ v ∈ t.freeVars, ∃ w ∈ u.freeVars, ρ v = σ w := fun v hv =>
    hu.exists_of_mem_freeVars_rename (hvars ▸ ht.mem_freeVars_rename hv)
  refine ⟨fun v => back (ρ v), fun v hv w hw heq => ?_, ?_⟩
  · obtain ⟨v', hv', hρv⟩ := hexists v hv
    obtain ⟨w', hw', hρw⟩ := hexists w hw
    dsimp only at heq
    rw [hρv, hρw, hback v' hv', hback w' hw'] at heq
    exact hρ hv hw (hρv.trans ((congrArg σ heq).trans hρw.symm))
  · have hself : (u.rename σ).rename back = u :=
      hu.rename_rename.trans (hu.mapVars_eq_self fun v hv r => congrArg (Ty.var · r) (hback v hv))
    calc u.erase = ((u.rename σ).rename back).erase := by rw [hself]
      _ = ((t.rename ρ).rename back).erase := by rw [erase_rename, ← h, ← erase_rename]
      _ = (t.rename fun v => back (ρ v)).erase := by rw [ht.rename_rename]

end Renaming

namespace Ty.Readable

variable {s : CheckState} {o : CheckOptions} {t u : Ty}

/-- What a type is printed as is read as that type. -/
theorem text_written {env : VariantEnv} (ht : t.Readable env) :
    ∃ tokens, Token.lex t.text = .ok tokens ∧ Parser.ReadsAs (TypeExpr.ofTokens tokens)
      (t.Written (TypeNames.labelOf (TypeNames.addAll [] t.freeVars))) := by
  obtain ⟨text, ws, hprint, hwrites, hreads⟩ := ht.prints .arrow [] List.prefix_rfl
  have htext : t.text = text := congrArg Prod.fst hprint
  rw [htext]
  exact Parser.reads_text (fun n s hs => Parser.shortens_type (Parser.enough_grammar _) (by omega))
    hwrites fun n => hreads n [] (by decide) (by decide) (by decide)

theorem annotation_of_written (hs : s.Ready []) (hreg : s.variants.Registered)
    (ht : t.Readable s.variants) {e : TypeExpr}
    (he : t.Written (TypeNames.labelOf (TypeNames.addAll [] t.freeVars)) e) :
    ∃ u s' ρ, annotation e o s = (.ok u, s') ∧ Set.InjOn ρ {v | v ∈ t.freeVars} ∧
      u.erase = (t.rename ρ).erase := by
  obtain ⟨u, scope, hrun, -, heq⟩ := ht.meansType (o := o) hs hreg he [] ⟨[], true⟩
    List.prefix_rfl ⟨rfl, List.forall_mem_nil _, fun _ _ _ => rfl⟩
  have hrun' : annotation e o s = (.ok u, s.skip (TypeNames.addAll [] t.freeVars).length) := by
    unfold annotation
    rw [bind_apply, show s = s.skip ([] : TypeNames).length from rfl, hrun]
    rfl
  refine ⟨u, _, _, hrun', fun v hv w _ hvw => ?_, heq⟩
  exact (List.idxOf_inj (TypeNames.mem_addAll hv)).1 (Nat.add_left_cancel hvw)

end Ty.Readable

/-- The text of a type over declared types is one of a type, and as an annotation it means the type
with other variables, unless it is nested too deeply for the parser. Then types with the same text
are renamings of each other. -/
theorem printed_type_reads_back {s : CheckState} {t : Ty} (o : CheckOptions) (hs : s.Ready [])
    (hreg : s.variants.Registered) (ht : t.Readable s.variants) :
    ∃ tokens, Token.lex t.text = .ok tokens ∧ Parser.ReadsAs (TypeExpr.ofTokens tokens) fun e =>
      (∃ u s', annotation e o s = (.ok u, s') ∧ t.RenamesTo u) ∧
        ∀ t' : Ty, t'.Readable s.variants → t'.text = t.text → t.RenamesTo t' := by
  obtain ⟨tokens, hlex, hread⟩ := ht.text_written
  refine ⟨tokens, hlex, hread.mono fun e hparse he => ?_⟩
  obtain ⟨u, s', ρ, hrun, hρ, hu⟩ := ht.annotation_of_written (o := o) hs hreg he
  refine ⟨⟨u, s', hrun, ρ, hρ, hu⟩, fun t' ht' htext => ?_⟩
  obtain ⟨tokens', hlex', hread'⟩ := ht'.text_written
  obtain rfl : tokens = tokens' := by
    rw [htext, hlex] at hlex'
    exact Except.ok.inj hlex'
  rw [hparse] at hread'
  obtain ⟨u', s'', σ, hrun', hσ, hu'⟩ := ht'.annotation_of_written (o := o) hs hreg hread'
  obtain rfl : u = u' := by
    rw [hrun] at hrun'
    exact Except.ok.inj (congrArg Prod.fst hrun')
  have henv := hs.wf.variants.toWf
  exact (ht.simple henv).renamesTo (ht'.simple henv) hρ hσ (hu.symm.trans hu')

/-- The declaration of a synonym for pairs. -/
def pairDecl : TypeDecl :=
  .synonym [⟨"a", .erased⟩, ⟨"b", .erased⟩] ⟨"pair", .erased⟩
    (.product [.var ⟨"a", .erased⟩, .var ⟨"b", .erased⟩] .erased) .erased

/-- The state after its declaration. -/
def pairStart : CheckState := (declareGroup [pairDecl] {} optionStart).2

theorem ready_pairStart : pairStart.Ready [] where
  wf := (declares_declareGroup (o := {}) wf_optionStart [pairDecl]).2.1
  declared := by decide
  held := List.forall_mem_nil _

/-- A function between types of all other forms. -/
def nestedType : Ty :=
  .func (.list (.func (.var 20 .erased) (.var 21 .erased) .erased) .erased)
    (.record [("x", .synonym "pair" [.var 21 .erased, .variant "option" [.var 20 .erased] .erased]
        (.product [.var 21 .erased, .variant "option" [.var 20 .erased] .erased] .erased) .erased),
      ("y", .product [.product [.var 21 .erased, .var 22 .erased] .erased, .base .int .erased]
        .erased)] .erased) .erased

example : nestedType.text =
    "('a -> 'b) list -> \x7bx : ('b, 'a option) pair, y : ('b * 'c) * int\x7d" := by
  decide

theorem readable_nestedType : nestedType.Readable pairStart.variants := by
  have hvar : ∀ v : TypeVar, (Ty.var v .erased).Readable pairStart.variants := fun v => .var v .erased
  have hoption : (Ty.variant "option" [.var 20 .erased] .erased).Readable pairStart.variants :=
    .variant ⟨_, _, rfl, rfl⟩ rfl (by simpa using hvar 20)
  have hdef : pairStart.variants.definition? "pair" =
      some (.synonym [5, 6] (.product [.var 5 .erased, .var 6 .erased] .erased)) := rfl
  have hpair : (Ty.synonym "pair" [.var 21 .erased, .variant "option" [.var 20 .erased] .erased]
      (.product [.var 21 .erased, .variant "option" [.var 20 .erased] .erased] .erased)
      .erased).Readable pairStart.variants := by
    refine .synonym ⟨_, _, rfl, rfl⟩ rfl (fun params body hd => ?_) (by simp [hvar, hoption])
    obtain ⟨rfl, -⟩ := TypeDefinition.synonym.inj (Option.some.inj (hdef.symm.trans hd))
    unfold ApartFrom
    decide
  have hproduct : (Ty.product [.product [.var 21 .erased, .var 22 .erased] .erased,
      .base .int .erased] .erased).Readable pairStart.variants := by
    have hinner : (Ty.product [.var 21 .erased, .var 22 .erased] .erased).Readable
        pairStart.variants := .product .erased (by decide) (by simp [hvar])
    have hint : (Ty.base .int .erased).Readable pairStart.variants := .base .int .erased
    exact .product .erased (by decide) (by simp [hinner, hint])
  have hx : Token.Spells .ident "x" := ⟨_, _, rfl, rfl⟩
  have hy : Token.Spells .ident "y" := ⟨_, _, rfl, rfl⟩
  exact .func .erased (.list .erased (.func .erased (hvar 20) (hvar 21)))
    (.record .erased (by decide) (by simp [hx, hy]) (by simp [hpair, hproduct]))

/-- The text of the type is read, and as an annotation it means the type again. -/
theorem printed_type_reads_back_nestedType :
    nestedType.Readable pairStart.variants ∧ ∃ tokens e u s',
      Token.lex nestedType.text = .ok tokens ∧ TypeExpr.ofTokens tokens = .ok e ∧
        annotation e {} pairStart = (.ok u, s') ∧ nestedType.RenamesTo u := by
  obtain ⟨tokens, hlex, hread⟩ := printed_type_reads_back {} ready_pairStart
    (.declareGroup {} [pairDecl] .initial) readable_nestedType
  have hshallow : ((Token.lex nestedType.text).toOption.bind fun tokens =>
      (TypeExpr.ofTokens tokens).toOption).isSome = true := by
    decide +kernel
  rw [hlex] at hshallow
  cases hparse : TypeExpr.ofTokens tokens with
  | error e =>
      rw [Except.toOption, Option.bind_some, hparse] at hshallow
      cases hshallow
  | ok e =>
      rw [hparse] at hread
      obtain ⟨⟨u, s', hrun, hrenames⟩, -⟩ := hread
      exact ⟨readable_nestedType, tokens, e, u, s', hlex, hparse, hrun, hrenames⟩

/-! ### References -/

/-- The word for references is an operator, so that it is left over after a type. -/
theorem reference_left_over {env : VariantEnv} {t : Ty} (ht : t.Readable env) (r : Range) :
    ∃ tokens, Token.lex (Ty.ref t r).text = .ok tokens ∧
      ∀ e, TypeExpr.ofTokens tokens ≠ .ok e := by
  obtain ⟨text, ws, hprint, hwrites, hreads⟩ := ht.prints .applied [] List.prefix_rfl
  have htext : (Ty.ref t r).text = text ++ " " ++ "ref" := by
    rw [Ty.text, Ty.print, Ty.printer_bind, hprint, String.append_assoc]
    rfl
  have hword : Token.Writes "ref" [(.keyword, "ref")] :=
    Token.writes_name ⟨_, _, rfl, rfl⟩ (Or.inr (Or.inr rfl))
  obtain ⟨tokens, hlex, hwords⟩ := Parser.exists_tokens (hwrites.spaced hword)
  rw [htext]
  exact ⟨tokens, hlex, fun e => Parser.ofTokens_ne_ok hwords (by decide)
    (fun n => hreads.product.arrow n _ (by decide) (by decide) (by decide)) e⟩

def referenceType : Ty := .ref (.base .int .erased) .erased

/-- The text of a reference has tokens, but they are not read as a type, which is not for their
nesting. -/
theorem reference_left_over_int : referenceType.text = "int ref" ∧ ∃ tokens fault,
    Token.lex referenceType.text = .ok tokens ∧ TypeExpr.ofTokens tokens = .error fault ∧
      fault.cause = .leftOver (some "ref") := by
  let place (column : Nat) : Position := ⟨1, column⟩
  have hlex : Token.lex referenceType.text = .ok [⟨.ident, "int", .source (place 1) (place 4)⟩,
      ⟨.keyword, "ref", .source (place 5) (place 8)⟩,
      ⟨.eof, "", .source (place 8) (place 8)⟩] := by
    decide +kernel
  exact ⟨by decide, _, _, hlex, rfl, rfl⟩

end FieldML
