import FieldML.Proofs.Check.Register
import FieldML.Proofs.Typing.Declare

/-!
# Signatures of programs

Where no synonyms are declared, the declarations of a program are accepted if and only if they lead
to a signature by the rules, and then that is the signature of what is declared.
-/

namespace FieldML

open Check

namespace Check

variable {α β γ ρ : Type} {m : Check α} {f : α → Check γ} {x : Option β} {g : β → Option ρ}
  {o : CheckOptions} {s : CheckState} {R R' : α → CheckState → β → Prop}
  {Q : γ → CheckState → ρ → Prop}

/-- A part of a check succeeds if and only if there is an answer, and what comes of it is then
related to the answer. -/
def Answers (m : Check α) (o : CheckOptions) (s : CheckState) (x : Option β)
    (R : α → CheckState → β → Prop) : Prop :=
  match m o s, x with
  | (.ok a, s'), some b => R a s' b
  | (.error _, _), none => True
  | _, _ => False

namespace Answers

theorem bind (hm : Answers m o s x R) (hf : ∀ a s' b, R a s' b → Answers (f a) o s' (g b) Q) :
    Answers (m >>= f) o s (x >>= g) Q := by
  unfold Answers at hm ⊢
  rw [bind_apply]
  rcases hrun : m o s with ⟨e | a, s'⟩ <;> rw [hrun] at hm <;> rcases x with _ | b
  · trivial
  · exact hm.elim
  · exact hm.elim
  · exact hf a s' b hm

theorem mono (hm : Answers m o s x R) (h : ∀ a s' b, R a s' b → R' a s' b) :
    Answers m o s x R' := by
  unfold Answers at hm ⊢
  rcases hrun : m o s with ⟨e | a, s'⟩ <;> rw [hrun] at hm <;> rcases x with _ | b
  · trivial
  · exact hm.elim
  · exact hm.elim
  · exact h a s' b hm

theorem pure {a : α} {b : β} (h : R a s b) : Answers (Pure.pure a : Check α) o s (some b) R := h

theorem fail (cause : TypeError.Cause) (range : Range) :
    Answers (Check.fail cause range : Check α) o s none R := trivial

theorem elim (hm : Answers m o s x R) :
    (∃ a s' b, m o s = (.ok a, s') ∧ x = some b ∧ R a s' b) ∨
      ∃ e s', m o s = (.error e, s') ∧ x = none := by
  unfold Answers at hm
  rcases hrun : m o s with ⟨e | a, s'⟩ <;> rw [hrun] at hm <;> rcases x with _ | b
  · exact .inr ⟨e, s', rfl, rfl⟩
  · exact hm.elim
  · exact hm.elim
  · exact .inl ⟨a, s', b, rfl, rfl, hm⟩

/-- What is known of the outcome besides. -/
theorem and {P : α → CheckState → Prop} (hm : Answers m o s x R)
    (h : ∀ a s', m o s = (.ok a, s') → P a s') :
    Answers m o s x fun a s' b => R a s' b ∧ P a s' := by
  unfold Answers at hm ⊢
  rcases hrun : m o s with ⟨e | a, s'⟩ <;> rw [hrun] at hm <;> rcases x with _ | b
  · trivial
  · exact hm.elim
  · exact hm.elim
  · exact ⟨hm, h a s' hrun⟩

theorem mapM {f : α → Check γ} {g : β → Option ρ} {R : γ → ρ → Prop} {P : CheckState → Prop}
    {E : α → β → Prop} {as : List α} {bs : List β} (h : List.Forall₂ E as bs)
    (hf : ∀ a b s, E a b → P s → Answers (f a) o s (g b) fun c s' d => R c d ∧ P s') (hs : P s) :
    Answers (as.mapM f) o s (bs.mapM g) fun cs s' ds => List.Forall₂ R cs ds ∧ P s' := by
  induction h generalizing s with
  | nil => exact .pure ⟨.nil, hs⟩
  | cons hab _ ih =>
      rw [List.mapM_cons, List.mapM_cons]
      exact (hf _ _ s hab hs).bind fun c s₁ d ⟨hcd, hs₁⟩ =>
        (ih hs₁).bind fun cs s₂ ds ⟨hrest, hs₂⟩ => .pure ⟨.cons hcd hrest, hs₂⟩

theorem forM {f : α → Check PUnit} {g : ρ → β → Option ρ} {R : CheckState → ρ → Prop}
    {E : α → β → Prop} {as : List α} {bs : List β} {c : ρ} (h : List.Forall₂ E as bs)
    (hf : ∀ a b s c, E a b → R s c → Answers (f a) o s (g c b) fun _ s' c' => R s' c')
    (hs : R s c) : Answers (as.forM f) o s (bs.foldlM g c) fun _ s' c' => R s' c' := by
  induction h generalizing s c with
  | nil => exact .pure hs
  | cons hab _ ih => exact (hf _ _ s c hab hs).bind fun _ s₁ c₁ hs₁ => ih hs₁

theorem foldlM {f : γ → α → Check γ} {g : ρ → α → Option ρ} {R : γ → CheckState → ρ → Prop}
    {as : List α} {c : γ} {d : ρ}
    (hf : ∀ a c s d, R c s d → Answers (f c a) o s (g d a) R) (hs : R c s d) :
    Answers (as.foldlM f c) o s (as.foldlM g d) R := by
  induction as generalizing s c d with
  | nil => exact .pure hs
  | cons a as ih => exact (hf a c s d hs).bind fun c₁ s₁ d₁ hs₁ => ih hs₁

end Answers

end Check

/-- Only variants are declared, and none has the name of a type that needs no declaration. -/
structure VariantEnv.OnlyVariants (env : VariantEnv) : Prop where
  noSynonym : ∀ name params body, env.definition? name ≠ some (.synonym params body)
  reserves : env.Reserves

namespace VariantEnv

variable {env env' : VariantEnv} {name variant : String} {params : List TypeVar} {args : List Ty}
  {range : Range}

theorem OnlyVariants.define (h : env.OnlyVariants)
    (hok : env.define name (.variant params []) range = .ok env') : env'.OnlyVariants where
  noSynonym other params' body hdef := by
    rw [definition?_define hok] at hdef
    split at hdef
    · cases hdef
    · exact h.noSynonym other params' body hdef
  reserves := h.reserves.define hok

theorem OnlyVariants.addConstructor (h : env.OnlyVariants)
    (hok : env.addConstructor variant name args range = .ok env') : env'.OnlyVariants where
  noSynonym other params' body hdef := by
    obtain ⟨-, params, ctors, -, hdefs, -⟩ := addConstructor_eq_ok hok
    rw [hdefs] at hdef
    split at hdef
    · cases hdef
    · exact h.noSynonym other params' body hdef
  reserves := h.reserves.addConstructor hok

theorem signature_define (hok : env.define name (.variant params []) range = .ok env') :
    env'.signature = { env.signature with
      arity? := Function.update env.signature.arity? name (some params.length) } := by
  simp only [signature, constructor?_define hok, Signature.mk.injEq, and_true]
  funext other
  rw [definition?_define hok, Function.update_apply]
  by_cases heq : name = other
  · subst heq
    simp [TypeDefinition.params]
  · rw [if_neg heq, if_neg (Ne.symm heq)]

theorem signature_addConstructor {ctors : List String}
    (hdef : env.definition? variant = some (.variant params ctors))
    (hok : env.addConstructor variant name args range = .ok env') :
    env'.signature = { env.signature with
      ctor? := Function.update env.signature.ctor? name
        (some (Constructor.type ⟨variant, params, args⟩)) } := by
  obtain ⟨-, params', ctors', hdef', hdefs, hctors⟩ := addConstructor_eq_ok hok
  obtain ⟨rfl, rfl⟩ := TypeDefinition.variant.inj (Option.some.inj (hdef.symm.trans hdef'))
  simp only [signature, Signature.mk.injEq]
  constructor
  · funext other
    rw [hdefs]
    by_cases heq : variant = other
    · subst heq
      simp [hdef, TypeDefinition.params]
    · rw [if_neg heq]
  · funext other
    rw [hctors, Function.update_apply]
    by_cases heq : name = other
    · subst heq
      simp
    · rw [if_neg heq, if_neg (Ne.symm heq)]

end VariantEnv

/-! ### Written types -/

/-- What is known of a name: which variable it stands for if it is one of the parameters. -/
def Names (vars : List TypeVar) (params : List String) (names : List (String × Ty)) : Prop :=
  ∀ name, (name ∉ params ∧ Fields.get? names name = none) ∨
    (name ∈ params ∧ ∃ v r, vars[params.idxOf name]? = some v ∧
      Fields.get? names name = some (.var v r))

/-- The types that the parameters stand for by the rules. -/
def ofPlace (vars : List TypeVar) : Instantiation := fun v => .var (vars.idxOf v)

variable {sig : Signature} {vars : List TypeVar} {params : List String} {names : List (String × Ty)}
  {o : CheckOptions} {s : CheckState} {t : Ty} {τ : MonoTy}

theorem Signature.named?_eq {name : String} (hname : name ∉ VariantEnv.builtinNames)
    (τs : List MonoTy) : sig.named? name τs =
      if sig.arity? name = some τs.length then some (.variant name τs) else none := by
  unfold named?
  split
  case h_7 => rfl
  all_goals exact absurd (by decide) hname

namespace Check

theorem answers_typeVariable (hvars : vars.Nodup) (hnames : Names vars params names)
    (name : Ident) :
    Answers (typeVariable name ⟨names, false⟩) o s
      ((TypeExpr.var name).mono? sig params) fun r s' τ =>
        r.1.mono (ofPlace vars) = τ ∧ r.2 = ⟨names, false⟩ ∧ s' = s := by
  unfold typeVariable TypeExpr.mono?
  rcases hnames name.text with ⟨hnot, hget⟩ | ⟨hmem, v, r, hv, hget⟩
  · simp only [hget, if_neg hnot, Bool.false_eq_true, if_false]
    exact .fail _ _
  · simp only [hget, if_pos hmem]
    refine .pure ⟨?_, rfl, rfl⟩
    obtain ⟨hlt, rfl⟩ := List.getElem?_eq_some_iff.1 hv
    rw [Ty.mono_withRange, Ty.mono_var, ofPlace, hvars.idxOf_getElem]

theorem fail_apply (cause : TypeError.Cause) (range : Range) :
    (fail cause range : Check Ty) o s = (.error ⟨cause, range⟩, s) :=
  rfl

/-- A name means the same with arguments that mean the same. -/
theorem answers_namedType (hs : s.variants.OnlyVariants) (σ : Instantiation) (name : Ident)
    (args : List Ty) (range : Range) :
    Answers (namedType name args range) o s
      (s.variants.signature.named? name.text (Ty.monos σ args)) fun t s' τ =>
        t.mono σ = τ ∧ s' = s := by
  by_cases hname : name.text ∈ VariantEnv.builtinNames
  · have harity : s.variants.signature.arity? name.text = none := by
      simp only [VariantEnv.signature, hs.reserves _ hname, Option.map_none]
    obtain ⟨text, place⟩ := name
    simp only [VariantEnv.builtinNames, List.mem_cons, List.not_mem_nil, or_false] at hname
    rcases hname with rfl | rfl | rfl | rfl | rfl | rfl <;>
      rcases args with _ | ⟨t, _ | ⟨u, args⟩⟩ <;>
      simp [Answers, namedType, baseType?, unaryType?, Signature.named?, harity, fail_apply]
  · have hrun : namedType name args range o s =
        liftVariant (s.variants.resolve name.text args range) o s := by
      unfold namedType
      simp only [baseType?_eq_none hname, unaryType?_eq_none hname, bind_apply, get_apply]
    have harity : s.variants.signature.arity? name.text =
        (s.variants.definition? name.text).map fun d => d.params.length := rfl
    unfold Answers
    rw [hrun, Signature.named?_eq hname, harity]
    unfold VariantEnv.resolve
    rcases hdef : s.variants.definition? name.text with _ | ⟨params, ctors⟩ | ⟨params, body⟩
    · trivial
    · simp only [Option.map_some, Option.some.injEq, TypeDefinition.params, Ty.monos,
        List.length_map]
      by_cases hlength : params.length = args.length
      · simp only [hlength, ne_eq, not_true, if_false, if_true, liftVariant]
        exact ⟨Ty.mono_variant _ _ _, rfl⟩
      · simp only [hlength, ne_eq, not_false_iff, if_true, if_false, liftVariant]
        trivial
    · exact absurd hdef (hs.noSynonym _ _ _)

end Check

/-- The types of some fields added to those of other fields, unless a name occurs twice. -/
def TypeExpr.addFields? (sig : Signature) (params : List String) (before : List (String × MonoTy))
    (fields : List (Ident × TypeExpr)) : Option (List (String × MonoTy)) := do
  let τs ← TypeExpr.monoFields? sig params fields
  let names := fields.map (·.1.text)
  if names.Nodup ∧ ∀ name ∈ names, name ∉ Fields.names before then
    some ((names.zip τs).foldl (fun fields entry => Fields.insert entry.1 entry.2 fields) before)
  else none

namespace TypeExpr

variable {before : List (String × MonoTy)} {name : Ident} {e : TypeExpr}
  {fields : List (Ident × TypeExpr)}

theorem addFields?_cons : addFields? sig params before ((name, e) :: fields) = (do
    let τ ← e.mono? sig params
    if name.text ∈ Fields.names before then none
    else addFields? sig params (Fields.insert name.text τ before) fields) := by
  unfold addFields?
  rw [monoFields?]
  rcases e.mono? sig params with _ | τ
  · rfl
  rcases monoFields? sig params fields with _ | τs
  · by_cases hname : name.text ∈ Fields.names before <;> simp [hname]
  by_cases hname : name.text ∈ Fields.names before
  · simp [hname]
  · have hdistinct : ∀ names : List String,
        ((name.text :: names).Nodup ∧ ∀ n ∈ name.text :: names, n ∉ Fields.names before) ↔
          names.Nodup ∧ ∀ n ∈ names, n ∉ Fields.names (Fields.insert name.text τ before) := by
      intro names
      simp only [List.nodup_cons, List.forall_mem_cons, Fields.mem_names_insert, not_or,
        hname, not_false_iff, true_and]
      grind
    exact (if_congr (hdistinct _) rfl rfl).trans (if_neg hname).symm

theorem mono?_record (range : Range) :
    mono? sig params (.record fields range) = (do
      return .record (← addFields? sig params [] fields)) := by
  rw [mono?, addFields?]
  rcases monoFields? sig params fields with _ | τs
  · rfl
  · by_cases hnodup : (fields.map (·.1.text)).Nodup <;> simp [hnodup, Fields.ofList, Fields.names]

end TypeExpr

namespace Check

mutual

/-- A type that is written in a declaration means what it means by the rules. -/
theorem answers_typeExpr {s : CheckState} (hs : s.variants.OnlyVariants)
    (hvars : vars.Nodup) (hnames : Names vars params names) (e : TypeExpr) :
    Answers (typeExpr ⟨names, false⟩ e) o s (e.mono? s.variants.signature params) fun r s' τ =>
      r.1.mono (ofPlace vars) = τ ∧ r.2 = ⟨names, false⟩ ∧ s' = s := by
  match e with
  | .var name => exact answers_typeVariable hvars hnames name
  | .named args name range =>
      rw [typeExpr, TypeExpr.mono?]
      refine (answers_typeExprs hs hvars hnames args).bind ?_
      rintro ⟨ts, _⟩ s _ ⟨rfl, rfl, rfl⟩
      rw [← bind_pure (s.variants.signature.named? name.text _)]
      refine (answers_namedType hs (ofPlace vars) name ts range).bind ?_
      rintro t s _ ⟨rfl, rfl⟩
      exact .pure ⟨rfl, rfl, rfl⟩
  | .func param result range =>
      rw [typeExpr, TypeExpr.mono?]
      refine (answers_typeExpr hs hvars hnames param).bind ?_
      rintro ⟨t, _⟩ s _ ⟨rfl, rfl, rfl⟩
      refine (answers_typeExpr hs hvars hnames result).bind ?_
      rintro ⟨u, _⟩ s _ ⟨rfl, rfl, rfl⟩
      exact .pure ⟨rfl, rfl, rfl⟩
  | .product items range =>
      rw [typeExpr, TypeExpr.mono?]
      refine (answers_typeExprs hs hvars hnames items).bind ?_
      rintro ⟨ts, _⟩ s _ ⟨rfl, rfl, rfl⟩
      exact .pure ⟨Ty.mono_product ts range, rfl, rfl⟩
  | .record fields range =>
      rw [typeExpr, TypeExpr.mono?_record]
      refine (answers_typeExprFields hs hvars hnames [] fields).bind ?_
      rintro ⟨fs, _⟩ s _ ⟨rfl, rfl, rfl⟩
      exact .pure ⟨Ty.mono_record fs range, rfl, rfl⟩

theorem answers_typeExprs {s : CheckState} (hs : s.variants.OnlyVariants)
    (hvars : vars.Nodup) (hnames : Names vars params names) (es : List TypeExpr) :
    Answers (typeExprs ⟨names, false⟩ es) o s
      (TypeExpr.monoList? s.variants.signature params es) fun r s' τs =>
        Ty.monos (ofPlace vars) r.1 = τs ∧ r.2 = ⟨names, false⟩ ∧ s' = s := by
  match es with
  | [] => exact .pure ⟨rfl, rfl, rfl⟩
  | e :: es =>
      rw [typeExprs, TypeExpr.monoList?]
      refine (answers_typeExpr hs hvars hnames e).bind ?_
      rintro ⟨t, _⟩ s _ ⟨rfl, rfl, rfl⟩
      refine (answers_typeExprs hs hvars hnames es).bind ?_
      rintro ⟨ts, _⟩ s _ ⟨rfl, rfl, rfl⟩
      exact .pure ⟨rfl, rfl, rfl⟩

theorem answers_typeExprFields {s : CheckState} (hs : s.variants.OnlyVariants)
    (hvars : vars.Nodup) (hnames : Names vars params names) (before : List (String × Ty))
    (fields : List (Ident × TypeExpr)) :
    Answers (typeExprFields ⟨names, false⟩ before fields) o s
      (TypeExpr.addFields? s.variants.signature params
        (before.map fun p => (p.1, p.2.mono (ofPlace vars))) fields) fun r s' fs =>
        r.1.map (fun p => (p.1, p.2.mono (ofPlace vars))) = fs ∧ r.2 = ⟨names, false⟩ ∧
          s' = s := by
  match fields with
  | [] => exact .pure ⟨rfl, rfl, rfl⟩
  | (name, e) :: fields =>
      rw [typeExprFields, TypeExpr.addFields?_cons]
      refine (answers_typeExpr hs hvars hnames e).bind ?_
      rintro ⟨t, _⟩ s _ ⟨rfl, rfl, rfl⟩
      have hrest := answers_typeExprFields hs hvars hnames (Fields.insert name.text t before) fields
      rw [← Fields.insert_map] at hrest
      dsimp only
      rw [Fields.names_map]
      by_cases hname : name.text ∈ Fields.names before
      · have hsome : (Fields.get? before name.text).isSome = true := by
          rw [Option.isSome_iff_ne_none, ne_eq, Fields.get?_eq_none, not_not]
          exact hname
        simp only [hname, hsome, if_true]
        exact .fail _ _
      · simp only [hname, Fields.get?_eq_none.2 hname, Option.isSome_none, Bool.false_eq_true,
          if_false]
        exact hrest

end

theorem answers_declaredTypes (hs : s.variants.OnlyVariants) (hvars : vars.Nodup)
    (hnames : Names vars params names) (es : List TypeExpr) :
    Answers (es.mapM (declaredType names)) o s
      (TypeExpr.monoList? s.variants.signature params es) fun ts s' τs =>
        Ty.monos (ofPlace vars) ts = τs ∧ s' = s := by
  induction es with
  | nil => exact .pure ⟨rfl, rfl⟩
  | cons e es ih =>
      rw [List.mapM_cons, TypeExpr.monoList?]
      have htype : Answers (declaredType names e) o s (e.mono? s.variants.signature params)
          fun t s' τ => t.mono (ofPlace vars) = τ ∧ s' = s := by
        rw [← bind_pure (e.mono? _ _)]
        refine (answers_typeExpr hs hvars hnames e).bind ?_
        rintro ⟨t, _⟩ s _ ⟨rfl, -, rfl⟩
        exact .pure ⟨rfl, rfl⟩
      refine htype.bind ?_
      rintro t _ _ ⟨rfl, rfl⟩
      refine ih.bind ?_
      rintro ts _ _ ⟨rfl, rfl⟩
      exact .pure ⟨rfl, rfl⟩

end Check

/-! ### Declarations -/

theorem Names.insert (h : Names vars params names) (hlength : vars.length = params.length)
    {name : String} (hname : name ∉ params) (v : TypeVar) (r : Range) :
    Names (vars ++ [v]) (params ++ [name]) (Fields.insert name (.var v r) names) := by
  intro other
  rw [Fields.get?_insert]
  by_cases heq : name = other
  · subst heq
    refine .inr ⟨by simp, v, r, ?_, if_pos rfl⟩
    simp [List.idxOf_append, hname, ← hlength]
  · rw [if_neg heq]
    rcases h other with ⟨hnot, hget⟩ | ⟨hmem, w, r', hw, hget⟩
    · exact .inl ⟨by simp [hnot, Ne.symm heq], hget⟩
    · refine .inr ⟨List.mem_append_left _ hmem, w, r', ?_, hget⟩
      rw [List.idxOf_append_of_mem hmem]
      exact List.getElem?_append_left (List.getElem?_eq_some_iff.1 hw).1 ▸ hw

namespace Check

/-- A declaration of a variant is opened with as many different variables as it has parameters,
which its names stand for. -/
structure OpenDecl.Opens (d : OpenDecl) (decl : TypeDecl) : Prop where
  decl_eq : d.decl = decl
  isVariant : decl.isVariant = true
  nodup : d.params.Nodup
  length : d.params.length = decl.params.length
  names : Names d.params decl.params d.names

/-- Makes a variable for one more parameter. -/
def openParam (before : List TypeVar × List (String × Ty)) (param : Ident) :
    Check (List TypeVar × List (String × Ty)) := do
  let v ← freshId
  if (Fields.get? before.2 param.text).isSome then
    fail (.duplicateBinding s!"'{param.text}") param.range
  else return (v :: before.1, Fields.insert param.text (Ty.var v param.range) before.2)

theorem answers_openParams (idents : List Ident) (before : List TypeVar × List (String × Ty))
    (hparams : params.Nodup) (hlength : before.1.length = params.length)
    (hnames : Names before.1.reverse params before.2) :
    Answers (idents.foldlM openParam before) o s
      (if (params ++ idents.map (·.text)).Nodup then some () else none) fun r s' _ =>
        r.1.length = (params ++ idents.map (·.text)).length ∧
          Names r.1.reverse (params ++ idents.map (·.text)) r.2 ∧ s'.variants = s.variants := by
  induction idents generalizing params before s with
  | nil =>
      simp only [List.map_nil, List.append_nil, if_pos hparams]
      exact .pure ⟨hlength, hnames, rfl⟩
  | cons param idents ih =>
      have hassoc : params ++ (param :: idents).map (·.text) =
          (params ++ [param.text]) ++ idents.map (·.text) := by simp
      rw [List.foldlM_cons, hassoc]
      rcases hnames param.text with ⟨hnot, hget⟩ | ⟨hmem, v, r, -, hget⟩
      · have hmore : (params ++ [param.text]).Nodup :=
          List.nodup_append.2 ⟨hparams, List.nodup_singleton _, fun a ha b hb =>
            List.mem_singleton.1 hb ▸ fun heq => hnot (heq ▸ ha)⟩
        have hnames' : Names (s.next :: before.1).reverse (params ++ [param.text])
            (Fields.insert param.text (.var s.next param.range) before.2) := by
          rw [List.reverse_cons]
          exact hnames.insert (by simpa using hlength) hnot _ _
        have hrest := ih (s := { s with next := s.next + 1 }) (s.next :: before.1, _) hmore
          (by simp [hlength]) hnames'
        unfold Answers at hrest ⊢
        rw [bind_apply, openParam, bind_apply, freshId_apply]
        simp only [hget, Option.isSome_none, Bool.false_eq_true, if_false, pure_apply]
        exact hrest
      · have hdouble : ¬((params ++ [param.text]) ++ idents.map (·.text)).Nodup := fun h =>
          (List.nodup_append.1 h.of_append_left).2.2 _ hmem _ (List.mem_singleton_self _) rfl
        unfold Answers
        rw [bind_apply, openParam, bind_apply, freshId_apply, if_neg hdouble]
        simp only [hget, Option.isSome_some, if_true]
        trivial

theorem answers_declareParams (decl : TypeDecl) (hdecl : decl.isVariant = true) :
    Answers (declareParams decl) o s (if decl.params.Nodup then some decl else none)
      fun d s' decl => d.Opens decl ∧ s'.variants = s.variants := by
  have hopened : Answers (declareParams decl) o s (if decl.params.Nodup then some decl else none)
      fun d s' decl' => decl' = decl ∧ d.decl = decl ∧ d.params.length = decl.params.length ∧
        Names d.params decl.params d.names ∧ s'.variants = s.variants := by
    cases decl with
    | synonym => exact absurd hdecl Bool.false_ne_true
    | variant idents name ctors range =>
        have hanswer : ∀ c : Prop, [Decidable c] →
            (if c then some (TypeDecl.variant idents name ctors range) else none) =
              (if c then some () else none) >>= fun _ =>
                pure (TypeDecl.variant idents name ctors range) := by
          intro c _
          split <;> rfl
        rw [hanswer]
        refine Answers.bind (answers_openParams idents ([], []) List.nodup_nil rfl
          fun name => .inl ⟨List.not_mem_nil, rfl⟩) fun r s' _ ⟨hlength, hnames, hvariants⟩ => ?_
        exact .pure ⟨rfl, rfl, (List.length_reverse).trans hlength, hnames, hvariants⟩
  have hnodup : ∀ d s', declareParams decl o s = (.ok d, s') → d.params.Nodup := fun d s' hrun => by
    have hwf := (idles_declareParams (o := o) (s := s) decl).2
    rw [hrun] at hwf
    exact hwf.nodup
  refine (hopened.and hnodup).mono ?_
  rintro d s' _ ⟨⟨rfl, rfl, hlength, hnames, hvariants⟩, hdistinct⟩
  exact ⟨⟨rfl, hdecl, hdistinct, hlength, hnames⟩, hvariants⟩

theorem answers_setVariants {variants : Except VariantError VariantEnv} {x : Option β}
    {R : Unit → CheckState → β → Prop}
    (hok : ∀ env, variants = .ok env → ∃ b, x = some b ∧ R () { s with variants := env } b)
    (herror : ∀ e, variants = .error e → x = none) :
    Answers (setVariants variants) o s x R := by
  cases variants with
  | error e =>
      rw [herror e rfl]
      trivial
  | ok env =>
      obtain ⟨b, rfl, hb⟩ := hok env rfl
      exact hb

theorem answers_declareVariant {d : OpenDecl} {decl : TypeDecl} (hd : d.Opens decl)
    (hs : s.variants.OnlyVariants) :
    Answers (declareVariant d) o s (s.variants.signature.addType? decl) fun _ s' sig =>
      s'.variants.signature = sig ∧ s'.variants.OnlyVariants := by
  obtain ⟨rfl, hdecl, -, hlength, -⟩ := hd
  obtain ⟨decl, params, names⟩ := d
  cases decl with
  | synonym => exact absurd hdecl Bool.false_ne_true
  | variant idents name ctors range =>
      have hlength : params.length = idents.length := by simpa [TypeDecl.params] using hlength
      rw [declareVariant_variant]
      have hset : Answers
          (setVariants (s.variants.define name.text (.variant params []) name.range)) o s
          (s.variants.signature.addType? (.variant idents name ctors range)) fun _ s' sig =>
            s'.variants.signature = sig ∧ s'.variants.OnlyVariants := by
        have hnone : s.variants.signature.arity? name.text = none ↔
            s.variants.definition? name.text = none := Option.map_eq_none_iff
        refine answers_setVariants (fun env hok => ⟨env.signature, ?_, rfl, hs.define hok⟩)
          fun e herror => ?_
        · have hnew := (VariantEnv.define_eq_ok hok).1
          have hfree : name.text ∉ VariantEnv.builtinNames := by
            intro hmem
            simp [VariantEnv.define, hmem] at hok
          rw [VariantEnv.signature_define hok, Signature.addType?,
            if_pos ⟨hnone.2 hnew, hfree⟩, hlength]
        · refine if_neg fun h => ?_
          obtain ⟨hnew, hfree⟩ := h
          simp [VariantEnv.define, hnone.1 hnew, hfree] at herror
      exact hset

theorem answers_declareConstructors {d : OpenDecl} {decl : TypeDecl} (hd : d.Opens decl)
    (hs : s.variants.OnlyVariants) (hdeclared : d.Declared s) :
    Answers (declareConstructors d) o s (s.variants.signature.addCtors? decl) fun _ s' sig =>
      (s'.variants.signature = sig ∧ s'.variants.OnlyVariants) ∧ s.Declares s' := by
  obtain ⟨rfl, hdecl, hnodup, hlength, hnames⟩ := hd
  obtain ⟨decl, params, names⟩ := d
  cases decl with
  | synonym => exact absurd hdecl Bool.false_ne_true
  | variant idents name ctors range =>
      rw [declareConstructors_variant, Signature.addCtors?]
      obtain ⟨listed, hlisted⟩ := hdeclared
      have hsame : List.Forall₂ Eq ctors ctors := List.forall₂_same.2 fun _ _ => rfl
      refine Answers.forM (R := fun s' sig => (s'.variants.signature = sig ∧
        s'.variants.OnlyVariants) ∧ s.Declares s') hsame ?_ ⟨⟨rfl, hs⟩, .refl s⟩
      rintro ctor _ s₁ _ rfl ⟨⟨rfl, hs₁⟩, h₁⟩
      obtain ⟨more, hmore⟩ := h₁.variants _ _ _ hlisted
      rw [Signature.addCtor?]
      refine (answers_declaredTypes hs₁ hnodup hnames ctor.args).bind ?_
      rintro args s₁ _ ⟨rfl, rfl⟩
      have hnone : s₁.variants.signature.ctor? ctor.name.text = none ↔
          s₁.variants.constructor? ctor.name.text = none := Option.map_eq_none_iff
      refine answers_setVariants (fun env hok => ⟨env.signature, ?_, ⟨rfl, hs₁.addConstructor hok⟩,
        h₁.trans ⟨Nat.le_refl _, VariantEnv.grows_addConstructor hok⟩⟩) fun e herror => ?_
      · rw [VariantEnv.signature_addConstructor hmore hok,
          if_pos (hnone.2 (VariantEnv.addConstructor_eq_ok hok).1), ← hlength]
        rfl
      · refine if_neg fun hnew => ?_
        simp [VariantEnv.addConstructor, hnone.1 hnew, hmore] at herror

theorem Declares.of_run {Q : α → CheckState → Prop} {a : α} {s' : CheckState}
    (hm : Declares m o s Q) (hrun : m o s = (.ok a, s')) : s.Declares s' ∧ s'.Wf ∧ Q a s' := by
  unfold Declares at hm
  rw [hrun] at hm
  exact hm

theorem mapM_ite {group : List TypeDecl} (p : TypeDecl → Prop) [DecidablePred p] :
    group.mapM (fun decl => if p decl then some decl else none) =
      if ∀ decl ∈ group, p decl then some group else none := by
  induction group with
  | nil => rfl
  | cons decl group ih =>
      rw [List.mapM_cons, ih]
      by_cases hdecl : p decl
      · rw [if_pos hdecl]
        by_cases hgroup : ∀ decl ∈ group, p decl
        · rw [if_pos hgroup, if_pos (List.forall_mem_cons.2 ⟨hdecl, hgroup⟩)]
          rfl
        · rw [if_neg hgroup, if_neg fun h => hgroup (List.forall_mem_cons.1 h).2]
          rfl
      · rw [if_neg hdecl, if_neg fun h => hdecl (List.forall_mem_cons.1 h).1]
        rfl

theorem forM_declareSynonym {decls : List OpenDecl} {group : List TypeDecl}
    (h : List.Forall₂ OpenDecl.Opens decls group) :
    (decls.forM declareSynonym : Check PUnit) = pure () := by
  induction h with
  | nil => rfl
  | @cons d decl decls group hd _ ih =>
      obtain ⟨rfl, hdecl, -, -, -⟩ := hd
      obtain ⟨decl, params, names⟩ := d
      cases decl with
      | synonym => exact absurd hdecl Bool.false_ne_true
      | variant =>
          rw [List.forM_eq_forM, List.forM_cons, ← List.forM_eq_forM, ih]
          rfl

/-- A group of variants is accepted if and only if it is in order by the rules. -/
theorem answers_declareGroup {group : List TypeDecl}
    (hgroup : ∀ decl ∈ group, decl.isVariant = true) (hs : s.Wf)
    (hvariants : s.variants.OnlyVariants) :
    Answers (declareGroup group) o s (s.variants.signature.declare? group) fun _ s' sig =>
      s'.variants.signature = sig ∧ s'.variants.OnlyVariants := by
  have hanswer : s.variants.signature.declare? group = (do
      let decls ← group.mapM fun decl => if decl.params.Nodup then some decl else none
      let sig ← decls.foldlM Signature.addType? s.variants.signature
      decls.foldlM Signature.addCtors? sig) := by
    rw [mapM_ite, Signature.declare?]
    split <;> simp
  have hopen : Declares (group.mapM declareParams) o s fun decls _ => True := by
    refine Idles.declares ?_ hs
    refine (idles_mapM (P := fun (d : OpenDecl) s' => d.Wf s'.next) (fun _ _ _ h hidle =>
      h.mono hidle.next) fun decl _ _ _ => idles_declareParams decl).mono fun _ _ _ _ => trivial
  have hsame : List.Forall₂ (fun decl decl' : TypeDecl => decl = decl' ∧ decl.isVariant = true)
      group group := List.forall₂_same.2 fun decl hdecl => ⟨rfl, hgroup decl hdecl⟩
  rw [hanswer]
  refine ((Answers.mapM (R := OpenDecl.Opens) (P := fun s' => s'.variants = s.variants) hsame
    ?opened rfl).and fun decls s' hrun => hopen.of_run hrun).bind ?declared
  case opened =>
    rintro decl _ s₁ ⟨rfl, hdecl⟩ hs₁
    exact (answers_declareParams decl hdecl).mono fun d s' _ ⟨hd, hs'⟩ => ⟨hd, hs'.trans hs₁⟩
  case declared =>
    rintro decls s₁ group ⟨⟨hopens, hvariants₁⟩, -, hs₁, -⟩
    rw [← hvariants₁] at hvariants ⊢
    have hdeclares : Declares (decls.forM declareVariant) o s₁ fun _ s' =>
        ∀ d ∈ decls, d.Declared s' :=
      declares_forM (P := fun d s' => d.Declared s') hs₁ (fun _ _ _ h hdecl => h.mono hdecl)
        fun d _ s₂ _ hs₂ => declares_declareVariant hs₂ d
    refine ((Answers.forM (R := fun s' sig => s'.variants.signature = sig ∧
      s'.variants.OnlyVariants) hopens ?types ⟨rfl, hvariants⟩).and
        fun _ s' hrun => hdeclares.of_run hrun).bind ?ctors
    case types =>
      rintro d decl s₂ _ hd ⟨rfl, hs₂⟩
      exact answers_declareVariant hd hs₂
    case ctors =>
      rintro _ s₂ _ ⟨⟨rfl, hvariants₂⟩, -, -, hdeclared⟩
      rw [forM_declareSynonym hopens, pure_bind, ← bind_pure (group.foldlM Signature.addCtors? _)]
      have hdecls := (List.forall₂_and_left _ _).2 ⟨hdeclared, hopens⟩
      refine (Answers.forM (R := fun s' sig => (s'.variants.signature = sig ∧
        s'.variants.OnlyVariants) ∧ s₂.Declares s') hdecls ?_ ⟨⟨rfl, hvariants₂⟩, .refl s₂⟩).bind
          fun _ s₃ sig ⟨hs₃, _⟩ => ?_
      · rintro d decl s₃ _ ⟨hdeclared, hd⟩ ⟨⟨rfl, hs₃⟩, h₃⟩
        exact (answers_declareConstructors hd hs₃ (hdeclared.mono h₃)).mono
          fun _ s₄ _ ⟨hs₄, h₄⟩ => ⟨hs₄, h₃.trans h₄⟩
      · exact hs₃

end Check

theorem signature_initialVariantEnv : initialVariantEnv.signature = .initial := by
  simp only [VariantEnv.signature, Signature.initial, Signature.mk.injEq]
  constructor
  · funext name
    by_cases h : name = "option"
    · subst h
      rfl
    · simp [initialVariantEnv, VariantEnv.definition?, Fields.get?, h, Ne.symm h]
  · funext name
    by_cases hnone : name = "None"
    · subst hnone
      rfl
    by_cases hsome : name = "Some"
    · subst hsome
      rfl
    · simp [initialVariantEnv, VariantEnv.constructor?, Fields.get?, hnone, Ne.symm hnone, hsome,
        Ne.symm hsome]

theorem onlyVariants_initialVariantEnv : initialVariantEnv.OnlyVariants where
  noSynonym := synonymFree_initialVariantEnv.definitions
  reserves := reserves_initialVariantEnv

/-- The declarations of a program without synonyms are accepted if and only if they are in order by
the rules, and then what is declared has the signature that the rules give it. -/
theorem signature?_eq_some_iff {p : Program}
    (hp : ∀ group ∈ p.groups, ∀ decl ∈ group, decl.isVariant = true) :
    p.signature? = some sig ↔
      ∃ s, declared initialEnvironments o p = (.ok (), s) ∧ s.variants.signature = sig := by
  have hsame : List.Forall₂ (fun group group' : List TypeDecl => group = group' ∧
      ∀ decl ∈ group, decl.isVariant = true) p.groups p.groups :=
    List.forall₂_same.2 fun group hgroup => ⟨rfl, hp group hgroup⟩
  have hanswers : Answers (p.groups.forM declareGroup) o
      (start initialVariantEnv .empty initialTypeEnv) p.signature? fun _ s' sig =>
        (s'.variants.signature = sig ∧ s'.variants.OnlyVariants) ∧ s'.Wf := by
    refine Answers.forM (R := fun s' sig => (s'.variants.signature = sig ∧
      s'.variants.OnlyVariants) ∧ s'.Wf) hsame ?_ ⟨⟨signature_initialVariantEnv,
        onlyVariants_initialVariantEnv⟩, .start wf_initialEnvironments⟩
    rintro group _ s _ ⟨rfl, hgroup⟩ ⟨⟨rfl, hvariants⟩, hs⟩
    exact (answers_declareGroup hgroup hs hvariants).and fun _ s' hrun =>
      ((declares_declareGroup hs group).of_run hrun).2.1
  have hrun : declared initialEnvironments o p = (p.groups.forM declareGroup : Check Unit) o
    (start initialVariantEnv .empty initialTypeEnv) := rfl
  rw [hrun]
  obtain ⟨_, s, sig', hok, hsig, ⟨rfl, -⟩, -⟩ | ⟨e, s, herror, hsig⟩ := hanswers.elim
  · rw [hok, hsig]
    simp
  · rw [herror, hsig]
    simp

end FieldML
