import FieldML.Proofs.Typing.Generalize

/-!
# Types of constructors

A use of a constructor makes a value of its variant, whose parameters may stand for any types, and
takes arguments of the types that the typing rules give them.
-/

namespace FieldML

open Check

variable {sig : VariantEnv} {V : TypeVar → Prop} {n m : TypeVar} {t : Ty} {o : CheckOptions}
  {s s' s₁ : CheckState} {σ σ' : Instantiation} {τ : MonoTy} {τs : List MonoTy} {range : Range}
  {params : List TypeVar} {args : List Ty} {c : Constructor} {ctor : Ident}

/-- The types of all arguments of constructors are without quantifiers and synonyms. -/
def VariantEnv.Flat (sig : VariantEnv) : Prop :=
  ∀ name c, sig.constructor? name = some c → ∀ t ∈ c.args, t.Simple False

/-- What the rules know of a constructor. -/
def Constructor.type (c : Constructor) : CtorType where
  variant := c.variant
  arity := c.params.length
  args := Ty.monos (fun v => .var (c.params.idxOf v)) c.args

/-- What the rules know of the declared types. -/
def VariantEnv.signature (sig : VariantEnv) : Signature where
  arity? name := (sig.definition? name).map fun d => d.params.length
  ctor? name := (sig.constructor? name).map Constructor.type

/-- Replacing parameters one after the other is replacing them at once where no argument mentions a
parameter. -/
theorem mono_instantiateParams (ht : t.Simple False)
    (hargs : ∀ u ∈ args, u.Simple False ∧ ∀ v ∈ u.freeVars, v ∉ params) :
    (t.instantiateParams params args).mono σ =
      t.mono fun v => ((params.zip (Ty.monos σ args)).lookup v).getD (σ v) := by
  unfold Ty.instantiateParams
  induction params generalizing t args with
  | nil => rfl
  | cons p params ih =>
      cases args with
      | nil => rfl
      | cons u args =>
          obtain ⟨⟨hu, hup⟩, hargs⟩ := List.forall_mem_cons.1 hargs
          have hrest := ih (t := t.substitute p u) (ht.mapVars_single hu) fun x hx =>
            ⟨(hargs x hx).1, fun v hv hmem => (hargs x hx).2 v hv (List.mem_cons_of_mem _ hmem)⟩
          rw [List.zip_cons_cons, List.foldl_cons, hrest]
          refine ht.mono_mapVars fun v _ r => ?_
          by_cases hv : v = p
          · subst hv
            simp only [Replacement.single, List.not_mem_nil, not_false_eq_true, and_self, if_true,
              Ty.monos, List.map_cons, List.zip_cons_cons, List.lookup_cons_self, Option.getD_some]
            refine hu.mono_congr fun w hw => ?_
            -- The argument mentions no parameter, so the later replacements leave it alone.
            have hnone : (params.zip (Ty.monos σ args)).lookup w = none := by
              refine List.lookup_eq_none_iff.2 fun q hq => ?_
              have hne : w ≠ q.1 := by
                rintro rfl
                exact hup _ hw (List.mem_cons_of_mem _ (List.of_mem_zip hq).1)
              simpa using hne
            rw [hnone, Option.getD_none]
          · have hlookup : (v == p) = false := by simpa using hv
            simp only [Replacement.single, hv, false_and, if_false, Ty.mono_var, Ty.monos,
              List.map_cons, List.zip_cons_cons, List.lookup_cons, hlookup]

/-- A parameter stands for the type argument at its place. -/
theorem lookup_zip (hlength : params.length = τs.length) {v : TypeVar} (hv : v ∈ params)
    (τ τ' : MonoTy) : ((params.zip τs).lookup v).getD τ = τs.getD (params.idxOf v) τ' := by
  induction params generalizing τs with
  | nil => cases hv
  | cons p params ih =>
      obtain _ | ⟨u, τs⟩ := τs
      · cases hlength
      by_cases heq : v = p
      · simp [heq]
      · have hrest := ih (by simpa using hlength) ((List.mem_cons.1 hv).resolve_left heq)
        have hlookup : (v == p) = false := by simpa using heq
        simpa [List.lookup_cons, hlookup, List.idxOf_cons_ne _ (Ne.symm heq)] using hrest

/-- The types of a constructor's arguments mean what the rules say. -/
theorem monos_instantiateArgs (hc : ∀ t ∈ c.args, t.Simple False ∧ ∀ v ∈ t.freeVars, v ∈ c.params)
    (hlength : c.params.length = args.length)
    (hargs : ∀ u ∈ args, u.Simple False ∧ ∀ v ∈ u.freeVars, v ∉ c.params) :
    Ty.monos σ (c.instantiateArgs args) = c.type.argTypes (Ty.monos σ args) := by
  simp only [Constructor.instantiateArgs, Constructor.type, CtorType.argTypes, Ty.monos,
    List.map_map]
  refine List.map_congr_left fun t ht => ?_
  obtain ⟨hsimple, hvars⟩ := hc t ht
  rw [Function.comp_apply, Function.comp_apply, hsimple.subst_mono,
    mono_instantiateParams hsimple hargs]
  exact hsimple.mono_congr fun v hv =>
    lookup_zip (by simpa using hlength) (hvars v hv) _ _

namespace Check

variable {α : Type}

/-- Several variables that are handed out in a row may stand for any types. -/
theorem infers_freshes (hs : s.Live sig V) (l : List α) (g : α → Range) :
    Infers sig V (l.mapM fun a => fresh (g a)) o s fun ts s' =>
      ts.length = l.length ∧ ∀ t ∈ ts, t.Live V s'.next :=
  .of_idle hs (mapM_fresh_apply l g o s) (s.idle_skip _)
    ⟨by simp [length_newVars], fun _ ht => live_newVars hs ht⟩

theorem achieves_freshes (hs : s.Live sig V) (hσ : s.solver.subst.AgreesWith σ) {l : List α}
    (g : α → Range) (hlength : τs.length = l.length) :
    Achieves (l.mapM fun a => fresh (g a)) o s σ fun ts _ σ' => Ty.monos σ' ts = τs := by
  obtain ⟨σ', hsame, hmonos⟩ :=
    exists_monos_newVars σ s.next (l.map g) τs (by simpa using hlength)
  exact ⟨_, _, σ', mapM_fresh_apply l g o s, hs.agreesWith_of_eq hσ hsame, hsame, hmonos⟩

/-- What a use of a constructor consists of: the type it makes, and the types of its arguments. -/
structure Used (sig : VariantEnv) (V : TypeVar → Prop) (ctor : Ident) (variant : Ty)
    (types : List Ty) (n : TypeVar) (c : CtorType) (args : List Ty) : Prop where
  found : sig.signature.ctor? ctor.text = some c
  variant_eq : variant = .variant c.variant args ctor.range
  variant_live : variant.Live V n
  params : args.length = c.arity
  length : types.length = c.args.length
  live : ∀ t ∈ types, t.Live V n
  means : ∀ σ, Ty.monos σ types = c.argTypes (Ty.monos σ args)

theorem used_instantiateConstructor (hs : s.Live sig V) (hflat : sig.Flat)
    (hctor : sig.constructor? ctor.text = some c) :
    let rs := c.params.map fun _ => ctor.range
    Used sig V ctor (.variant c.variant (newVars s.next rs) ctor.range)
      (c.instantiateArgs (newVars s.next rs)) (s.skip rs.length).next c.type
      (newVars s.next rs) := by
  intro rs
  have hctor' : s.variants.constructor? ctor.text = some c := by rw [hs.variants, hctor]
  have hvars : ∀ u ∈ newVars s.next rs, u.Live V (s.skip rs.length).next := fun _ hu =>
    live_newVars hs hu
  have hapart : ∀ u ∈ newVars s.next rs, u.Simple False ∧ ∀ v ∈ u.freeVars, v ∉ c.params := by
    intro u hu
    refine ⟨(hvars u hu).simple, fun v hv hmem => ?_⟩
    obtain ⟨w, r, rfl, hle, -⟩ := mem_newVars hu
    obtain rfl := Ty.mem_freeVars_var.1 hv
    exact Nat.not_lt.2 hle ((hs.wf.variants.params ctor.text c hctor').2 v hmem)
  have hargs : ∀ t ∈ c.args, t.Simple False ∧ ∀ v ∈ t.freeVars, v ∈ c.params := fun t ht =>
    ⟨hflat ctor.text c hctor t ht, (hs.wf.variants.args ctor.text c hctor' t ht).2⟩
  have hlength : c.params.length = (newVars s.next rs).length := by simp [length_newVars, rs]
  refine ⟨congrArg (Option.map Constructor.type) hctor, rfl,
    .variant hvars c.variant ctor.range, hlength.symm,
    by simp [Constructor.instantiateArgs, Constructor.type], fun u hu => ?_, fun σ =>
      monos_instantiateArgs hargs hlength hapart⟩
  obtain ⟨t, ht, rfl⟩ := List.mem_map.1 hu
  obtain ⟨hsimple, hin⟩ := (hargs t ht).1.instantiateParams
    (V := fun v => V v ∧ v < (s.skip rs.length).next) (fun v hv => Or.inl ((hargs t ht).2 v hv))
    hlength fun u hu => ⟨(hvars u hu).simple, (hvars u hu).inside⟩
  exact ⟨hsimple, hin⟩

theorem infers_instantiateConstructor (hs : s.Live sig V) (hflat : sig.Flat) (ctor : Ident) :
    Infers sig V (instantiateConstructor ctor) o s fun r s' =>
      ∃ c args, Used sig V ctor r.1 r.2 s'.next c args := by
  cases hctor : sig.constructor? ctor.text with
  | none =>
      intro a s' hrun
      rw [instantiateConstructor_error (by rw [hs.variants, hctor])] at hrun
      cases hrun
  | some c =>
      exact .of_idle hs (instantiateConstructor_apply (by rw [hs.variants, hctor])) (s.idle_skip _)
        ⟨c.type, _, used_instantiateConstructor hs hflat hctor⟩

theorem achieves_instantiateConstructor {c : CtorType} (hs : s.Live sig V) (hflat : sig.Flat)
    (hσ : s.solver.subst.AgreesWith σ) (hctor : sig.signature.ctor? ctor.text = some c)
    (hparams : τs.length = c.arity) :
    Achieves (instantiateConstructor ctor) o s σ fun r _ σ' =>
      r.1.mono σ' = .variant c.variant τs ∧ Ty.monos σ' r.2 = c.argTypes τs ∧
        r.2.length = c.args.length := by
  obtain ⟨c, hfound, rfl⟩ := Option.map_eq_some_iff.1 hctor
  obtain ⟨σ', hsame, hmonos⟩ := exists_monos_newVars σ s.next
    (c.params.map fun _ => ctor.range) τs (by simpa [Constructor.type] using hparams)
  have hused := used_instantiateConstructor hs hflat hfound
  refine ⟨_, _, σ', instantiateConstructor_apply (by rw [hs.variants, hfound]),
    hs.agreesWith_of_eq hσ hsame, hsame, ?_, ?_, hused.length⟩
  · rw [Ty.mono_variant, ← hmonos, Constructor.type]
  · rw [hused.means, hmonos]

end Check

end FieldML
