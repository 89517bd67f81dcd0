import Mathlib.Data.List.Pairwise
import FieldML.Proofs.Check.Declare
import FieldML.Proofs.Script.Fresh

/-!
# New variables in written types and declarations

The types that a check makes from written ones mention no parameter of a synonym that is declared
already: in an annotation all variables are new. The parameters of a declaration are new variables
too, and different declarations have different ones. So the names of a declaration never stand for
parameters of a synonym that is declared before it.
-/

namespace FieldML

open Check Script CheckState

namespace VariantEnv

/-- The variable is a parameter of a synonym. -/
def IsParam (env : VariantEnv) (v : TypeVar) : Prop :=
  ∃ name params body, env.definition? name = some (.synonym params body) ∧ v ∈ params

theorem mem_vars_of_isParam {env : VariantEnv} {v : TypeVar} (h : env.IsParam v) :
    v ∈ env.vars := by
  obtain ⟨name, params, body, hdef, hv⟩ := h
  have hmem : (name, TypeDefinition.synonym params body) ∈ env.definitions := Fields.mem_of_get? hdef
  refine List.mem_append_left _ (List.mem_append_left _ (List.mem_flatMap.2 ⟨_, hmem, ?_⟩))
  exact List.mem_append_left _ hv

end VariantEnv

namespace CheckState

variable {s s' : CheckState} {t u : Ty} {ts : List Ty}

/-- The type has no quantifiers, and its variables were handed out and are not parameters of
synonyms. -/
structure Usable (s : CheckState) (t : Ty) : Prop where
  simple : t.Simple True
  inside : t.Inside fun v => v < s.next ∧ ¬s.variants.IsParam v

theorem Usable.known (h : s.Usable t) : t.Known s.next := ⟨h.simple, fun v hv => (h.inside v hv).1⟩

theorem Usable.leads (h : s.Usable t) (hlead : s.Leads s') : s'.Usable t :=
  ⟨h.simple, fun v hv => ⟨(h.inside v hv).1.trans_le hlead.next, hlead.variants ▸ (h.inside v hv).2⟩⟩

theorem Usable.scheme (h : ∀ t ∈ ts, s.Usable t) : ∀ t ∈ ts, t.Scheme s.next :=
  fun t ht => .plain (h t ht).known

/-- Types made of usable types are usable. -/
theorem Usable.of_parts (ht : t.Simple True)
    (hparts : ∀ v ∈ t.freeVars, ∃ u, s.Usable u ∧ v ∈ u.freeVars) : s.Usable t :=
  ⟨ht, fun v hv => by
    obtain ⟨u, hu, hv⟩ := hparts v hv
    exact hu.inside v hv⟩

theorem Ready.usable_give (hs : s.Ready ts) (r : Range) :
    (s.give .universal).Usable (.var s.next r) := by
  refine ⟨.var _ r, fun v hv => ?_⟩
  obtain rfl := Ty.mem_freeVars_var.1 hv
  refine ⟨Nat.lt_succ_self _, fun hparam => ?_⟩
  exact Nat.lt_irrefl _ (hs.declared _ (VariantEnv.mem_vars_of_isParam hparam))

end CheckState

namespace Check

variable {α β : Type} {o : CheckOptions} {s : CheckState} {ts : List Ty}

/-- All types that the names of the scope stand for are usable. -/
def ScopeUsable (s : CheckState) (scope : TypeScope) : Prop :=
  ∀ t ∈ scope.names.map (·.2), s.Usable t

theorem ScopeUsable.leads {s' : CheckState} {scope : TypeScope} (h : ScopeUsable s scope)
    (hlead : s.Leads s') : ScopeUsable s' scope := fun t ht => (h t ht).leads hlead

theorem usable_insert {names : List (String × Ty)} {t : Ty} (h : ∀ p ∈ names, s.Usable p.2)
    (ht : s.Usable t) (name : String) : ∀ p ∈ Fields.insert name t names, s.Usable p.2 := by
  rintro ⟨other, u⟩ hp
  rcases Fields.mem_insert hp with heq | hp
  · obtain ⟨-, rfl⟩ := Prod.mk.inj heq
    exact ht
  · exact h _ hp

theorem tracks_freshVar (hs : s.Ready ts) (range : Range) :
    Tracks (Script.fresh range) o s ts fun t s' => s'.Usable t :=
  .holding hs (List.forall_mem_nil _) (fun _ _ ht => known_singleton ht.known) fun hs =>
    (tracks_freshId hs).bind fun _ _ _ _ hs₁ ⟨hv, hs'⟩ => .pure hs₁ <| by
      subst hv hs'
      exact hs.usable_give range

theorem tracks_typeVariable (hs : s.Ready ts) (name : Ident) {scope : TypeScope}
    (hscope : ScopeUsable s scope) : Tracks (Script.typeVariable name scope) o s ts fun r s' =>
      s'.Usable r.1 ∧ ScopeUsable s' r.2 := by
  unfold Script.typeVariable Check.typeVariable
  dsimp only [id]
  generalize hget : Fields.get? scope.names name.text = found
  cases found with
  | some t =>
      have ht := hscope t (List.mem_map.2 ⟨_, Fields.mem_of_get? hget, rfl⟩)
      refine .pure hs ⟨⟨ht.simple.withRange _, fun v hv => ht.inside v ?_⟩, hscope⟩
      rwa [Ty.freeVars_withRange] at hv
  | none =>
      refine .ite (fun _ => ?_) fun _ => tracks_fail hs (by simp) (by simp)
      refine (tracks_freshVar hs name.range).bind fun t s₁ ts₁ hlead hs₁ ht => .pure hs₁ ⟨ht, ?_⟩
      rintro u hu
      obtain ⟨p, hp, rfl⟩ := List.mem_map.1 hu
      exact usable_insert (fun q hq => (hscope q.2 (List.mem_map.2 ⟨q, hq, rfl⟩)).leads hlead) ht
        name.text p hp

/-- A declared type with usable arguments. -/
theorem tracks_resolveType (hs : s.Ready ts) (name : Ident) {args : List Ty}
    (hargs : ∀ t ∈ args, s.Usable t) (range : Range) :
    Tracks (Script.call (.resolve s.variants name args range)) o s ts fun t s' => s'.Usable t := by
  have happlied : ∀ t, s.variants.resolve name.text args range = .ok t → s.Usable t := fun t ht =>
    have ⟨hsimple, hinside⟩ := hs.wf.variants.toWf.resolve
      (fun u hu => ⟨(hargs u hu).simple, (hargs u hu).inside⟩) ht
    ⟨hsimple, hinside⟩
  refine tracks_call hs trivial (fun params body hdef hlength => ?_) ?_
  · have hapart : ApartFrom params args := fun u hu v hv hmem =>
      ((hargs u hu).inside v ((hargs u hu).simple.mem_allVars.1 hmem)).2 ⟨_, _, _, hdef, hv⟩
    exact ⟨hapart, (hs.wf.variants.synonyms _ _ _ hdef).1.instantiateParams_eq
      (fun u hu => (hargs u hu).simple) hapart⟩
  · have hidle : Idles (liftVariant (s.variants.resolve name.text args range)) o s
        fun t s' => s' = s ∧ s.Usable t := idles_liftVariant fun t ht => ⟨rfl, happlied t ht⟩
    exact (hidle.keeps hs.wf).mono fun t s' _ _ ⟨heq, ht⟩ => heq ▸ ht

theorem tracks_namedType (hs : s.Ready ts) (name : Ident) {args : List Ty}
    (hargs : ∀ t ∈ args, s.Usable t) (range : Range) :
    Tracks (Script.namedType name args range) o s ts fun t s' => s'.Usable t := by
  unfold Script.namedType Check.namedType
  dsimp only [id]
  generalize baseType? name.text = base
  generalize hmake : unaryType? name.text = unary
  match base, unary with
  | some b, _ =>
      exact .ite (fun _ => .pure hs (.of_parts (.base b range) (by simp)))
        fun _ => tracks_fail hs (by simp) (by simp)
  | none, some make =>
      match args with
      | [t] =>
          have ht := hargs t (List.mem_singleton.2 rfl)
          rcases eq_of_unaryType? hmake with rfl | rfl
          · exact .pure hs (.of_parts (.list range ht.simple) fun v hv => ⟨t, ht, hv⟩)
          · exact .pure hs (.of_parts (.ref range ht.simple) fun v hv => ⟨t, ht, hv⟩)
      | [] => exact tracks_fail hs (by simp) (by simp)
      | _ :: _ :: _ => exact tracks_fail hs (by simp) (by simp)
  | none, none =>
      refine (tracks_get hs).bind ?_
      rintro _ _ ts₁ - hs₁ ⟨rfl, rfl⟩
      exact tracks_resolveType hs₁ name hargs range

mutual

theorem tracks_typeExpr {s : CheckState} {ts : List Ty} (hs : s.Ready ts) {scope : TypeScope}
    (hscope : ScopeUsable s scope) (e : TypeExpr) :
    Tracks (Script.typeExpr scope e) o s ts fun r s' => s'.Usable r.1 ∧ ScopeUsable s' r.2 := by
  unfold Script.typeExpr
  refine .holding hs (Usable.scheme hscope) (fun r s' hr => ?_) fun hs => ?_
  · exact List.forall_mem_cons.2 ⟨.plain hr.1.known, Usable.scheme hr.2⟩
  match e with
  | .var name => exact tracks_typeVariable hs name hscope
  | .named args name range =>
      refine (tracks_typeExprs hs hscope args).bind fun r s₁ ts₁ _ hs₁ ⟨hargs, hscope₁⟩ => ?_
      exact (tracks_namedType hs₁ name hargs range).bind fun t s₂ ts₂ hlead₂ hs₂ ht =>
        .pure hs₂ ⟨ht, hscope₁.leads hlead₂⟩
  | .func param result range =>
      refine (tracks_typeExpr hs hscope param).bind fun r s₁ ts₁ _ hs₁ ⟨hp, hscope₁⟩ => ?_
      refine (tracks_typeExpr hs₁ hscope₁ result).bind fun q s₂ ts₂ hlead₂ hs₂ ⟨hq, hscope₂⟩ =>
        .pure hs₂ ⟨.of_parts (.func range hp.simple hq.simple) fun v hv => ?_, hscope₂⟩
      rcases Ty.mem_freeVars_func.1 hv with hv | hv
      · exact ⟨r.1, hp.leads hlead₂, hv⟩
      · exact ⟨q.1, hq, hv⟩
  | .product items range =>
      refine (tracks_typeExprs hs hscope items).bind fun r s₁ ts₁ _ hs₁ ⟨hitems, hscope₁⟩ =>
        .pure hs₁ ⟨.of_parts (.product range fun t ht => (hitems t ht).simple) fun v hv => ?_,
          hscope₁⟩
      obtain ⟨t, ht, hv⟩ := Ty.mem_freeVars_product.1 hv
      exact ⟨t, hitems t ht, hv⟩
  | .record fields range =>
      refine (tracks_typeExprFields hs hscope Fields.sorted_nil (List.forall_mem_nil _) fields).bind
        fun r s₁ ts₁ _ hs₁ ⟨hsorted, hfields, hscope₁⟩ =>
        .pure hs₁ ⟨.of_parts (.record range hsorted fun p hp => (hfields p hp).simple)
          fun v hv => ?_, hscope₁⟩
      obtain ⟨p, hp, hv⟩ := Ty.mem_freeVars_record.1 hv
      exact ⟨p.2, hfields p hp, hv⟩

theorem tracks_typeExprs {s : CheckState} {ts : List Ty} (hs : s.Ready ts) {scope : TypeScope}
    (hscope : ScopeUsable s scope) (es : List TypeExpr) :
    Tracks (Script.typeExprs scope es) o s ts fun r s' =>
      (∀ t ∈ r.1, s'.Usable t) ∧ ScopeUsable s' r.2 := by
  match es with
  | [] => exact .pure hs ⟨List.forall_mem_nil _, hscope⟩
  | e :: es =>
      refine (tracks_typeExpr hs hscope e).bind fun r s₁ ts₁ _ hs₁ ⟨ht, hscope₁⟩ => ?_
      exact (tracks_typeExprs hs₁ hscope₁ es).bind fun q s₂ ts₂ hlead₂ hs₂ ⟨hts, hscope₂⟩ =>
        .pure hs₂ ⟨List.forall_mem_cons.2 ⟨ht.leads hlead₂, hts⟩, hscope₂⟩

theorem tracks_typeExprFields {s : CheckState} {ts : List Ty} (hs : s.Ready ts)
    {scope : TypeScope} (hscope : ScopeUsable s scope) {before : List (String × Ty)}
    (hsorted : Fields.Sorted before) (hbefore : ∀ p ∈ before, s.Usable p.2)
    (fields : List (Ident × TypeExpr)) :
    Tracks (Script.typeExprFields scope before fields) o s ts fun r s' =>
      Fields.Sorted r.1 ∧ (∀ p ∈ r.1, s'.Usable p.2) ∧ ScopeUsable s' r.2 := by
  match fields with
  | [] => exact .pure hs ⟨hsorted, hbefore, hscope⟩
  | (name, e) :: fields =>
      refine (tracks_typeExpr hs hscope e).bind fun r s₁ ts₁ hlead hs₁ ⟨ht, hscope₁⟩ => ?_
      refine .ite (fun _ => tracks_fail hs₁ (by simp) (by simp)) fun _ => ?_
      exact tracks_typeExprFields hs₁ hscope₁ (Fields.sorted_insert hsorted name.text r.1)
        (usable_insert (fun p hp => (hbefore p hp).leads hlead) ht name.text) fields

end

theorem tracks_annotated (hs : s.Ready ts) (e : TypeExpr) :
    Tracks (Script.annotated e) o s ts fun t s' => t.Known s'.next :=
  have hscope : ScopeUsable s ⟨[], true⟩ := List.forall_mem_nil _
  (tracks_typeExpr hs hscope e).bind fun _ _ _ _ hs₁ ⟨ht, _⟩ => .pure hs₁ ht.known

end Check

/-! ### Declarations -/

namespace VariantEnv

variable {env env' : VariantEnv} {n : TypeVar} {name : String} {range : Range}

theorem mem_vars {v : TypeVar} : v ∈ env.vars ↔
    (∃ p ∈ env.definitions, v ∈ p.2.params ∨
      ∃ params body, p.2 = .synonym params body ∧ v ∈ body.allVars) ∨
    ∃ p ∈ env.constructors, v ∈ p.2.params ∨ ∃ t ∈ p.2.args, v ∈ t.allVars := by
  unfold vars allVars
  simp only [List.mem_append, List.mem_flatMap, Ty.mem_allVarsOfList, and_or_left, exists_or]
  rw [or_assoc, or_comm (a := ∃ p ∈ env.constructors, ∃ t ∈ _, _)]
  refine or_congr (or_congr_right (exists_congr fun p => and_congr_right fun _ => ?_)) Iff.rfl
  cases p.2 <;> simp

theorem lt_of_define {d : TypeDefinition} (henv : ∀ v ∈ env.vars, v < n)
    (hd : ∀ v ∈ d.params, v < n) (hbody : ∀ params body, d = .synonym params body → body.Known n)
    (h : env.define name d range = .ok env') : ∀ v ∈ env'.vars, v < n := by
  obtain ⟨-, rfl⟩ := define_eq_ok h
  intro v hv
  rcases mem_vars.1 hv with ⟨⟨other, e⟩, hp, hin⟩ | hctor
  · rcases Fields.mem_insert hp with heq | hold
    · obtain ⟨-, rfl⟩ := Prod.mk.inj heq
      rcases hin with hv | ⟨params, body, heq, hv⟩
      · exact hd v hv
      · exact (hbody params body heq).lt_of_mem_allVars hv
    · exact henv v (mem_vars.2 (.inl ⟨_, hold, hin⟩))
  · exact henv v (mem_vars.2 (.inr hctor))

theorem lt_of_addConstructor {variant : String} {args : List Ty}
    (henv : ∀ v ∈ env.vars, v < n) (hargs : ∀ t ∈ args, t.Known n)
    (h : env.addConstructor variant name args range = .ok env') : ∀ v ∈ env'.vars, v < n := by
  unfold addConstructor at h
  split at h
  · cases h
  · split at h
    · next params ctors hdef =>
        obtain rfl := Except.ok.inj h
        have hmem : (variant, TypeDefinition.variant params ctors) ∈ env.definitions :=
          Fields.mem_of_get? hdef
        intro v hv
        rcases mem_vars.1 hv with ⟨⟨other, d⟩, hp, hin⟩ | ⟨⟨other, c⟩, hp, hin⟩
        · rcases Fields.mem_insert hp with heq | hold
          · obtain ⟨-, rfl⟩ := Prod.mk.inj heq
            refine henv v (mem_vars.2 (.inl ⟨_, hmem, hin.imp_right ?_⟩))
            rintro ⟨_, _, heq, -⟩
            cases heq
          · exact henv v (mem_vars.2 (.inl ⟨_, hold, hin⟩))
        · rcases Fields.mem_insert hp with heq | hold
          · obtain ⟨-, rfl⟩ := Prod.mk.inj heq
            rcases hin with hv | ⟨t, ht, hv⟩
            · exact henv v (mem_vars.2 (.inl ⟨_, hmem, .inl hv⟩))
            · exact (hargs t ht).lt_of_mem_allVars hv
          · exact henv v (mem_vars.2 (.inr ⟨_, hold, hin⟩))
    · cases h

theorem isParam_define {d : TypeDefinition} (h : env.define name d range = .ok env') {v : TypeVar}
    (hv : env'.IsParam v) : env.IsParam v ∨ ∃ params body, d = .synonym params body ∧ v ∈ params := by
  obtain ⟨other, params, body, hdef, hv⟩ := hv
  rw [definition?_define h] at hdef
  split at hdef
  · exact .inr ⟨params, body, Option.some.inj hdef, hv⟩
  · exact .inl ⟨other, params, body, hdef, hv⟩

theorem isParam_addConstructor {variant : String} {args : List Ty}
    (h : env.addConstructor variant name args range = .ok env') {v : TypeVar}
    (hv : env'.IsParam v) : env.IsParam v := by
  obtain ⟨-, _, _, -, hdefs, -⟩ := addConstructor_eq_ok h
  obtain ⟨other, params, body, hdef, hv⟩ := hv
  rw [hdefs] at hdef
  split at hdef
  · cases hdef
  · exact ⟨other, params, body, hdef, hv⟩

end VariantEnv

namespace Check

variable {α β : Type} {p : Check α} {o : CheckOptions} {s s' : CheckState} {ts : List Ty}
  {x : Script p} {Q : α → CheckState → Prop} {Q' : β → CheckState → Prop}

/-- All calls of a script that may declare types are sound in a run from this state, and what occurs
in the end lies below the next variable again. -/
def TracksDeclares (x : Script p) (o : CheckOptions) (s : CheckState) (ts : List Ty)
    (Q : α → CheckState → Prop) : Prop :=
  x.Follows Call.Made o (fun a s' ts' => s.Declares s' ∧ s'.Ready ts' ∧ Q a s') s ts

theorem Tracks.declares (hx : Tracks x o s ts Q) :
    TracksDeclares x o s ts fun a s' => s.Leads s' ∧ Q a s' :=
  hx.of_run fun _ _ _ _ ⟨hlead, hs', hq⟩ =>
    ⟨⟨hlead.next, hlead.variants ▸ .refl _⟩, hs', hlead, hq⟩

theorem TracksDeclares.bind {k : α → Check β} {f : ∀ a, Script (k a)}
    (hx : TracksDeclares x o s ts Q)
    (hf : ∀ a s₁ ts₁, s.Declares s₁ → s₁.Ready ts₁ → Q a s₁ → TracksDeclares (f a) o s₁ ts₁ Q') :
    TracksDeclares (x.bind f) o s ts Q' :=
  hx.of_run fun a s₁ ts₁ _ ⟨hdecl, hs₁, hq⟩ => (hf a s₁ ts₁ hdecl hs₁ hq).of_run
    fun _ _ _ _ ⟨hdecl', hs', hq'⟩ => ⟨hdecl.trans hdecl', hs', hq'⟩

theorem TracksDeclares.pure (hs : s.Ready ts) {a : α} (ha : Q a s) :
    TracksDeclares (Script.pure a) o s ts Q :=
  ⟨.refl s, hs, ha⟩

theorem TracksDeclares.ofEq {q : Check α} {h : q = p} (hx : TracksDeclares x o s ts Q) :
    TracksDeclares (Script.ofEq h x) o s ts Q := hx

theorem TracksDeclares.mono {R : α → CheckState → Prop} (hx : TracksDeclares x o s ts Q)
    (h : ∀ a s', s.Declares s' → Q a s' → R a s') : TracksDeclares x o s ts R :=
  hx.of_run fun a s' _ _ ⟨hdecl, hs', hq⟩ => ⟨hdecl, hs', h a s' hdecl hq⟩

theorem TracksDeclares.made (hx : TracksDeclares x o s ts Q) :
    x.Follows Call.Made o (fun _ _ _ => True) s ts :=
  hx.of_run fun _ _ _ _ _ => trivial

/-- What a declaration keeps is known of its outcome. -/
theorem TracksDeclares.and {R : α → CheckState → Prop} (hx : TracksDeclares x o s ts Q)
    (hp : Declares p o s R) : TracksDeclares x o s ts fun a s' => Q a s' ∧ R a s' := by
  refine hx.of_run fun a s' ts' hrun ⟨hdecl, hs', hq⟩ => ⟨hdecl, hs', hq, ?_⟩
  unfold Declares at hp
  rw [hrun] at hp
  exact hp.2.2

/-- An invariant of the declarations that are still to be treated. -/
theorem tracksDeclares_forM {f : α → Check PUnit} {x : ∀ a, Script (f a)}
    {I : List α → CheckState → Prop} {l : List α} (hs : s.Ready ts) (hI : I l s)
    (hx : ∀ a ∈ l, ∀ l s₁ ts₁, s.Declares s₁ → s₁.Ready ts₁ → I (a :: l) s₁ →
      TracksDeclares (x a) o s₁ ts₁ fun _ s' => I l s') :
    TracksDeclares (Script.forM x l) o s ts fun _ s' => I [] s' := by
  induction l generalizing s ts with
  | nil => exact .pure hs hI
  | cons a l ih =>
      exact (hx a List.mem_cons_self l s ts (.refl s) hs hI).bind fun _ s₁ ts₁ hdecl hs₁ hI₁ =>
        ih hs₁ hI₁ fun b hb l s₂ ts₂ hdecl₂ =>
          hx b (List.mem_cons_of_mem a hb) l s₂ ts₂ (hdecl.trans hdecl₂)

/-- The new declarations are in order and mention only variables that were handed out. -/
theorem tracks_setVariants {variants : Except VariantError VariantEnv} (hs : s.Ready ts)
    (h : ∀ env, variants = .ok env → env.Known s.next ∧ s.variants.Grows env)
    (hlt : ∀ env, variants = .ok env → ∀ v ∈ env.vars, v < s.next) :
    TracksDeclares (Script.setVariants variants) o s ts fun _ s' =>
      s'.next = s.next ∧ variants = .ok s'.variants := by
  refine ⟨⟨hs.wf, trivial, trivial⟩, fun _ s' hrun => ?_⟩
  have hp := declares_setVariants (o := o) hs.wf h
  unfold Declares at hp
  cases variants with
  | error e => cases hrun
  | ok env =>
      obtain ⟨-, rfl⟩ := Prod.mk.inj hrun
      exact ⟨hp.1, ⟨hp.2.1, hlt env rfl, hs.held⟩, rfl, rfl⟩

/-! ### The stages of a group -/

/-- No parameter of the declaration is one of a declared synonym. -/
def OpenDecl.Free (d : OpenDecl) (s : CheckState) : Prop := ∀ v ∈ d.params, ¬s.variants.IsParam v

def OpenDecl.IsSynonym (d : OpenDecl) : Prop :=
  ∃ params name body range, d.decl = .synonym params name body range

/-- The two declarations have different parameters. -/
def OpenDecl.Apart (d d' : OpenDecl) : Prop := ∀ v ∈ d.params, v ∉ d'.params

instance : Std.Symm OpenDecl.Apart := ⟨fun _ _ h v hv hv' => h v hv' hv⟩

theorem OpenDecl.Free.leads {d : OpenDecl} (h : d.Free s) (hlead : s.Leads s') : d.Free s' :=
  fun v hv => hlead.variants ▸ h v hv

theorem OpenDecl.Wf.usable {d : OpenDecl} (hd : d.Wf s.next) (hfree : d.Free s) :
    ∀ p ∈ d.names, s.Usable p.2 := fun p hp =>
  ⟨(hd.names p hp).1, (hd.names p hp).2.mono fun v hv => ⟨hd.lt v hv, hfree v hv⟩⟩

theorem OpenDecl.Wf.known {d : OpenDecl} {n : TypeVar} (hd : d.Wf n) {t : Ty}
    (ht : t.Simple True ∧ t.Inside (· ∈ d.params)) : t.Known n :=
  ⟨ht.1, ht.2.mono hd.lt⟩

theorem tracks_declareParams (hs : s.Ready ts) (decl : TypeDecl) :
    Tracks (Script.declareParams decl) o s ts fun d s' =>
      d.Wf s'.next ∧ d.Free s' ∧ ∀ v ∈ d.params, s.next ≤ v := by
  have hfold : Tracks (Script.declareParams decl) o s ts fun d s' =>
      d.Free s' ∧ ∀ v ∈ d.params, s.next ≤ v := by
    refine (tracks_foldlM (I := fun r s' => s.next ≤ s'.next ∧
      (∀ v ∈ r.1, s.next ≤ v ∧ ¬s'.variants.IsParam v) ∧ ∀ p ∈ r.2, s'.Usable p.2) hs
      ⟨Nat.le_refl _, List.forall_mem_nil _, List.forall_mem_nil _⟩ ?step).bind ?done
    case step =>
      rintro ⟨vars, names⟩ param s₁ ts₁ hs₁ ⟨hle, hvars, hnames⟩
      refine .holding hs₁ (List.forall_mem_nil _) (fun r s₂ h t ht => ?_) fun hs₁ => ?_
      · obtain ⟨p, hp, rfl⟩ := List.mem_map.1 ht
        exact .plain (h.2.2 p hp).known
      · refine (tracks_freshId hs₁).bind ?_
        rintro v s₂ ts₂ hlead hs₂ ⟨rfl, rfl⟩
        have hnew := hs₁.usable_give param.range
        refine .ite (fun _ => tracks_fail hs₂ (by simp) (by simp)) fun _ => .pure hs₂
          ⟨hle.trans hlead.next, List.forall_mem_cons.2 ⟨⟨hle, ?_⟩, fun v hv => ?_⟩, ?_⟩
        · exact (hnew.inside s₁.next (Ty.mem_freeVars_var.2 rfl)).2
        · exact ⟨(hvars v hv).1, hlead.variants ▸ (hvars v hv).2⟩
        · exact usable_insert (fun p hp => (hnames p hp).leads hlead) hnew param.text
    case done =>
      rintro ⟨vars, names⟩ s₁ ts₁ - hs₁ ⟨-, hvars, -⟩
      exact .pure hs₁ ⟨fun v hv => (hvars v (List.mem_reverse.1 hv)).2,
        fun v hv => (hvars v (List.mem_reverse.1 hv)).1⟩
  exact (Tracks.and hfold ((idles_declareParams decl).keeps hs.wf)).mono
    fun _ _ _ ⟨⟨hfree, hge⟩, hwf⟩ => ⟨hwf, hfree, hge⟩

theorem tracks_openGroup (hs : s.Ready ts) (group : List TypeDecl) :
    Tracks (Script.mapM Script.declareParams group) o s ts fun decls s' =>
      (∀ d ∈ decls, d.Wf s'.next ∧ d.Free s') ∧ decls.Pairwise OpenDecl.Apart := by
  refine (tracks_mapM (I := fun decls s' => (∀ d ∈ decls, d.Wf s'.next ∧ d.Free s') ∧
    decls.Pairwise OpenDecl.Apart) hs ⟨List.forall_mem_nil _, .nil⟩ ?step).mono
      fun decls s' _ ⟨hall, hapart⟩ => ?done
  case step =>
    rintro decl - decls s₁ ts₁ - hs₁ ⟨hdecls, hapart⟩
    refine (tracks_declareParams hs₁ decl).mono fun d s₂ hlead ⟨hwf, hfree, hge⟩ =>
      ⟨List.forall_mem_cons.2 ⟨⟨hwf, hfree⟩, fun e he => ?_⟩, List.pairwise_cons.2
        ⟨fun e he v hv hv' => ?_, hapart⟩⟩
    · exact ⟨(hdecls e he).1.mono hlead.next, (hdecls e he).2.leads hlead⟩
    · -- The parameters of an earlier declaration were handed out before.
      exact absurd ((hdecls e he).1.lt v hv') (Nat.not_lt.2 (hge v hv))
  case done =>
    refine ⟨fun d hd => hall d (List.mem_reverse.2 hd), ?_⟩
    exact (List.pairwise_reverse.1 hapart).imp (Std.Symm.symm _ _)

theorem tracks_declaredType (hs : s.Ready ts) {d : OpenDecl} (hd : d.Wf s.next)
    (hfree : d.Free s) (e : TypeExpr) :
    Tracks (Script.declaredType d.names e) o s ts fun t _ =>
      t.Simple True ∧ t.Inside (· ∈ d.params) := by
  have hscope : ScopeUsable s ⟨d.names, false⟩ := fun t ht => by
    obtain ⟨p, hp, rfl⟩ := List.mem_map.1 ht
    exact hd.usable hfree p hp
  have hcalls : Tracks (Script.declaredType d.names e) o s ts fun _ _ => True :=
    (tracks_typeExpr hs hscope e).bind fun _ _ _ _ hs₁ _ => .pure hs₁ trivial
  exact hcalls.keeps ((idles_declaredType hs.wf.variants.toWf hd.names e).keeps hs.wf)

theorem tracks_declareVariant (hs : s.Ready ts) {d : OpenDecl} (hd : d.Wf s.next) :
    TracksDeclares (Script.declareVariant d) o s ts fun _ s' =>
      ∀ v, s'.variants.IsParam v → s.variants.IsParam v := by
  match d with
  | ⟨.synonym _ _ _ _, _, _⟩ => exact .pure hs fun _ h => h
  | ⟨.variant _ name _ _, params, _⟩ =>
      refine .ofEq ((tracks_get hs).declares.bind ?_)
      rintro _ _ ts₁ - hs₁ ⟨-, rfl, rfl⟩
      refine (tracks_setVariants hs₁ (fun env henv => ⟨hs₁.wf.variants.define (by simp) henv,
        VariantEnv.grows_define henv⟩) fun env henv => VariantEnv.lt_of_define
          (d := .variant params []) hs₁.declared hd.lt (by simp) henv).mono
            fun _ s' _ ⟨_, henv⟩ v hv => ?_
      rcases VariantEnv.isParam_define henv hv with hold | ⟨_, _, heq, -⟩
      · exact hold
      · cases heq

/-- Only the parameters of the synonym become parameters. -/
theorem tracks_declareSynonym (hs : s.Ready ts) {d : OpenDecl} (hd : d.Wf s.next)
    (hfree : d.Free s) :
    TracksDeclares (Script.declareSynonym d) o s ts fun _ s' =>
      ∀ v, s'.variants.IsParam v → s.variants.IsParam v ∨
        v ∈ d.params ∧ d.IsSynonym := by
  match d with
  | ⟨.variant _ _ _ _, _, _⟩ => exact .pure hs fun _ h => .inl h
  | ⟨.synonym formals name body range, params, names⟩ =>
      refine .ofEq <| (tracks_declaredType hs hd hfree body).declares.bind
        fun t s₁ ts₁ _ hs₁ ⟨hlead, ht⟩ => (tracks_get hs₁).declares.bind ?_
      rintro _ _ ts₂ - hs₂ ⟨-, rfl, rfl⟩
      have hd₂ := hd.mono hlead.next
      have hbody : ∀ params' body', TypeDefinition.synonym params t = .synonym params' body' →
          params = params' ∧ t = body' := fun _ _ => TypeDefinition.synonym.inj
      refine (tracks_setVariants hs₂ (fun env henv => ⟨hs₂.wf.variants.define ?_ henv,
        VariantEnv.grows_define henv⟩) fun env henv => VariantEnv.lt_of_define
          (d := .synonym params t) hs₂.declared hd₂.lt ?_ henv).mono fun _ s' _ ⟨_, henv⟩ v hv => ?_
      · rintro params' body' heq
        obtain ⟨rfl, rfl⟩ := hbody params' body' heq
        exact ht
      · rintro params' body' heq
        obtain ⟨rfl, rfl⟩ := hbody params' body' heq
        exact hd₂.known ht
      · rcases VariantEnv.isParam_define henv hv with hold | ⟨params', body', heq, hv⟩
        · exact .inl (hlead.variants ▸ hold)
        · obtain ⟨rfl, rfl⟩ := hbody params' body' heq
          exact .inr ⟨hv, _, _, _, _, rfl⟩

theorem tracks_declareConstructors (hs : s.Ready ts) {d : OpenDecl} (hd : d.Wf s.next)
    (hfree : ¬d.IsSynonym → d.Free s) (hdecl : d.Declared s) :
    TracksDeclares (Script.declareConstructors d) o s ts fun _ s' =>
      ∀ v, s'.variants.IsParam v → s.variants.IsParam v := by
  match d with
  | ⟨.synonym _ _ _ _, _, _⟩ => exact .pure hs fun _ h => h
  | ⟨.variant _ name ctors _, params, names⟩ =>
      refine .ofEq <| tracksDeclares_forM (I := fun _ s' =>
        ∀ v, s'.variants.IsParam v → s.variants.IsParam v) hs (fun _ h => h)
        fun ctor _ _ s₁ ts₁ hgrown hs₁ hsame => ?_
      have hfree₁ : ∀ v ∈ params, ¬s₁.variants.IsParam v := fun v hv h =>
        hfree (by rintro ⟨_, _, _, _, heq⟩; cases heq) v hv (hsame v h)
      have hargs := tracks_mapM (o := o) (x := Script.declaredType names) (l := ctor.args)
        (I := fun args s' => s₁.Leads s' ∧ ∀ t ∈ args, t.Simple True ∧ t.Inside (· ∈ params)) hs₁
        ⟨.refl s₁, List.forall_mem_nil _⟩ fun e _ args s₂ ts₂ _ hs₂ ⟨hlead, hargs⟩ =>
          (tracks_declaredType hs₂ (hd.mono (hgrown.next.trans hlead.next))
            (OpenDecl.Free.leads hfree₁ hlead) e).mono fun t s₃ hlead₃ ht =>
              ⟨hlead.trans hlead₃, List.forall_mem_cons.2 ⟨ht, hargs⟩⟩
      refine hargs.declares.bind fun args s₂ ts₂ hgrown₂ hs₂ ⟨hlead, _, hargs⟩ =>
        (tracks_get hs₂).declares.bind ?_
      rintro _ _ ts₃ - hs₃ ⟨-, rfl, rfl⟩
      have hd₃ := hd.mono (hgrown.next.trans hlead.next)
      obtain ⟨others, hothers⟩ := hdecl.mono (hgrown.trans hgrown₂)
      have hclosed : ∀ t ∈ args, t.Simple True ∧ t.Inside (· ∈ params) :=
        fun t ht => hargs t (List.mem_reverse.2 ht)
      refine (tracks_setVariants hs₃ (fun env henv => ⟨hs₃.wf.variants.addConstructor hothers
        hd₃.nodup hd₃.lt hclosed henv, VariantEnv.grows_addConstructor henv⟩) fun env henv =>
          VariantEnv.lt_of_addConstructor hs₃.declared (fun t ht => hd₃.known (hclosed t ht))
            henv).mono fun _ s' hgrown₃ ⟨_, henv⟩ => fun v hv =>
            hsame v (hlead.variants ▸ VariantEnv.isParam_addConstructor henv hv)

theorem tracks_declareGroup (hs : s.Ready ts) (group : List TypeDecl) :
    TracksDeclares (Script.declareGroup group) o s ts fun _ _ => True := by
  refine (tracks_openGroup hs group).declares.bind
    fun decls s₁ ts₁ _ hs₁ ⟨_, hdecls, hapart⟩ => ?_
  have hwf : ∀ {s'}, s₁.Declares s' → ∀ d ∈ decls, d.Wf s'.next :=
    fun hgrown d hd => (hdecls d hd).1.mono hgrown.next
  have hvariants : TracksDeclares (Script.forM Script.declareVariant decls) o s₁ ts₁ fun _ s' =>
      ∀ d ∈ decls, d.Free s' :=
    tracksDeclares_forM (I := fun _ s' => ∀ d ∈ decls, d.Free s') hs₁ (fun d hd => (hdecls d hd).2)
      fun d hd _ s₂ ts₂ hgrown hs₂ hfree => (tracks_declareVariant hs₂ (hwf hgrown d hd)).mono
        fun _ s₃ _ hsame e he v hv h => hfree e he v hv (hsame v h)
  refine (hvariants.and (declares_forM (P := fun d s' => d.Declared s') hs₁.wf
    (fun _ _ _ h hdecl => h.mono hdecl) fun d _ s₂ _ hs₂ => declares_declareVariant hs₂ d)).bind
      fun _ s₂ ts₂ hgrown₂ hs₂ ⟨hfree, hdeclared⟩ => ?_
  refine (tracksDeclares_forM (I := fun l s' => l.Pairwise OpenDecl.Apart ∧
    ∀ d ∈ decls, d ∈ l ∨ ¬d.IsSynonym → d.Free s') hs₂ ⟨hapart, fun d hd _ => hfree d hd⟩ ?_).bind
      fun _ s₃ ts₃ hgrown₃ hs₃ ⟨_, hfree₃⟩ => ?_
  · rintro d hd l s₃ ts₃ hgrown₃ hs₃ ⟨hapart', hfree₃⟩
    obtain ⟨hrest, hapart'⟩ := List.pairwise_cons.1 hapart'
    refine (tracks_declareSynonym hs₃ (hwf (hgrown₂.trans hgrown₃) d hd)
      (hfree₃ d hd (.inl List.mem_cons_self))).mono fun _ s₄ _ hparam => ⟨hapart', ?_⟩
    intro e he hkept v hv h
    rcases hparam v h with hold | ⟨hmem, hsynonym⟩
    · exact hfree₃ e he (hkept.imp_left (List.mem_cons_of_mem d)) v hv hold
    · rcases hkept with hlater | hvariant
      · exact hrest e hlater v hmem hv
      · have hne : d ≠ e := fun heq => hvariant (heq ▸ hsynonym)
        exact hapart.forall hd he hne v hmem hv
  · refine (tracksDeclares_forM (I := fun _ s' => ∀ d ∈ decls, ¬d.IsSynonym → d.Free s') hs₃
      (fun d hd h => hfree₃ d hd (.inr h)) fun d hd _ s₄ ts₄ hgrown₄ hs₄ hfree₄ =>
        (tracks_declareConstructors hs₄ (hwf ((hgrown₂.trans hgrown₃).trans hgrown₄) d hd)
          (hfree₄ d hd) ((hdeclared d hd).mono (hgrown₃.trans hgrown₄))).mono
            fun _ s₅ _ hsame e he hvariant v hv h => hfree₄ e he hvariant v hv (hsame v h)).bind
              fun _ s₄ ts₄ _ hs₄ _ => ?_
    exact (tracks_report hs₄ _).declares.mono fun _ _ _ _ => trivial

end Check

end FieldML
