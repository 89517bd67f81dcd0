import FieldML.Proofs.Coverage.Missing
import FieldML.Proofs.Reading.Pattern
import FieldML.Proofs.Reading.Token

/-!
# The text of a case is read as a pattern for it

A case that has no constants but truth values and the unit can be written as a pattern if its tuples
have at least two components. The cases that are found to be missing are of this sort: of integers
and strings no finite list is complete. A case is printed in parentheses where it stands inside
another one and would not be read as one piece there.
-/

open FieldML.Token

namespace FieldML

/-- A head that a missing case may have. -/
def Head.Suggested : Head → Prop
  | .int _ | .string _ => False
  | .tuple n => 2 ≤ n
  | .ctor name => Spells .constructor name
  | _ => True

/-- Tuples have at least two components. -/
def Head.Sized (h : Head) : Prop := ∀ n, h = .tuple n → 2 ≤ n

namespace Case

/-- The case can be written as a pattern. -/
inductive Writable : Case → Prop
  | any : Writable .any
  | bool (b : Bool) : Writable (.of (.bool b) [])
  | unit : Writable (.of .unit [])
  | nil : Writable (.of .nil [])
  | cons {c d : Case} (hc : Writable c) (hd : Writable d) : Writable (.of .cons [c, d])
  | tuple {cs : List Case} (hlength : 2 ≤ cs.length) (hcs : ∀ c ∈ cs, Writable c) :
      Writable (.of (.tuple cs.length) cs)
  | ctor {name : String} {cs : List Case} (hname : Spells .constructor name)
      (hcs : ∀ c ∈ cs, Writable c) : Writable (.of (.ctor name) cs)

/-- The pattern is the case in writing. Several arguments of a constructor are written as a tuple. -/
inductive Written : Case → Pattern → Prop
  | any (r : Range) : Written .any (.wildcard r)
  | bool (b : Bool) (r : Range) : Written (.of (.bool b) []) (.literal (.bool b) r)
  | unit (r : Range) : Written (.of .unit []) (.literal .unit r)
  | nil (r : Range) : Written (.of .nil []) (.nil r)
  | cons {c d : Case} {p q : Pattern} (r : Range) (hc : Written c p) (hd : Written d q) :
      Written (.of .cons [c, d]) (.cons p q r)
  | tuple {cs : List Case} {ps : List Pattern} (r : Range) (hcs : List.Forall₂ Written cs ps) :
      Written (.of (.tuple cs.length) cs) (.tuple ps r)
  | constant (ctor : Ident) (r : Range) : Written (.of (.ctor ctor.text) []) (.construct ctor none r)
  | single {c : Case} {p : Pattern} (ctor : Ident) (r : Range) (hc : Written c p) :
      Written (.of (.ctor ctor.text) [c]) (.construct ctor (some p) r)
  | several {cs : List Case} {ps : List Pattern} (ctor : Ident) (r r' : Range)
      (hlength : 2 ≤ cs.length) (hcs : List.Forall₂ Written cs ps) :
      Written (.of (.ctor ctor.text) cs) (.construct ctor (some (.tuple ps r')) r)

theorem Each.writable {env : VariantEnv} {c : Case} {t : Ty} (h : c.Each Head.Suggested)
    (hfits : c.Fits env t) : c.Writable := by
  induction h generalizing t with
  | any => exact .any
  | @of h cs hh _ ih =>
      cases hfits with
      | of hsplits _ hcs =>
          have hparts : ∀ c ∈ cs, c.Writable := fun c hc => by
            obtain ⟨i, hi, rfl⟩ := List.mem_iff_getElem.1 hc
            exact ih _ hc (hcs.get hi (hcs.length_eq ▸ hi))
          cases hsplits with
          | int | string => exact hh.elim
          | unit | bool | nil =>
              cases hcs
              constructor
          | cons =>
              match cs, hcs with
              | [c, d], _ => exact .cons (hparts c (by simp)) (hparts d (by simp))
          | tuple r hn =>
              obtain rfl := hn
              rw [← hcs.length_eq] at hh ⊢
              exact .tuple hh hparts
          | ctor => exact .ctor hh hparts

end Case

namespace Coverage

variable {env : VariantEnv} {patterns : List CorePattern} {c : Case}

theorem suggested_of_signature (henv : env.ListsAll)
    (hnames : ∀ name c, env.constructor? name = some c → Spells .constructor name) {h : Head}
    {sig : List (Head × Nat)} (hh : h.Sized) (hsig : signature env h = some sig) :
    ∀ entry ∈ sig, entry.1.Suggested := by
  intro entry hentry
  cases h with
  | int | string => cases hsig
  | bool | nil | cons =>
      obtain rfl := Option.some.inj hsig
      rcases List.mem_pair.1 hentry with rfl | rfl <;> trivial
  | unit =>
      obtain rfl := Option.some.inj hsig
      obtain rfl := List.mem_singleton.1 hentry
      trivial
  | tuple n =>
      obtain rfl := Option.some.inj hsig
      obtain rfl := List.mem_singleton.1 hentry
      exact hh n rfl
  | ctor name =>
      cases hc : env.constructor? name with
      | none => simp [signature, hc] at hsig
      | some c =>
          obtain ⟨sig', hsig', hlists⟩ := exists_isSignature_variant henv hc [] .erased
          obtain rfl := Option.some.inj (hsig.symm.trans hsig')
          obtain ⟨ts, hts, -⟩ := (hlists entry.1 entry.2).1 hentry
          generalize entry.1 = h' at hts
          cases hts with
          | ctor _ _ hd _ => exact hnames _ _ hd

/-- A missing case can be written as a pattern. -/
theorem writable_missing (henv : env.ListsAll)
    (hnames : ∀ name c, env.constructor? name = some c → Spells .constructor name) {t : Ty}
    (hsized : ∀ p ∈ patterns, (Case.ofPattern p).Each Head.Sized)
    (h : (analyze env patterns).missing = some c) (hfits : c.Fits env t) : c.Writable := by
  obtain ⟨row, hmissing, hhead⟩ := Option.bind_eq_some_iff.1 h
  refine Case.Each.writable ?_ hfits
  refine each_missing (fun _ _ hh hsig => suggested_of_signature henv hnames hh hsig) ?_ hmissing c
    (List.mem_of_mem_head? hhead)
  intro row hrow d hd
  obtain ⟨p, hp, rfl⟩ := List.mem_map.1 hrow
  obtain rfl := List.mem_singleton.1 hd
  exact hsized p hp

end Coverage

end FieldML

/-! ### Reading the text -/

open FieldML.Token FieldML.Parser

namespace FieldML

namespace Parser

variable {inside : Bool} {ws : List Word} {Q Q' : Pattern → Prop} {text : String}

/-- The words are read as a pattern, which may have to stand inside another one. -/
def ReadsInside (inside : Bool) (ws : List Word) (Q : Pattern → Prop) : Prop :=
  if inside then ReadsAtom ws Q else ReadsChain ws Q

theorem ReadsAtom.readsInside (h : ReadsAtom ws Q) (inside : Bool) : ReadsInside inside ws Q := by
  cases inside with
  | true => exact h
  | false => exact h.toReadsCtor.chain

/-- The text is read in its place, in parentheses if need be. -/
theorem ReadsChain.wrap (h : ReadsChain ws Q) (htext : Writes text ws) (inside : Bool) :
    ∃ ws', Writes (Case.parens inside text) ws' ∧ ReadsInside inside ws' Q := by
  cases inside with
  | true => exact ⟨_, htext.parens, h.parens⟩
  | false => exact ⟨ws, htext, h⟩

end Parser

namespace Case

variable {c : Case} {cs : List Case} {name : String}

/-- The case is printed as words that are read as a pattern for it. -/
def Prints (inside : Bool) (c : Case) : Prop :=
  ∃ ws, Writes (c.print inside) ws ∧ ReadsInside inside ws c.Written

theorem prints_of_atom {text : String} {ws : List Word} {inside : Bool}
    (hprint : c.print inside = text) (htext : Writes text ws) (hreads : ReadsAtom ws c.Written) :
    c.Prints inside := ⟨ws, hprint ▸ htext, hreads.readsInside inside⟩

theorem prints_of_chain {text : String} {ws : List Word} {inside : Bool}
    (hprint : c.print inside = parens inside text) (htext : Writes text ws)
    (hreads : ReadsChain ws c.Written) : c.Prints inside := by
  obtain ⟨ws', htext', hreads'⟩ := hreads.wrap htext inside
  exact ⟨ws', hprint ▸ htext', hreads'⟩

theorem printAll_eq (cs : List Case) : printAll cs = ", ".intercalate (cs.map (print false)) := by
  match cs with
  | [] => rfl
  | [c] => simp [printAll]
  | c :: d :: cs =>
      rw [printAll, printAll_eq (d :: cs), List.map_cons, List.map_cons, List.map_cons,
        String.intercalate_cons_cons]
      exact nofun

/-- Several cases between parentheses. -/
theorem writes_printAll (hlength : 2 ≤ cs.length) (hcs : ∀ c ∈ cs, c.Prints false) :
    ∃ ws, Writes ("(" ++ printAll cs ++ ")") ws ∧
      ReadsAtom ws fun p => ∃ ps r, p = .tuple ps r ∧ List.Forall₂ Written cs ps := by
  have hwords : ∃ l : List (Case × List Word), l.map Prod.fst = cs ∧
      List.Forall₂ Writes (cs.map (print false)) (l.map Prod.snd) ∧
      ∀ e ∈ l, ReadsChain e.2 e.1.Written := by
    clear hlength
    induction cs with
    | nil => exact ⟨[], rfl, .nil, List.forall_mem_nil _⟩
    | cons c cs ih =>
        obtain ⟨⟨ws, hwrites, hreads⟩, hcs⟩ := List.forall_mem_cons.1 hcs
        obtain ⟨l, rfl, hall, hl⟩ := ih hcs
        exact ⟨(c, ws) :: l, rfl, .cons hwrites hall, List.forall_mem_cons.2 ⟨hreads, hl⟩⟩
  obtain ⟨l, rfl, hwrites, hreads⟩ := hwords
  match l, hlength with
  | d :: e :: l, _ =>
      cases hwrites with
      | cons hd hwrites =>
          rw [printAll_eq]
          refine ⟨_, (writes_intercalate separates_comma hd hwrites).parens,
            (readsAtom_tuple hreads).mono ?_⟩
          rintro _ ⟨ps, r, rfl, hps⟩
          exact ⟨ps, r, rfl, List.forall₂_map_left_iff.2 hps⟩

/-- What is printed of a case is read as a pattern for it, in every place. -/
theorem Writable.prints (h : c.Writable) (inside : Bool) : c.Prints inside := by
  induction h generalizing inside with
  | any =>
      have htext : Writes "_" [(.ident, "_")] := writes_name ⟨_, _, rfl, rfl⟩ (Or.inl rfl)
      refine prints_of_atom (by rw [print]) htext (readsAtom_wildcard.mono ?_)
      rintro _ ⟨r, rfl⟩
      exact .any r
  | bool b =>
      have htext : Writes (if b then "true" else "false")
          [(.keyword, if b then "true" else "false")] := by
        cases b <;> exact writes_name ⟨_, _, rfl, rfl⟩ (Or.inr (Or.inr rfl))
      refine prints_of_atom (by rw [print]) htext ((readsAtom_bool b).mono ?_)
      rintro _ ⟨r, rfl⟩
      exact .bool b r
  | unit =>
      refine prints_of_atom (by rw [print]) writes_parens_nil (readsAtom_unit.mono ?_)
      rintro _ ⟨r, rfl⟩
      exact .unit r
  | nil =>
      refine prints_of_atom (by rw [print]) writes_brackets_nil (readsAtom_nil.mono ?_)
      rintro _ ⟨r, rfl⟩
      exact .nil r
  | cons _ _ ihc ihd =>
      obtain ⟨ws, hc, hreads⟩ := ihc true
      obtain ⟨ws', hd, hreads'⟩ := ihd false
      have hchain := ReadsCtor.cons (ReadsAtom.toReadsCtor hreads) hreads'
      refine prints_of_chain (by rw [print]) (hc.separated separates_cons hd) (hchain.mono ?_)
      rintro _ ⟨head, tail, r, rfl, hhead, htail⟩
      exact .cons r hhead htail
  | @tuple cs hlength _ ih =>
      obtain ⟨ws, htext, hreads⟩ := writes_printAll hlength fun c hc => ih c hc false
      refine prints_of_atom (by rw [print]; rfl) htext (hreads.mono ?_)
      rintro _ ⟨ps, r, rfl, hps⟩
      exact .tuple r hps
  | @ctor name cs hname _ ih =>
      have hctor : Writes name [(.constructor, name)] := writes_name hname (Or.inr (Or.inl rfl))
      match cs with
      | [] =>
          refine prints_of_atom (by rw [print]) hctor ((readsAtom_constant name).mono ?_)
          rintro _ ⟨ctor, r, rfl, rfl⟩
          exact .constant ctor r
      | [c] =>
          obtain ⟨ws, hc, hreads⟩ := ih c List.mem_cons_self true
          have hchain := (ReadsAtom.construct hreads name).chain
          refine prints_of_chain (by rw [print]) (hctor.spaced hc) (hchain.mono ?_)
          rintro _ ⟨ctor, arg, r, rfl, rfl, harg⟩
          exact .single ctor r harg
      | c :: d :: cs =>
          obtain ⟨ws, htext, hreads⟩ :=
            writes_printAll (by simp) fun c hc => ih c hc false
          have hchain := (ReadsAtom.construct hreads name).chain
          refine prints_of_chain ?_ (hctor.spaced htext) (hchain.mono ?_)
          · rw [print]
            · have hspace : (" (" : String) = " " ++ "(" := rfl
              simp only [hspace, ToString.toString, ← String.append_assoc]
            all_goals exact nofun
          · rintro _ ⟨ctor, arg, r, rfl, rfl, ps, r', rfl, hps⟩
            exact .several ctor r r' (by simp) hps

/-- The text of a case that can be written as a pattern is read as such a pattern. -/
theorem Writable.reads (h : c.Writable) :
    ∃ tokens, lex (c.print false) = .ok tokens ∧
      ReadsAs (Parser.ofTokens Parser.pattern tokens) c.Written := by
  obtain ⟨ws, htext, hreads⟩ := h.prints false
  refine reads_text (fun n s hs => shortens_pattern (enough_grammar (n + 1)) (by omega)) htext
    fun n => ?_
  exact ReadsChain.gives_pattern hreads n ⟨rfl, by decide, by decide⟩

end Case

end FieldML
