import FieldML.Proofs.Check.Scheme
import FieldML.Proofs.Reading.Token
import FieldML.Proofs.Reading.TypeExpr
import FieldML.Ty.Printer
import FieldML.VariantEnv
import Mathlib.Data.List.Forall2

/-!
# The text of a type is read as it was written

The printer puts a type into parentheses where the place binds more tightly than the type does, which
is where the parser needs them. Along the type the printer names variables and the parser meets
names, in the same order.
-/

/-! ## Names of type variables in print

The variables are numbered in the order in which the printer meets them, and different numbers have
different names. -/

namespace FieldML.TypeNames

open Token

/-- The letter of the name with this number. -/
def letter (index : Nat) : Char := Char.ofNat ('a'.toNat + index % 26)

/-- The name with this number without its quote. -/
def label (index : Nat) : String :=
  String.ofList (letter index :: if index < 26 then [] else Nat.toDigits 10 (index / 26))

theorem toList_label (index : Nat) : (label index).toList =
    letter index :: if index < 26 then [] else Nat.toDigits 10 (index / 26) :=
  String.toList_ofList

theorem toList_nameOf (index : Nat) : (nameOf index).toList = '\'' :: (label index).toList := by
  rw [toList_label]
  unfold nameOf
  dsimp only
  split
  · simp [toString, letter]
  · simp [toString, letter]

theorem toNat_letter (index : Nat) : (letter index).toNat = 97 + index % 26 := by
  have hsmall : ∀ m < 26, (Char.ofNat ('a'.toNat + m)).toNat = 97 + m := by decide
  exact hsmall _ (Nat.mod_lt _ (by decide))

theorem isNameChar_letter (index : Nat) : isNameChar (letter index) = true := by
  have hall : ∀ m < 26, isNameChar (Char.ofNat ('a'.toNat + m)) = true := by decide +kernel
  exact hall _ (Nat.mod_lt _ (by decide))

theorem isNameChar_label {index : Nat} {c : Char} (hc : c ∈ (label index).toList) :
    isNameChar c = true := by
  rw [toList_label] at hc
  rcases List.mem_cons.1 hc with rfl | hc
  · exact isNameChar_letter index
  · split at hc
    · cases hc
    · exact isNameChar_of_isDigit (Nat.isDigit_of_mem_toDigits (by decide) (by decide) hc)

theorem label_injective : Function.Injective label := by
  intro i j h
  have hlist := congrArg String.toList h
  rw [toList_label, toList_label] at hlist
  obtain ⟨hletter, hdigits⟩ := List.cons.inj hlist
  have hmod : i % 26 = j % 26 := by
    have hnat := congrArg Char.toNat hletter
    rw [toNat_letter, toNat_letter] at hnat
    omega
  have hne : ∀ n, Nat.toDigits 10 n ≠ [] := fun n => Nat.toDigits_ne_nil
  split_ifs at hdigits with hi hj
  · omega
  · exact absurd hdigits.symm (hne _)
  · exact absurd hdigits (hne _)
  · have hdiv : i / 26 = j / 26 := by
      have hvalue := congrArg (Nat.ofDigitChars 10 · 0) hdigits
      simpa only [Nat.ofDigitChars_ten_toDigits] using hvalue
    omega

theorem writes_nameOf (index : Nat) : Writes (nameOf index) [(.typeVar, label index)] where
  lexes {cs rest} hstop h := by
    rw [toList_nameOf, List.cons_append]
    refine lexes_typeVar ?_ (fun c => isNameChar_label) hstop h
    rw [toList_label]
    exact List.cons_ne_nil _ _
  start := ⟨'\'', _, toList_nameOf index, by decide⟩

/-! ### Naming one variable after the other -/

variable {names all : TypeNames} {v w : TypeVar} {vs ws : List TypeVar}

/-- The names once this variable has one, too. -/
def add (names : TypeNames) (v : TypeVar) : TypeNames := if v ∈ names then names else names ++ [v]

/-- The names once all these variables have one. -/
def addAll (names : TypeNames) (vs : List TypeVar) : TypeNames := vs.foldl add names

theorem addAll_append : names.addAll (vs ++ ws) = (names.addAll vs).addAll ws :=
  List.foldl_append

theorem prefix_add (names : TypeNames) (v : TypeVar) : names <+: names.add v := by
  unfold add
  split
  · exact List.prefix_rfl
  · exact List.prefix_append _ _

theorem prefix_addAll (names : TypeNames) (vs : List TypeVar) : names <+: names.addAll vs := by
  induction vs generalizing names with
  | nil => exact List.prefix_rfl
  | cons v vs ih => exact (names.prefix_add v).trans (ih _)

theorem mem_add (names : TypeNames) (v : TypeVar) : v ∈ names.add v := by
  unfold add
  split
  · assumption
  · simp

theorem mem_addAll (hv : v ∈ vs) : v ∈ names.addAll vs := by
  induction vs generalizing names with
  | nil => cases hv
  | cons w vs ih =>
      rcases List.mem_cons.1 hv with rfl | hv
      · exact (prefix_addAll _ vs).subset (names.mem_add v)
      · exact ih hv

theorem idxOf_isPrefix (h : names <+: all) (hv : v ∈ names) : all.idxOf v = names.idxOf v := by
  obtain ⟨after, rfl⟩ := h
  exact List.idxOf_append_of_mem hv

/-- A variable without a name gets the next one. -/
theorem idxOf_of_notMem (hv : v ∉ names) (h : names.add v <+: all) :
    all.idxOf v = names.length := by
  rw [idxOf_isPrefix h (names.mem_add v), add, if_neg hv, List.idxOf_append_of_notMem hv]
  simp

theorem nameFor_eq (v : TypeVar) (names : TypeNames) (h : names.add v <+: all) :
    nameFor v names = (nameOf (all.idxOf v), names.add v) := by
  unfold nameFor
  cases hfind : names.idxOf? v with
  | none =>
      have hv : v ∉ names := List.idxOf?_eq_none_iff.1 hfind
      rw [idxOf_of_notMem hv h, add, if_neg hv]
  | some index =>
      have hv : v ∈ names := by
        by_contra hnot
        rw [List.idxOf?_eq_none_iff.2 hnot] at hfind
        cases hfind
      have hindex : names.idxOf v = index := by
        rw [List.idxOf_eq_getD_idxOf?, hfind, Option.getD_some]
      rw [add, if_pos hv] at h ⊢
      rw [idxOf_isPrefix h hv, hindex]

/-- The name that a variable has among all names, without its quote. -/
def labelOf (all : TypeNames) (v : TypeVar) : String := label (all.idxOf v)

theorem labelOf_inj (hv : v ∈ all) : all.labelOf v = all.labelOf w ↔ v = w := by
  unfold labelOf
  rw [label_injective.eq_iff, List.idxOf_inj hv]

end FieldML.TypeNames

/-! ## The text of a type is read as it was written -/

open FieldML.Token FieldML.Parser

namespace FieldML

/-- A type over the declarations that can be read back. It has no quantifiers, its products have at
least two components, its names are spelled like names, and its declared types are as their use
makes them. No argument of a synonym mentions a parameter of that synonym, so that the order in which
the parameters give way to the arguments makes no difference. References are left out: after a type
the word for them is read as an operator. -/
inductive Ty.Readable (env : VariantEnv) : Ty → Prop
  | base (b : BaseTy) (r : Range) : Readable env (.base b r)
  | var (v : TypeVar) (r : Range) : Readable env (.var v r)
  | func {p q : Ty} (r : Range) (hp : Readable env p) (hq : Readable env q) :
      Readable env (.func p q r)
  | list {t : Ty} (r : Range) (ht : Readable env t) : Readable env (.list t r)
  | product {ts : List Ty} (r : Range) (hlength : 2 ≤ ts.length) (hts : ∀ t ∈ ts, Readable env t) :
      Readable env (.product ts r)
  | variant {ts : List Ty} {n : String} {r : Range} (hname : Spells .ident n)
      (hresolve : env.resolve n ts r = .ok (.variant n ts r)) (hts : ∀ t ∈ ts, Readable env t) :
      Readable env (.variant n ts r)
  | synonym {ts : List Ty} {n : String} {t : Ty} {r : Range} (hname : Spells .ident n)
      (hresolve : env.resolve n ts r = .ok (.synonym n ts t r))
      (hapart : ∀ params body, env.definition? n = some (.synonym params body) →
        ApartFrom params ts)
      (hts : ∀ t ∈ ts, Readable env t) : Readable env (.synonym n ts t r)
  | record {fs : List (String × Ty)} (r : Range) (hsorted : Fields.Sorted fs)
      (hnames : ∀ p ∈ fs, Spells .ident p.1) (hfs : ∀ p ∈ fs, Readable env p.2) :
      Readable env (.record fs r)

/-- The written type has the form of the type, and the same names in it. -/
inductive Ty.Written (name : TypeVar → String) : Ty → TypeExpr → Prop
  | base {b : BaseTy} {r q : Range} {n : Ident} (hn : n.text = b.name) :
      Written name (.base b r) (.named [] n q)
  | var {v : TypeVar} {r : Range} {n : Ident} (hn : n.text = name v) : Written name (.var v r) (.var n)
  | func {s t : Ty} {e f : TypeExpr} {r q : Range} (hs : Written name s e) (ht : Written name t f) :
      Written name (.func s t r) (.func e f q)
  | list {t : Ty} {e : TypeExpr} {r q : Range} {n : Ident} (hn : n.text = "list")
      (ht : Written name t e) : Written name (.list t r) (.named [e] n q)
  | product {ts : List Ty} {es : List TypeExpr} {r q : Range}
      (hts : List.Forall₂ (Written name) ts es) : Written name (.product ts r) (.product es q)
  | variant {ts : List Ty} {es : List TypeExpr} {m : String} {r q : Range} {n : Ident}
      (hn : n.text = m) (hts : List.Forall₂ (Written name) ts es) :
      Written name (.variant m ts r) (.named es n q)
  | synonym {ts : List Ty} {t : Ty} {es : List TypeExpr} {m : String} {r q : Range} {n : Ident}
      (hn : n.text = m) (hts : List.Forall₂ (Written name) ts es) :
      Written name (.synonym m ts t r) (.named es n q)
  | record {fs : List (String × Ty)} {gs : List (Ident × TypeExpr)} {r q : Range}
      (hnames : List.Forall₂ (fun f g => g.1.text = f.1) fs gs)
      (hfs : List.Forall₂ (Written name) (fs.map Prod.snd) (gs.map Prod.snd)) :
      Written name (.record fs r) (.record gs q)

namespace Parser

variable {ws : List Word} {Q : TypeExpr → Prop} {text : String}

/-- The words are read in a place of this level. -/
def ReadsAt (place : TypeLevel) (ws : List Word) (Q : TypeExpr → Prop) : Prop :=
  match place with
  | .arrow => ReadsArrow ws Q
  | .product => ReadsProduct ws Q
  | .applied => ReadsApplied ws Q

theorem ReadsApplied.at (h : ReadsApplied ws Q) (place : TypeLevel) : ReadsAt place ws Q := by
  cases place with
  | arrow => exact h.product.arrow
  | product => exact h.product
  | applied => exact h

/-- The text is read in its place, in parentheses if need be. -/
theorem ReadsAt.wrap {own : TypeLevel} (h : ReadsAt own ws Q) (htext : Writes text ws)
    (place : TypeLevel) :
    ∃ ws', Writes (place.wrap own text) ws' ∧ ReadsAt place ws' Q := by
  have hparens : ReadsArrow ws Q →
      ∃ ws', Writes ("(" ++ text ++ ")") ws' ∧ ∀ place, ReadsAt place ws' Q := fun harrow =>
    ⟨_, htext.parens, harrow.parens.at⟩
  cases place <;> cases own
  case arrow.arrow | product.product | applied.applied => exact ⟨ws, htext, h⟩
  case arrow.product => exact ⟨ws, htext, ReadsProduct.arrow h⟩
  case arrow.applied | product.applied => exact ⟨ws, htext, ReadsApplied.at h _⟩
  case product.arrow | applied.arrow =>
    obtain ⟨ws', hwrites, hreads⟩ := hparens h
    exact ⟨ws', hwrites, hreads _⟩
  case applied.product =>
    obtain ⟨ws', hwrites, hreads⟩ := hparens (ReadsProduct.arrow h)
    exact ⟨ws', hwrites, hreads _⟩

end Parser

namespace Ty

variable {all names : TypeNames} {place : TypeLevel} {ts : List Ty} {fs : List (String × Ty)} {t : Ty}

theorem printer_bind {α β : Type} (x : StateM TypeNames α) (f : α → StateM TypeNames β)
    (names : TypeNames) : (x >>= f) names = f (x names).1 (x names).2 := rfl

theorem freeVarsOfList_cons (t : Ty) (ts : List Ty) :
    freeVarsOfList [] (t :: ts) = t.freeVars ++ freeVarsOfList [] ts := by
  rw [freeVarsOfList]
  rfl

theorem freeVarsOfFields_cons (n : String) (t : Ty) (fs : List (String × Ty)) :
    freeVarsOfFields [] ((n, t) :: fs) = t.freeVars ++ freeVarsOfFields [] fs := by
  rw [freeVarsOfFields]
  rfl

/-- In this place and after these names the type is printed as words that are read as the type. -/
def Prints (all : TypeNames) (place : TypeLevel) (t : Ty) : Prop :=
  ∀ names : TypeNames, names.addAll t.freeVars <+: all → ∃ text ws,
    t.print place names = (text, names.addAll t.freeVars) ∧ Writes text ws ∧
      ReadsAt place ws (t.Written all.labelOf)

theorem printList_eq (h : ∀ t ∈ ts, t.Prints all place)
    (hnames : names.addAll (freeVarsOfList [] ts) <+: all) :
    ∃ (texts : List String) (l : List (Ty × List Word)),
      printList place ts names = (texts, names.addAll (freeVarsOfList [] ts)) ∧
        l.map Prod.fst = ts ∧ List.Forall₂ Writes texts (l.map Prod.snd) ∧
        ∀ d ∈ l, ReadsAt place d.2 (d.1.Written all.labelOf) := by
  induction ts generalizing names with
  | nil => exact ⟨[], [], rfl, rfl, .nil, List.forall_mem_nil _⟩
  | cons t ts ih =>
      obtain ⟨ht, hts⟩ := List.forall_mem_cons.1 h
      rw [freeVarsOfList_cons, TypeNames.addAll_append] at hnames ⊢
      obtain ⟨text, ws, hprint, hwrites, hreads⟩ :=
        ht names ((TypeNames.prefix_addAll _ _).trans hnames)
      obtain ⟨texts, l, hprints, hl, hall, hreadsAll⟩ := ih hts hnames
      refine ⟨text :: texts, (t, ws) :: l, ?_, congrArg (t :: ·) hl, .cons hwrites hall,
        List.forall_mem_cons.2 ⟨hreads, hreadsAll⟩⟩
      rw [printList, printer_bind, hprint, printer_bind, hprints]
      rfl

theorem printFields_eq (hspell : ∀ p ∈ fs, Spells .ident p.1)
    (h : ∀ p ∈ fs, p.2.Prints all .arrow)
    (hnames : names.addAll (freeVarsOfFields [] fs) <+: all) :
    ∃ (texts : List String) (l : List ((String × Ty) × List Word)),
      printFields fs names = (texts, names.addAll (freeVarsOfFields [] fs)) ∧
        l.map Prod.fst = fs ∧
        List.Forall₂ Writes texts (l.map fun d => fieldWords d.1.1 d.2) ∧
        ∀ d ∈ l, ReadsArrow d.2 (d.1.2.Written all.labelOf) := by
  induction fs generalizing names with
  | nil => exact ⟨[], [], rfl, rfl, .nil, List.forall_mem_nil _⟩
  | cons p fs ih =>
      obtain ⟨n, t⟩ := p
      obtain ⟨hn, hspell⟩ := List.forall_mem_cons.1 hspell
      obtain ⟨ht, hfs⟩ := List.forall_mem_cons.1 h
      rw [freeVarsOfFields_cons, TypeNames.addAll_append] at hnames ⊢
      obtain ⟨text, ws, hprint, hwrites, hreads⟩ :=
        ht names ((TypeNames.prefix_addAll _ _).trans hnames)
      obtain ⟨texts, l, hprints, hl, hall, hreadsAll⟩ := ih hspell hfs hnames
      have hfield : Writes (n ++ " : " ++ text) (fieldWords n ws) :=
        (writes_name hn (Or.inl rfl)).separated separates_colon hwrites
      refine ⟨_ :: texts, ((n, t), ws) :: l, ?_, congrArg ((n, t) :: ·) hl, .cons hfield hall,
        List.forall_mem_cons.2 ⟨hreads, hreadsAll⟩⟩
      rw [printFields, printer_bind, hprint, printer_bind, hprints]
      rfl

theorem printApplied_several (n : String) (t t' : Ty) (ts : List Ty) (names : TypeNames) :
    printApplied n (t :: t' :: ts) names =
      ("(" ++ commas (printList .arrow (t :: t' :: ts) names).1 ++ ")" ++ " " ++ n,
        (printList .arrow (t :: t' :: ts) names).2) := by
  have hspace : (") " : String) = ")" ++ " " := rfl
  rw [printApplied, printList]
  · simp only [hspace, ← String.append_assoc]
    rfl
  · exact nofun

/-- A type constructor with its arguments. -/
theorem printApplied_eq {n : String} (hn : Spells .ident n)
    (h : ∀ t ∈ ts, ∀ place, t.Prints all place)
    (hnames : names.addAll (freeVarsOfList [] ts) <+: all) : ∃ text ws,
      printApplied n ts names = (text, names.addAll (freeVarsOfList [] ts)) ∧ Writes text ws ∧
        ReadsApplied ws fun e => ∃ args name range, e = .named args name range ∧ name.text = n ∧
          List.Forall₂ (Written all.labelOf) ts args := by
  have hname : Writes n [(.ident, n)] := writes_name hn (Or.inl rfl)
  match ts with
  | [] =>
      refine ⟨n, _, rfl, hname, (readsApplied_name n).mono ?_⟩
      rintro _ ⟨name, range, rfl, htext⟩
      exact ⟨[], name, range, rfl, htext, .nil⟩
  | [t] =>
      rw [freeVarsOfList_cons, freeVarsOfList, List.append_nil] at hnames ⊢
      obtain ⟨text, ws, hprint, hwrites, hreads⟩ := h t List.mem_cons_self .applied names hnames
      refine ⟨text ++ " " ++ n, _, ?_, hwrites.spaced hname, ReadsApplied.named hreads n |>.mono ?_⟩
      · rw [printApplied, printer_bind, hprint]
        rfl
      · rintro _ ⟨arg, name, range, rfl, htext, harg⟩
        exact ⟨[arg], name, range, rfl, htext, .cons harg .nil⟩
  | t :: t' :: ts =>
      obtain ⟨texts, l, hprints, hl, hall, hreads⟩ :=
        printList_eq (fun u hu => h u hu .arrow) hnames
      obtain ⟨d, ds, rfl⟩ := List.exists_cons_of_ne_nil (l := l) (by rintro rfl; cases hl)
      cases hall with
      | @cons a _ texts _ ha hall =>
          have hparens := (writes_intercalate separates_comma ha hall).parens.spaced hname
          refine ⟨_, _, ?_, hparens, (readsApplied_args hreads n).mono ?_⟩
          · rw [printApplied_several, hprints]
            rfl
          · rintro _ ⟨args, name, range, rfl, htext, hargs⟩
            refine ⟨args, name, range, rfl, htext, ?_⟩
            rw [← hl]
            exact List.forall₂_map_left_iff.2 hargs

theorem prints_of_applied {t : Ty} (h : ∀ names : TypeNames, names.addAll t.freeVars <+: all →
      ∃ text ws, (∀ place, t.print place names = (text, names.addAll t.freeVars)) ∧
        Writes text ws ∧ ReadsApplied ws (t.Written all.labelOf)) (place : TypeLevel) :
    t.Prints all place := by
  intro names hnames
  obtain ⟨text, ws, hprint, hwrites, hreads⟩ := h names hnames
  exact ⟨text, ws, hprint place, hwrites, hreads.at place⟩

theorem prints_of_wrapped {t : Ty} (own : TypeLevel)
    (h : ∀ names : TypeNames, names.addAll t.freeVars <+: all → ∃ text ws,
      (∀ place : TypeLevel, t.print place names = (place.wrap own text, names.addAll t.freeVars)) ∧
        Writes text ws ∧ ReadsAt own ws (t.Written all.labelOf)) (place : TypeLevel) :
    t.Prints all place := by
  intro names hnames
  obtain ⟨text, ws, hprint, hwrites, hreads⟩ := h names hnames
  obtain ⟨ws', hwrites', hreads'⟩ := hreads.wrap hwrites place
  exact ⟨_, ws', hprint place, hwrites', hreads'⟩

theorem writes_braces {texts : List String} {wss : List (List Word)}
    (h : List.Forall₂ Writes texts wss) : Writes (braces texts)
      ((.symbol, "\x7b") :: (listed (.symbol, ",") wss ++ [(.symbol, "\x7d")])) := by
  cases h with
  | nil => exact writes_braces_nil
  | cons ha hall => exact (writes_intercalate separates_comma ha hall).braces

/-- What is printed of a type is read as the type, in every place. -/
theorem Readable.prints {env : VariantEnv} {t : Ty} (ht : t.Readable env) (place : TypeLevel) :
    t.Prints all place := by
  induction ht generalizing place with
  | base b r =>
      refine prints_of_applied (fun names _ => ?_) place
      have hname : Spells .ident b.name := by
        cases b <;> exact ⟨_, _, rfl, rfl⟩
      refine ⟨b.name, _, fun _ => rfl, writes_name hname (Or.inl rfl),
        (readsApplied_name b.name).mono ?_⟩
      rintro _ ⟨name, range, rfl, hn⟩
      exact .base hn
  | var v r =>
      refine prints_of_applied (fun names hnames => ?_) place
      refine ⟨_, _, fun _ => TypeNames.nameFor_eq v names hnames, TypeNames.writes_nameOf _,
        (readsApplied_var _).mono ?_⟩
      rintro _ ⟨name, rfl, hn⟩
      exact .var hn
  | @func p q r _ _ ihp ihq =>
      refine prints_of_wrapped .arrow (fun names hnames => ?_) place
      have hvars : (Ty.func p q r).freeVars = p.freeVars ++ q.freeVars := rfl
      rw [hvars, TypeNames.addAll_append] at hnames ⊢
      obtain ⟨param, ws, hp, hparam, hreads⟩ :=
        ihp .product names ((TypeNames.prefix_addAll _ _).trans hnames)
      obtain ⟨result, ws', hq, hresult, hreads'⟩ := ihq .arrow _ hnames
      refine ⟨_, _, fun place => ?_, hparam.separated separates_arrow hresult,
        ReadsArrow.func hreads hreads' |>.mono ?_⟩
      · rw [print, printer_bind, hp, printer_bind, hq]
        rfl
      · rintro _ ⟨e, f, range, rfl, he, hf⟩
        exact .func he hf
  | @list t r _ ih =>
      refine prints_of_applied (fun names hnames => ?_) place
      obtain ⟨text, ws, hprint, hwrites, hreads⟩ := ih .applied names hnames
      have hname : Writes "list" [(.ident, "list")] := writes_name ⟨_, _, rfl, rfl⟩ (Or.inl rfl)
      refine ⟨_, _, fun place => ?_, hwrites.spaced hname, ReadsApplied.named hreads "list" |>.mono ?_⟩
      · rw [print, printer_bind, hprint, String.append_assoc]
        rfl
      · rintro _ ⟨arg, name, range, rfl, hn, harg⟩
        exact .list hn harg
  | @product ts r hlength _ ih =>
      refine prints_of_wrapped .product (fun names hnames => ?_) place
      obtain ⟨texts, l, hprints, hl, hall, hreads⟩ :=
        printList_eq (fun u hu => ih u hu .applied) hnames
      subst hl
      match l, hlength with
      | d :: d' :: ds, _ =>
          cases hall with
          | @cons a _ texts _ ha hall =>
              obtain ⟨hd, hds⟩ := List.forall_mem_cons.1 hreads
              have hitems : ReadsProduct (listed (.symbol, "*") ((d :: d' :: ds).map Prod.snd))
                  fun e => ∃ es range, e = .product es range ∧
                    List.Forall₂ (fun d e => d.1.Written all.labelOf e) (d :: d' :: ds) es :=
                readsProduct_items hd hds (List.cons_ne_nil _ _)
              refine ⟨_, _, fun place => ?_, writes_intercalate separates_star ha hall,
                hitems.mono ?_⟩
              · rw [print, printer_bind, hprints]
                rfl
              · rintro _ ⟨es, range, rfl, hes⟩
                exact .product (List.forall₂_map_left_iff.2 hes)
  | @variant ts n r hname _ _ ih =>
      refine prints_of_applied (fun names hnames => ?_) place
      obtain ⟨text, ws, hprint, hwrites, hreads⟩ := printApplied_eq hname ih hnames
      refine ⟨text, ws, fun _ => ?_, hwrites, hreads.mono ?_⟩
      · rw [print, hprint]
        rfl
      · rintro _ ⟨args, name, range, rfl, hn, hargs⟩
        exact .variant hn hargs
  | @synonym ts n t r hname _ _ _ ih =>
      refine prints_of_applied (fun names hnames => ?_) place
      obtain ⟨text, ws, hprint, hwrites, hreads⟩ := printApplied_eq hname ih hnames
      refine ⟨text, ws, fun _ => ?_, hwrites, hreads.mono ?_⟩
      · rw [print, hprint]
        rfl
      · rintro _ ⟨args, name, range, rfl, hn, hargs⟩
        exact .synonym hn hargs
  | @record fs r _ hspell _ ih =>
      refine prints_of_applied (fun names hnames => ?_) place
      obtain ⟨texts, l, hprints, hl, hall, hreads⟩ :=
        printFields_eq hspell (fun p hp => ih p hp .arrow) hnames
      have hrecord : ReadsApplied ((.symbol, "\x7b") :: (listed (.symbol, ",")
          (l.map fun d => fieldWords d.1.1 d.2) ++ [(.symbol, "\x7d")]))
          fun e => ∃ fields range, e = .record fields range ∧ List.Forall₂
            (fun d f => f.1.text = d.1.1 ∧ d.1.2.Written all.labelOf f.2) l fields :=
        readsApplied_record hreads
      have hwritten : ∀ e, (∃ fields range, e = .record fields range ∧ List.Forall₂
          (fun d f => f.1.text = d.1.1 ∧ d.1.2.Written all.labelOf f.2) l fields) →
          (Ty.record fs r).Written all.labelOf e := by
        rintro _ ⟨fields, range, rfl, hfields⟩
        rw [← hl]
        refine .record ?_ ?_
        · exact List.forall₂_map_left_iff.2 (hfields.imp fun _ _ h => h.1)
        · rw [List.map_map, List.forall₂_map_left_iff, List.forall₂_map_right_iff]
          exact hfields.imp fun _ _ h => h.2
      have hprint : ∀ place : TypeLevel, (Ty.record fs r).print place names =
          (braces texts, names.addAll (Ty.record fs r).freeVars) := by
        intro place
        rw [print, printer_bind, hprints]
        rfl
      exact ⟨_, _, hprint, writes_braces hall, hrecord.mono hwritten⟩

end Ty

end FieldML
