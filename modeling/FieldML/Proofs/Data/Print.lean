import FieldML.Proofs.Data.Basic
import FieldML.Proofs.Data.Text
import FieldML.Proofs.Reading.Expr

/-!
# The text of data is read as the data

A value is printed in parentheses where it is the argument of a constructor and would not be read as
one piece there.
-/

open FieldML.Token FieldML.Parser

namespace FieldML

namespace Value

variable {v : Value} {vs : List Value} {fs : List (String × Value)} {cell : Nat → String}
  {name : String} {cells : Array Value}

/-- The value can be written: its strings are legible, its tuples have at least two components, and
its names are such. -/
inductive Writable : Value → Prop
  | unit : Writable .unit
  | bool (b : Bool) : Writable (.bool b)
  | int (n : Int64) : Writable (.int n)
  | string {s : String} (hs : Text.Legible s) : Writable (.string s)
  | list {items : List Value} (hitems : ∀ v ∈ items, Writable v) : Writable (.list items)
  | tuple {items : List Value} (hlength : 2 ≤ items.length) (hitems : ∀ v ∈ items, Writable v) :
      Writable (.tuple items)
  | record {fields : List (String × Value)} (hnames : ∀ f ∈ fields, Spells .ident f.1)
      (hfields : ∀ f ∈ fields, Writable f.2) : Writable (.record fields)
  | construct {name : String} {args : List Value} (hname : Spells .constructor name)
      (hargs : ∀ v ∈ args, Writable v) : Writable (.construct name args)

/-- The value is printed as words that are read as it, and also as an argument if it is not
compound. -/
def Prints (cell : Nat → String) (v : Value) : Prop :=
  ∃ ws, Writes (v.printWith cell) ws ∧ ReadsOperand ws v.Written ∧
    (v.isCompound = false → ReadsArgument ws v.Written)

theorem prints_of_argument {text : String} {ws : List Word} (hprint : v.printWith cell = text)
    (htext : Writes text ws) (hreads : ReadsArgument ws v.Written) : v.Prints cell :=
  ⟨ws, hprint ▸ htext, hreads.toReadsOperand, fun _ => hreads⟩

/-- As an argument a value is printed as words that are read as one. -/
theorem Prints.wrap (h : v.Prints cell) :
    ∃ ws, Writes (v.wrap (v.printWith cell)) ws ∧ ReadsArgument ws v.Written := by
  obtain ⟨ws, htext, hoperand, hargument⟩ := h
  unfold Value.wrap
  cases hcompound : v.isCompound with
  | true => exact ⟨_, htext.parens, hoperand.parens⟩
  | false => exact ⟨ws, htext, hargument hcompound⟩

/-- Printed values with their words. -/
theorem exists_words (h : ∀ v ∈ vs, v.Prints cell) :
    ∃ l : List (Value × List Word), l.map (·.1) = vs ∧
      List.Forall₂ Writes (printAllWith cell vs) (l.map (·.2)) ∧
      ∀ e ∈ l, ReadsOperand e.2 e.1.Written := by
  induction vs with
  | nil => exact ⟨[], rfl, .nil, List.forall_mem_nil _⟩
  | cons v vs ih =>
      obtain ⟨⟨ws, htext, hreads, -⟩, hvs⟩ := List.forall_mem_cons.1 h
      obtain ⟨l, rfl, hall, hl⟩ := ih hvs
      exact ⟨(v, ws) :: l, rfl, .cons htext hall, List.forall_mem_cons.2 ⟨hreads, hl⟩⟩

/-- Printed fields with the words of their values. -/
theorem exists_fieldWords (hnames : ∀ f ∈ fs, Spells .ident f.1) (h : ∀ f ∈ fs, f.2.Prints cell) :
    ∃ l : List ((String × Value) × List Word), l.map (·.1) = fs ∧
      List.Forall₂ Writes (printFieldsWith cell fs) (l.map fun e => fieldValueWords e.1.1 e.2) ∧
      ∀ e ∈ l, ReadsOperand e.2 e.1.2.Written := by
  induction fs with
  | nil => exact ⟨[], rfl, .nil, List.forall_mem_nil _⟩
  | cons f fs ih =>
      obtain ⟨⟨ws, htext, hreads, -⟩, hfs⟩ := List.forall_mem_cons.1 h
      obtain ⟨hname, hnames⟩ := List.forall_mem_cons.1 hnames
      obtain ⟨l, rfl, hall, hl⟩ := ih hnames hfs
      have hfield := (writes_name hname (Or.inl rfl)).separated separates_equals htext
      exact ⟨(f, ws) :: l, rfl, .cons hfield hall, List.forall_mem_cons.2 ⟨hreads, hl⟩⟩

theorem writes_commas {texts : List String} {wss : List (List Word)} (hne : wss ≠ [])
    (h : List.Forall₂ Writes texts wss) : Writes (commas texts) (listed (.symbol, ",") wss) := by
  cases h with
  | nil => exact absurd rfl hne
  | cons hfirst hrest => exact writes_intercalate separates_comma hfirst hrest

/-- Several values between parentheses. -/
theorem writes_tuple (hlength : 2 ≤ vs.length) (h : ∀ v ∈ vs, v.Prints cell) :
    ∃ ws, Writes ("(" ++ commas (printAllWith cell vs) ++ ")") ws ∧
      ReadsArgument ws fun e => ∃ es r, e = .tuple es r ∧ List.Forall₂ Written vs es := by
  obtain ⟨l, rfl, htexts, hreads⟩ := exists_words h
  rw [List.length_map] at hlength
  obtain ⟨d, l, rfl⟩ := List.exists_cons_of_length_pos (by omega : 0 < l.length)
  rw [List.length_cons] at hlength
  obtain ⟨e, l, rfl⟩ := List.exists_cons_of_length_pos (by omega : 0 < l.length)
  refine ⟨_, (writes_commas (List.cons_ne_nil _ _) htexts).parens,
    (readsArgument_tuple hreads).mono ?_⟩
  rintro _ ⟨es, r, rfl, hes⟩
  exact ⟨es, r, rfl, List.forall₂_map_left_iff.2 hes⟩

theorem prints_list (h : ∀ v ∈ vs, v.Prints cell) : (list vs).Prints cell := by
  obtain ⟨l, rfl, htexts, hreads⟩ := exists_words h
  refine prints_of_argument (by rw [printWith]) ?_ ((readsArgument_list hreads).mono ?_)
  · cases l with
    | nil => exact writes_brackets_nil
    | cons e l => exact (writes_commas (List.cons_ne_nil _ _) htexts).brackets
  · rintro _ ⟨es, r, rfl, hes⟩
    exact .list r (List.forall₂_map_left_iff.2 hes)

theorem written_record {l : List ((String × Value) × List Word)} {es : List (Ident × Expr)}
    (h : List.Forall₂ (fun e f => f.1.text = e.1.1 ∧ e.1.2.Written f.2) l es) (r : Range) :
    (record (l.map (·.1))).Written (.record es r) := by
  refine .record r ?_ ?_
  · induction h with
    | nil => rfl
    | cons hf _ ih => exact congrArg₂ List.cons hf.1 ih
  · rw [List.map_map, List.forall₂_map_left_iff, List.forall₂_map_right_iff]
    exact h.imp fun _ _ hf => hf.2

theorem prints_record (hnames : ∀ f ∈ fs, Spells .ident f.1) (h : ∀ f ∈ fs, f.2.Prints cell) :
    (record fs).Prints cell := by
  obtain ⟨l, rfl, htexts, hreads⟩ := exists_fieldWords hnames h
  have hargument := readsArgument_record (fun e => e.1.1) hreads
  refine prints_of_argument (by rw [printWith, braces]) ?_ (hargument.mono ?_)
  · cases l with
    | nil => exact writes_braces_nil
    | cons e l => exact (writes_commas (List.cons_ne_nil _ _) htexts).braces
  · rintro _ ⟨es, r, rfl, hes⟩
    exact written_record hes r

theorem prints_construct (hname : Spells .constructor name) (h : ∀ v ∈ vs, v.Prints cell) :
    (construct name vs).Prints cell := by
  have hctor : Writes name [(.constructor, name)] := writes_name hname (Or.inr (Or.inl rfl))
  cases vs with
  | nil =>
      refine prints_of_argument (by rw [printWith]) hctor ((readsArgument_constant name).mono ?_)
      rintro _ ⟨ctor, r, rfl, rfl⟩
      exact .constant ctor r
  | cons v vs =>
      have hcompound : (construct name (v :: vs)).isCompound = true := rfl
      cases vs with
      | nil =>
          obtain ⟨ws, htext, hreads⟩ := (h v List.mem_cons_self).wrap
          refine ⟨_, by rw [printWith]; exact hctor.spaced htext, (hreads.construct name).mono ?_,
            fun hatom => by rw [hcompound] at hatom; cases hatom⟩
          rintro _ ⟨ctor, arg, r, rfl, rfl, harg⟩
          exact .single ctor r harg
      | cons w vs =>
          have hlength : 2 ≤ (v :: w :: vs).length := by simp
          obtain ⟨ws, htext, hreads⟩ := writes_tuple hlength h
          refine ⟨_, ?_, (hreads.construct name).mono ?_,
            fun hatom => by rw [hcompound] at hatom; cases hatom⟩
          · rw [printWith]
            · have hspace : (" (" : String) = " " ++ "(" := rfl
              have hspaced := hctor.spaced htext
              simpa only [hspace, ← String.append_assoc, List.singleton_append] using hspaced
            all_goals simp
          · rintro _ ⟨ctor, arg, r, rfl, rfl, es, r', rfl, hes⟩
            exact .several ctor r r' hlength hes

/-- What is printed of a value that can be written is read as the value. -/
theorem Writable.prints (h : v.Writable) (cell : Nat → String) : v.Prints cell := by
  induction h with
  | unit =>
      refine prints_of_argument (by rw [printWith]) writes_parens_nil (readsArgument_unit.mono ?_)
      rintro _ ⟨r, rfl⟩
      exact .unit r
  | bool b =>
      have htext : Writes (if b then "true" else "false")
          [(.keyword, if b then "true" else "false")] := by
        cases b <;> exact writes_name ⟨_, _, rfl, rfl⟩ (Or.inr (Or.inr rfl))
      refine prints_of_argument (by rw [printWith]) htext ((readsArgument_bool b).mono ?_)
      rintro _ ⟨r, rfl⟩
      exact .bool b r
  | int n =>
      have hvalue := Text.int64OfDecimal?_toString n
      rcases writes_int n with ⟨-, htext⟩ | ⟨hneg, digits, hdigits, htext⟩
      · refine prints_of_argument (by rw [printWith]) htext ((readsArgument_number hvalue).mono ?_)
        rintro _ ⟨r, rfl⟩
        exact .int n r
      · refine ⟨_, by rwa [printWith], (readsOperand_negative (hdigits ▸ hvalue)).mono ?_, ?_⟩
        · rintro _ ⟨r, rfl⟩
          exact .int n r
        · intro hcompound
          rw [isCompound, decide_eq_true hneg] at hcompound
          cases hcompound
  | @string s hs =>
      refine prints_of_argument (by rw [printWith]) (writes_quoted hs)
        ((readsArgument_string s).mono ?_)
      rintro _ ⟨r, rfl⟩
      exact .string s r
  | list _ ih => exact prints_list ih
  | tuple hlength _ ih =>
      obtain ⟨ws, htext, hreads⟩ := writes_tuple hlength ih
      refine prints_of_argument (by rw [printWith]) htext (hreads.mono ?_)
      rintro _ ⟨es, r, rfl, hes⟩
      exact .tuple r hes
  | record hnames _ ih => exact prints_record hnames ih
  | construct hname _ ih => exact prints_construct hname ih

/-- The text of a value that can be written is a program that is the value in writing, unless it is
nested too deeply. -/
theorem Writable.reads (h : v.Writable) (cells : Array Value) :
    ∃ tokens, lex (v.print cells) = .ok tokens ∧
      ((∃ p, Program.ofTokens tokens = .ok p ∧ p.groups = [] ∧ v.Written p.body) ∨
        ∃ e, Program.ofTokens tokens = .error e ∧ e.IsNestingLimit) := by
  obtain ⟨ws, htext, hreads, -⟩ := h.prints (printCell cells cells.size)
  exact hreads.reads_program htext

end Value

end FieldML
