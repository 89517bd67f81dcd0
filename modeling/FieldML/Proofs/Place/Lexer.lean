import FieldML.Proofs.Place.Syntax
import FieldML.Proofs.Place.Pieces

/-!
# Where tokens are

The tokens of a text lie in it one after the other, and a fault in the spelling points into it.
-/

namespace FieldML.Token

open Position

/-- The tokens lie one after the other from a position on, and the end mark lies after all of them. -/
def InOrder (P : Position → Prop) (stop : Range) (lo : Position) : List Token → Prop
  | [] => ∃ hi, stop.Lies P lo hi
  | t :: ts => ∃ a hi, t.range = .source a hi ∧ P a ∧ lo ≤ a ∧ a ≤ hi ∧ InOrder P stop hi ts

theorem InOrder.mono {P : Position → Prop} {stop : Range} {lo lo' : Position} {ts : List Token}
    (h : InOrder P stop lo ts) (hlo : lo' ≤ lo) : InOrder P stop lo' ts := by
  cases ts with
  | nil =>
      obtain ⟨hi, hstop⟩ := h
      exact ⟨hi, hstop.mono hlo (le_refl _)⟩
  | cons t ts =>
      obtain ⟨a, hi, hrange, ha, hle, hrest⟩ := h
      exact ⟨a, hi, hrange, ha, hlo.trans hle, hrest⟩

variable {text before cs : List Char} {pos : Position} {c : Char}

theorem next_of_ne {p : Position} (h : c ≠ '\n') : p.next c = ⟨p.line, p.column + 1⟩ := if_neg h

theorem unescape_newline : unescape '\n' = none := rfl

theorem isIn_of_eq (htext : text = before ++ cs) (hpos : pos = start.advance before) :
    pos.IsIn text := ⟨before, cs, htext, hpos⟩

theorem points_stringBody {opening : Position} (hopening : opening.IsIn text) {count : Nat}
    {content : List Char} {e : LexError} (htext : text = before ++ cs)
    (hpos : pos = start.advance before) (hle : opening ≤ pos)
    (h : stringBody opening pos count content cs = .error e) :
    e.range.Points (IsIn text) := by
  fun_induction stringBody opening pos count content cs generalizing before with
  | case1 => exact Except.error.inj h ▸ ⟨_, _, rfl, hopening, hle⟩
  | case2 => cases h
  | case3 pos => exact Except.error.inj h ▸ ⟨_, _, rfl, hopening, hle.trans (pos.le_next _)⟩
  | case4 pos count content c rest d hescape ih =>
      have hc : c ≠ '\n' := by
        rintro rfl
        rw [unescape_newline] at hescape
        cases hescape
      have hnext : (⟨pos.line, pos.column + 2⟩ : Position) = (pos.next '\\').next c := by
        rw [next_of_ne (c := '\\') (by decide), next_of_ne hc]
      have hsplit : text = (before ++ ['\\', c]) ++ rest := by
        rw [htext, List.append_assoc]
        rfl
      apply ih hsplit
      · rw [advance_append, ← hpos]
        exact hnext
      · exact hle.trans (pos.le_right 2)
      · exact h
  | case5 pos =>
      exact Except.error.inj h ▸ ⟨_, _, rfl, isIn_of_eq htext hpos, pos.le_right 2⟩
  | case6 pos count content c rest _ _ _ ih =>
      have hsplit : text = (before ++ [c]) ++ rest := by
        rw [htext, List.append_assoc]
        rfl
      apply ih hsplit
      · rw [advance_append, ← hpos]
        rfl
      · exact hle.trans (pos.le_next c)
      · exact h

theorem points_scan {e : LexError} (htext : text = before ++ c :: cs)
    (hpos : pos = start.advance before) (h : scan pos c cs = .error e) :
    e.range.Points (IsIn text) := by
  have hin := isIn_of_eq htext hpos
  have hat : ∀ {q : Position} {cause : LexError.Cause}, pos ≤ q →
      (⟨cause, .source pos q⟩ : LexError) = e → e.range.Points (IsIn text) := by
    rintro q cause hq rfl
    exact ⟨pos, q, rfl, hin, hq⟩
  unfold scan at h
  split_ifs at h
  · split at h
    · cases h
    · exact hat (pos.le_advance _) (Except.error.inj h)
  · cases hbody : stringBody pos (pos.next c) 0 [] cs with
    | ok r =>
        rw [hbody] at h
        cases h
    | error fault =>
        rw [hbody] at h
        obtain rfl := Except.error.inj h
        have hsplit : text = (before ++ [c]) ++ cs := by rw [htext, List.append_assoc]; rfl
        have hafter : pos.next c = start.advance (before ++ [c]) := by
          rw [advance_append, ← hpos]
          rfl
        exact points_stringBody hin hsplit hafter (pos.le_next c) hbody
  · dsimp only at h
    split at h
    · exact hat (pos.le_advance _) (Except.error.inj h)
    · cases h
  · split at h
    · exact hat (pos.le_next c) (Except.error.inj h)
    · cases h
  · split at h
    · cases h
    · exact hat (pos.le_next c) (Except.error.inj h)

theorem kind_ne_eof_of_scan {piece : Piece} {kind : TokenKind} {name : String}
    (h : scan pos c cs = .ok piece) (htoken : piece.token? = some (kind, name)) : kind ≠ .eof := by
  have hname : kindOfName c name ≠ .eof := by
    unfold kindOfName
    split_ifs <;> decide
  unfold scan at h
  split_ifs at h
  · obtain rfl := Except.ok.inj h
    cases htoken
  · obtain rfl := Except.ok.inj h
    cases htoken
  · split at h
    · obtain rfl := Except.ok.inj h
      cases htoken
    · cases h
  · cases hbody : stringBody pos (pos.next c) 0 [] cs with
    | error fault =>
        rw [hbody] at h
        cases h
    | ok r =>
        rw [hbody] at h
        obtain rfl := Except.ok.inj h
        cases htoken
        decide
  · dsimp only at h
    split at h
    · cases h
    · obtain rfl := Except.ok.inj h
      cases htoken
      decide
  · split at h
    · cases h
    · obtain rfl := Except.ok.inj h
      cases htoken
      decide
  · obtain rfl := Except.ok.inj h
    cases htoken
    exact hname
  · split at h
    · obtain rfl := Except.ok.inj h
      cases htoken
      decide
    · cases h

/-- The tokens of the rest of a text, after those that were found before. -/
theorem inOrder_lexFrom (found : List Token) (htext : text = before ++ cs)
    (hpos : pos = start.advance before) : match lexFrom pos found cs with
      | .ok ts => ∃ words stop, ts = found.reverse ++ words ++ [⟨.eof, "", stop⟩] ∧
          (∀ t ∈ words, t.kind ≠ .eof) ∧ InOrder (IsIn text) stop pos words
      | .error e => e.range.Points (IsIn text) := by
  induction hn : cs.length using Nat.strongRecOn generalizing cs before pos found with
  | ind n ih =>
      cases cs with
      | nil =>
          have hstop : (Range.source pos pos).Lies (IsIn text) pos pos :=
            ⟨pos, pos, rfl, isIn_of_eq htext hpos, le_refl _, le_refl _, le_refl _⟩
          rw [lexFrom, List.reverse_cons]
          exact ⟨[], .source pos pos, by simp, by simp, pos, hstop⟩
      | cons c cs =>
          rw [lexFrom]
          cases hscan : scan pos c cs with
          | error e => exact points_scan htext hpos hscan
          | ok piece =>
              have hsplit : text = (before ++ c :: cs.take piece.extra) ++ cs.drop piece.extra := by
                rw [htext, List.append_assoc, List.cons_append, List.take_append_drop]
              have hafter : pos.advance (c :: cs.take piece.extra) =
                  start.advance (before ++ c :: cs.take piece.extra) := by
                rw [advance_append, ← hpos]
              have hshorter : (cs.drop piece.extra).length < n := by
                rw [← hn, List.length_drop, List.length_cons]
                omega
              have hle := pos.le_advance (c :: cs.take piece.extra)
              change match lexFrom _ _ (cs.drop piece.extra) with
                | .ok _ => _
                | .error e => e.range.Points (IsIn text)
              cases htoken : piece.token? with
              | none =>
                  have hrest := ih _ hshorter found hsplit hafter rfl
                  cases hlex : lexFrom (pos.advance (c :: cs.take piece.extra)) found
                    (cs.drop piece.extra) with
                  | error e => rwa [hlex] at hrest
                  | ok ts =>
                      rw [hlex] at hrest
                      obtain ⟨words, stop, hts, hkinds, horder⟩ := hrest
                      exact ⟨words, stop, hts, hkinds, horder.mono hle⟩
              | some word =>
                  obtain ⟨kind, name⟩ := word
                  let token : Token :=
                    ⟨kind, name, .source pos (pos.advance (c :: cs.take piece.extra))⟩
                  have hrest := ih _ hshorter (token :: found) hsplit hafter rfl
                  dsimp only
                  cases hlex : lexFrom (pos.advance (c :: cs.take piece.extra)) (token :: found)
                    (cs.drop piece.extra) with
                  | error e => rwa [hlex] at hrest
                  | ok ts =>
                      rw [hlex] at hrest
                      obtain ⟨words, stop, hts, hkinds, horder⟩ := hrest
                      refine ⟨token :: words, stop, by simp [hts], ?_, ?_⟩
                      · exact List.forall_mem_cons.2 ⟨kind_ne_eof_of_scan hscan htoken, hkinds⟩
                      · exact ⟨pos, _, rfl, isIn_of_eq htext hpos, le_refl _, hle, horder⟩

/-- The tokens of a text lie in it in order, with the end mark after them, and a fault points into
it. -/
theorem inOrder_lex (source : String) : match lex source with
    | .ok ts => ∃ words stop, ts = words ++ [⟨.eof, "", stop⟩] ∧ (∀ t ∈ words, t.kind ≠ .eof) ∧
        InOrder (IsIn source.toList) stop start words
    | .error e => e.range.Points (IsIn source.toList) :=
  have htext : source.toList = [] ++ source.toList := rfl
  lex_eq source ▸ inOrder_lexFrom [] htext rfl

end FieldML.Token
