import FieldML.Proofs.Parser.Basic
import FieldML.Proofs.Reading.Parser
import FieldML.Proofs.Tape.Basic

/-!
# Reading by index and reading from the left

A run follows a parser if both end in the same way, the counters of the run being those of the
parser. In a run that follows a parser no index leaves the array and no counter goes below zero.
-/

namespace FieldML

/-- The tokens have the same sort and the same place, and differ at most in the text of an end
mark. -/
structure Token.Alike (t u : Token) : Prop where
  kind_eq : t.kind = u.kind
  range_eq : t.range = u.range
  eq_of_ne : u.kind ≠ .eof → t = u

namespace Token.Alike

variable {t u : Token}

theorem isWord (h : t.Alike u) {kind : TokenKind} (hkind : kind ≠ .eof) (text : String) :
    t.isWord kind text = u.isWord kind text := by
  by_cases heof : u.kind = .eof
  · simp [Token.isWord, h.kind_eq, heof, hkind.symm]
  · rw [h.eq_of_ne heof]

theorem startsAtom (h : t.Alike u) : Parser.startsAtom t = Parser.startsAtom u := by
  by_cases heof : u.kind = .eof
  · simp [Parser.startsAtom, h.kind_eq, heof]
  · rw [h.eq_of_ne heof]

theorem startsPatternAtom (h : t.Alike u) :
    Parser.startsPatternAtom t = Parser.startsPatternAtom u := by
  by_cases heof : u.kind = .eof
  · simp [Parser.startsPatternAtom, h.kind_eq, heof]
  · rw [h.eq_of_ne heof]

theorem ofToken? (h : t.Alike u) : Operator.ofToken? t = Operator.ofToken? u := by
  by_cases heof : u.kind = .eof
  · simp [Operator.ofToken?, h.kind_eq, heof]
  · rw [h.eq_of_ne heof]

end Token.Alike

namespace Tape

/-- The tokens before the first end mark. -/
def words (s : Tape) : List Token := (Cursor.ofTokens s.tokens.toList).rest

/-- How far a parser has come where the run is. -/
def cursor (s : Tape) : Cursor where
  rest := s.words.drop s.pos
  stop := (Cursor.ofTokens s.tokens.toList).stop
  previous := ((s.words.take s.pos).getLast?.map Token.range).getD
    (Cursor.ofTokens s.tokens.toList).stop
  fresh := s.fresh
  depth := s.depth

/-- There is an end mark, and none was passed. -/
structure Valid (s : Tape) : Prop where
  closed : ∃ t ∈ s.tokens.toList, t.kind = .eof
  pos_le : s.pos ≤ s.words.length

variable {α β : Type} {s s' : Tape} {t : Token}

theorem Valid.exists_append (hs : s.Valid) : ∃ stop after,
    s.tokens.toList = s.words ++ stop :: after ∧ stop.kind = .eof ∧
      stop.range = s.cursor.stop := by
  obtain ⟨u, hu, hkind⟩ := hs.closed
  have hsplit := List.takeWhile_append_dropWhile (p := fun t : Token => decide (t.kind ≠ .eof))
    (l := s.tokens.toList)
  cases hrest : s.tokens.toList.dropWhile fun t => decide (t.kind ≠ .eof) with
  | nil =>
      rw [List.dropWhile_eq_nil_iff] at hrest
      exact absurd hkind (by simpa using hrest u hu)
  | cons stop after =>
      have hstop : stop.kind = .eof := by
        have hhead := List.head?_dropWhile_not (fun t : Token => decide (t.kind ≠ .eof))
          s.tokens.toList
        rw [hrest] at hhead
        simpa using hhead
      rw [hrest] at hsplit
      refine ⟨stop, after, hsplit.symm, hstop, ?_⟩
      have hfind : s.tokens.toList.find? (fun t => decide (t.kind = .eof)) = some stop := by
        rw [← hsplit, List.find?_append, List.find?_eq_none.2, Option.none_or,
          List.find?_cons_of_pos (by simpa using hstop)]
        intro t ht
        simpa using List.mem_takeWhile_imp ht
      simp only [cursor, Cursor.ofTokens, hfind]

theorem kind_ne_of_mem_words (ht : t ∈ s.words) : t.kind ≠ .eof := by
  simpa using List.mem_takeWhile_imp ht

theorem Valid.getElem?_of_lt (hs : s.Valid) {i : Nat} (hi : i < s.words.length) :
    s.tokens[i]? = some s.words[i] := by
  obtain ⟨stop, after, htokens, -⟩ := hs.exists_append
  rw [← Array.getElem?_toList, htokens, List.getElem?_append_left hi, List.getElem?_eq_getElem hi]

/-- The index is in the array. -/
theorem Valid.pos_lt (hs : s.Valid) : s.pos < s.tokens.size := by
  obtain ⟨stop, after, htokens, -⟩ := hs.exists_append
  have hpos := hs.pos_le
  rw [← Array.length_toList, htokens, List.length_append, List.length_cons]
  omega

theorem Valid.peek_eq_done (hs : s.Valid) (ht : s.tokens[s.pos]? = some t) :
    peek s = .done t s := by
  have hmin : min s.pos (s.tokens.size - 1) = s.pos :=
    Nat.min_eq_left (Nat.le_sub_one_of_lt hs.pos_lt)
  unfold peek
  rw [hmin, ht]

/-- The token that the index finds is the one that the parser sees. -/
theorem Valid.exists_peek (hs : s.Valid) : ∃ t, peek s = .done t s ∧ t.Alike s.cursor.peek := by
  rcases Nat.lt_or_eq_of_le hs.pos_le with hlt | heq
  · refine ⟨s.words[s.pos], hs.peek_eq_done (hs.getElem?_of_lt hlt), ?_⟩
    have hpeek : s.cursor.peek = s.words[s.pos] := by
      rw [Cursor.peek, cursor, List.drop_eq_getElem_cons hlt]
      rfl
    rw [hpeek]
    exact ⟨rfl, rfl, fun _ => rfl⟩
  · obtain ⟨stop, after, htokens, hstop, hrange⟩ := hs.exists_append
    have hget : s.tokens[s.pos]? = some stop := by
      rw [← Array.getElem?_toList, htokens, heq, List.getElem?_append_right (Nat.le_refl _),
        Nat.sub_self, List.getElem?_cons_zero]
    refine ⟨stop, hs.peek_eq_done hget, ?_⟩
    have hpeek : s.cursor.peek = ⟨.eof, "", s.cursor.stop⟩ := by
      simp [Cursor.peek, cursor, heq]
    rw [hpeek]
    exact ⟨hstop, hrange, fun h => absurd rfl h⟩

theorem found_cursor (s : Tape) : s.cursor.found =
    if s.cursor.peek.kind = .eof then none else some s.cursor.peek.text := by
  have hall : ∀ t ∈ s.cursor.rest, t.kind ≠ .eof := fun t ht =>
    kind_ne_of_mem_words (List.mem_of_mem_drop ht)
  unfold Cursor.found Cursor.peek
  cases hrest : s.cursor.rest with
  | nil => rfl
  | cons t rest =>
      rw [hrest] at hall
      simp [hall t (.head _)]

theorem Valid.left_eq (hs : s.Valid) : s.left = s.cursor.rest.length := by
  obtain ⟨stop, after, htokens, hstop, -⟩ := hs.exists_append
  have hwords : ∀ t ∈ s.words.drop s.pos, t.kind ≠ .eof := fun t ht =>
    kind_ne_of_mem_words (List.mem_of_mem_drop ht)
  rw [left, htokens, List.drop_append_of_le_length hs.pos_le,
    List.takeWhile_append_of_pos (by simpa using hwords), List.takeWhile_cons_of_neg (by simp [hstop]),
    List.append_nil]
  rfl

/-- If the run ends with a result, the parser does so with the same one and `Q` holds of it; if the
run fails, the parser does so in the same way. Levels are not closed that were open before, and the
run does not break off. -/
def Follows (q : Run α) (p : Parser α) (s : Tape) (Q : α → Tape → Prop) : Prop :=
  match q s with
  | .done a s' => p s.cursor = .ok (a, s'.cursor) ∧ s'.Valid ∧ s.depth ≤ s'.depth ∧ Q a s'
  | .failed e s' => p s.cursor = .error e ∧ s.depth ≤ s'.depth
  | .broken => False

variable {q : Run α} {p : Parser α} {f : α → Run β} {f' : α → Parser β} {Q Q' : α → Tape → Prop}
  {R : β → Tape → Prop}

theorem bind_apply (q : Run α) (f : α → Run β) (s : Tape) : (q >>= f) s =
    match q s with
    | .done a s' => f a s'
    | .failed e s' => .failed e s'
    | .broken => .broken := rfl

theorem Follows.bind (hq : Follows q p s Q)
    (hf : ∀ a s', s'.Valid → Q a s' → Follows (f a) (f' a) s' R) :
    Follows (q >>= f) (p >>= f') s R := by
  unfold Follows at hq ⊢
  rw [bind_apply, Parser.bind_apply]
  rcases hrun : q s with ⟨a, s₁⟩ | ⟨e, s₁⟩ | _
  · rw [hrun] at hq
    obtain ⟨hp, hs₁, hdepth, hQ⟩ := hq
    have hnext := hf a s₁ hs₁ hQ
    unfold Follows at hnext
    rw [hp]
    dsimp only
    rcases hrun' : f a s₁ with ⟨b, s₂⟩ | ⟨e, s₂⟩ | _
    · rw [hrun'] at hnext
      exact ⟨hnext.1, hnext.2.1, hdepth.trans hnext.2.2.1, hnext.2.2.2⟩
    · rw [hrun'] at hnext
      exact ⟨hnext.1, hdepth.trans hnext.2⟩
    · rw [hrun'] at hnext
      exact hnext
  · rw [hrun] at hq
    rw [hq.1]
    exact ⟨rfl, hq.2⟩
  · rw [hrun] at hq
    exact hq

theorem Follows.mono (hq : Follows q p s Q) (h : ∀ a s', Q a s' → Q' a s') :
    Follows q p s Q' := by
  unfold Follows at hq ⊢
  rcases hrun : q s with ⟨a, s₁⟩ | ⟨e, s₁⟩ | _
  · rw [hrun] at hq
    exact ⟨hq.1, hq.2.1, hq.2.2.1, h a s₁ hq.2.2.2⟩
  · rwa [hrun] at hq
  · rwa [hrun] at hq

theorem Follows.pure {a : α} (hs : s.Valid) (h : Q a s) :
    Follows (Pure.pure a) (Pure.pure a) s Q := ⟨rfl, hs, Nat.le_refl _, h⟩

/-- The run follows the parser, reads no token back and leaves the levels as they were. -/
abbrev Stays (q : Run α) (p : Parser α) (s : Tape) : Prop :=
  Follows q p s fun _ s' => s.pos ≤ s'.pos ∧ s'.depth = s.depth

/-- The run follows the parser, reads a token and leaves the levels as they were. -/
abbrev Moves (q : Run α) (p : Parser α) (s : Tape) : Prop :=
  Follows q p s fun _ s' => s.pos < s'.pos ∧ s'.depth = s.depth

theorem Follows.stays (hq : Moves q p s) : Stays q p s :=
  hq.mono fun _ _ h => ⟨Nat.le_of_lt h.1, h.2⟩

/-! ### The next token -/

theorem follows_peek_bind {f : Token → Run β} {f' : Token → Parser β} (hs : s.Valid)
    (hf : ∀ t, t.Alike s.cursor.peek → Follows (f t) (f' s.cursor.peek) s R) :
    Follows (peek >>= f) (Parser.peek >>= f') s R := by
  obtain ⟨t, hpeek, ht⟩ := hs.exists_peek
  have hnext := hf t ht
  unfold Follows at hnext ⊢
  rw [bind_apply, hpeek]
  exact hnext

theorem follows_nextIs_bind {kind : TokenKind} {f : Bool → Run β} {f' : Bool → Parser β}
    (hs : s.Valid) (hf : Follows (f (decide (s.cursor.peek.kind = kind)))
      (f' (decide (s.cursor.peek.kind = kind))) s R) :
    Follows (nextIs kind >>= f) (Parser.nextIs kind >>= f') s R := by
  obtain ⟨t, hpeek, ht⟩ := hs.exists_peek
  have hrun : nextIs kind s = .done (decide (s.cursor.peek.kind = kind)) s := by
    rw [nextIs, bind_apply, hpeek, ← ht.kind_eq]
    rfl
  unfold Follows at hf ⊢
  rw [bind_apply, hrun]
  exact hf

theorem follows_nextIsSymbol_bind {text : String} {f : Bool → Run β} {f' : Bool → Parser β}
    (hs : s.Valid) (hf : Follows (f (s.cursor.peek.isWord .symbol text))
      (f' (s.cursor.peek.isWord .symbol text)) s R) :
    Follows (nextIsSymbol text >>= f) (Parser.nextIsSymbol text >>= f') s R := by
  obtain ⟨t, hpeek, ht⟩ := hs.exists_peek
  have hrun : nextIsSymbol text s = .done (s.cursor.peek.isWord .symbol text) s := by
    rw [nextIsSymbol, bind_apply, hpeek, ← ht.isWord (by decide)]
    rfl
  unfold Follows at hf ⊢
  rw [bind_apply, hrun]
  exact hf

theorem follows_nextIsKeyword_bind {text : String} {f : Bool → Run β} {f' : Bool → Parser β}
    (hs : s.Valid) (hf : Follows (f (s.cursor.peek.isWord .keyword text))
      (f' (s.cursor.peek.isWord .keyword text)) s R) :
    Follows (nextIsKeyword text >>= f) (Parser.nextIsKeyword text >>= f') s R := by
  obtain ⟨t, hpeek, ht⟩ := hs.exists_peek
  have hrun : nextIsKeyword text s = .done (s.cursor.peek.isWord .keyword text) s := by
    rw [nextIsKeyword, bind_apply, hpeek, ← ht.isWord (by decide)]
    rfl
  unfold Follows at hf ⊢
  rw [bind_apply, hrun]
  exact hf

theorem follows_fail (e : ParseError) :
    Follows (fail e : Run α) (throw e) s Q := ⟨rfl, Nat.le_refl _⟩

theorem follows_failHere {cause : Option String → ParseError.Cause} (hs : s.Valid) :
    Follows (failHere cause : Run α) (Parser.failHere cause) s Q := by
  obtain ⟨t, hpeek, ht⟩ := hs.exists_peek
  unfold Follows
  rw [failHere, bind_apply, hpeek]
  refine ⟨?_, Nat.le_refl _⟩
  have hfound : s.cursor.found = if t.kind = .eof then none else some t.text := by
    rw [found_cursor, ht.kind_eq]
    split_ifs with hkind
    · rfl
    · rw [ht.eq_of_ne hkind]
  rw [Parser.failHere, hfound, ← ht.range_eq]

theorem follows_failExpected (hs : s.Valid) (what : String) :
    Follows (failExpected what : Run α) (Parser.failExpected what) s Q :=
  follows_failHere hs

/-- If the next token is no end mark it is one of the words. -/
theorem Valid.pos_lt_of_kind (hs : s.Valid) (h : s.cursor.peek.kind ≠ .eof) :
    ∃ hlt : s.pos < s.words.length, s.cursor.peek = s.words[s.pos] := by
  rcases Nat.lt_or_eq_of_le hs.pos_le with hlt | heq
  · refine ⟨hlt, ?_⟩
    rw [Cursor.peek, cursor, List.drop_eq_getElem_cons hlt]
    rfl
  · exact absurd (by simp [Cursor.peek, cursor, heq]) h

theorem Valid.advance (hs : s.Valid) (h : s.cursor.peek.kind ≠ .eof) :
    Tape.Valid { s with pos := s.pos + 1 } ∧
      s.cursor.advance = Tape.cursor { s with pos := s.pos + 1 } := by
  obtain ⟨hlt, -⟩ := hs.pos_lt_of_kind h
  refine ⟨⟨hs.closed, hlt⟩, ?_⟩
  have hrest : s.cursor.rest = s.words[s.pos] :: s.words.drop (s.pos + 1) :=
    List.drop_eq_getElem_cons hlt
  have hlast : (s.words.take (s.pos + 1)).getLast? = some s.words[s.pos] := by
    rw [List.take_succ_eq_append_getElem hlt, List.getLast?_concat]
  rw [Cursor.advance, hrest]
  simp only [cursor]
  have hwords : words { s with pos := s.pos + 1 } = s.words := rfl
  rw [hwords, hlast]
  rfl

theorem follows_advance (hs : s.Valid) (h : s.cursor.peek.kind ≠ .eof) :
    Follows advance Parser.advance s fun t s' =>
      t = s.cursor.peek ∧ s' = { s with pos := s.pos + 1 } := by
  obtain ⟨t, hpeek, ht⟩ := hs.exists_peek
  obtain rfl := ht.eq_of_ne h
  obtain ⟨hnext, hcursor⟩ := hs.advance h
  unfold Follows
  rw [advance, bind_apply, hpeek]
  dsimp only
  rw [if_pos h]
  exact ⟨by rw [← hcursor]; rfl, hnext, Nat.le_refl _, rfl, rfl⟩

theorem moves_advance (hs : s.Valid) (h : s.cursor.peek.kind ≠ .eof) :
    Moves advance Parser.advance s := by
  refine (follows_advance hs h).mono ?_
  rintro _ _ ⟨-, rfl⟩
  exact ⟨Nat.lt_succ_self _, rfl⟩

theorem follows_name (hs : s.Valid) (h : s.cursor.peek.kind ≠ .eof) :
    Moves name Parser.name s :=
  (moves_advance hs h).bind fun _ _ hs₁ h₁ => .pure hs₁ h₁

theorem kind_ne_of_isWord {kind : TokenKind} {text : String} (h : t.isWord kind text = true)
    (hkind : kind ≠ .eof) : t.kind ≠ .eof := by
  simp only [Token.isWord, Bool.and_eq_true, decide_eq_true_eq] at h
  exact h.1 ▸ hkind

theorem follows_skipSymbol (hs : s.Valid) (text : String) :
    Follows (skipSymbol text) (Parser.skipSymbol text) s fun b s' =>
      s.pos + b.toNat ≤ s'.pos ∧ s'.depth = s.depth := by
  refine follows_nextIsSymbol_bind hs ?_
  split
  · next h =>
      exact (moves_advance hs (kind_ne_of_isWord h (by decide))).bind
        fun _ _ hs₁ h₁ => .pure hs₁ h₁
  · exact .pure hs ⟨Nat.le_refl _, rfl⟩

theorem follows_skipKeyword (hs : s.Valid) (text : String) :
    Follows (skipKeyword text) (Parser.skipKeyword text) s fun b s' =>
      s.pos + b.toNat ≤ s'.pos ∧ s'.depth = s.depth := by
  refine follows_nextIsKeyword_bind hs ?_
  split
  · next h =>
      exact (moves_advance hs (kind_ne_of_isWord h (by decide))).bind
        fun _ _ hs₁ h₁ => .pure hs₁ h₁
  · exact .pure hs ⟨Nat.le_refl _, rfl⟩

theorem moves_symbol (hs : s.Valid) (text : String) :
    Moves (symbol text) (Parser.symbol text) s := by
  refine follows_nextIsSymbol_bind hs ?_
  split
  · next h =>
      exact (moves_advance hs (kind_ne_of_isWord h (by decide))).bind
        fun _ _ hs₁ h₁ => .pure hs₁ h₁
  · exact follows_failExpected hs _

theorem moves_keyword (hs : s.Valid) (text : String) :
    Moves (keyword text) (Parser.keyword text) s := by
  refine follows_nextIsKeyword_bind hs ?_
  split
  · next h =>
      exact (moves_advance hs (kind_ne_of_isWord h (by decide))).bind
        fun _ _ hs₁ h₁ => .pure hs₁ h₁
  · exact follows_failExpected hs _

theorem moves_nameOf (hs : s.Valid) {kind : TokenKind} (hkind : kind ≠ .eof) (what : String) :
    Moves (nameOf kind what) (Parser.nameOf kind what) s := by
  refine follows_nextIs_bind hs ?_
  split
  · next h => exact follows_name hs (of_decide_eq_true h ▸ hkind)
  · exact follows_failExpected hs _

/-- A word that was seen to be next need not be looked for again. -/
theorem Follows.of_word {word : Parser Range} {F : Range → Parser α} {f : Token → Parser α}
    (hq : Follows q (word >>= F) s Q)
    (hword : word s.cursor = .ok (s.cursor.peek.range, s.cursor.advance))
    (hf : f s.cursor.peek = F s.cursor.peek.range) : Follows q (Parser.advance >>= f) s Q := by
  have heq : (Parser.advance >>= f) s.cursor = (word >>= F) s.cursor := by
    rw [Parser.bind_apply, Parser.bind_apply, hword, Parser.advance]
    dsimp only
    rw [hf]
  unfold Follows at hq ⊢
  rwa [heq]

theorem symbol_of_next {c : Cursor} {text : String} (h : c.peek.isWord .symbol text = true) :
    Parser.symbol text c = .ok (c.peek.range, c.advance) := by
  change (if c.peek.isWord .symbol text = true then _ else _ : Parser Range) c = _
  rw [if_pos h]
  rfl

theorem keyword_of_next {c : Cursor} {text : String} (h : c.peek.isWord .keyword text = true) :
    Parser.keyword text c = .ok (c.peek.range, c.advance) := by
  change (if c.peek.isWord .keyword text = true then _ else _ : Parser Range) c = _
  rw [if_pos h]
  rfl

/-- What the index finds behind the next token is what the parser sees there, as far as no end mark
passes for it. -/
theorem Valid.any_getElem? (hs : s.Valid) {P : Token → Bool}
    (hP : ∀ t : Token, t.kind = .eof → P t = false) {i : Nat} (hi : i ≤ s.words.length) :
    s.tokens[i]?.any P = s.words[i]?.any P := by
  rcases Nat.lt_or_eq_of_le hi with hlt | rfl
  · rw [hs.getElem?_of_lt hlt, List.getElem?_eq_getElem hlt]
  · obtain ⟨stop, after, htokens, hstop, -⟩ := hs.exists_append
    have hget : s.tokens[s.words.length]? = some stop := by
      rw [← Array.getElem?_toList, htokens, List.getElem?_append_right (Nat.le_refl _),
        Nat.sub_self, List.getElem?_cons_zero]
    rw [hget, List.getElem?_eq_none (Nat.le_refl _)]
    exact hP stop hstop

theorem follows_get_bind {q : Run β} {f' : Cursor → Parser β} (hq : Follows q (f' s.cursor) s R) :
    Follows q (get >>= f') s R := hq

/-- The two next tokens are such ones. -/
def lookahead (P U : Token → Bool) : List Token → Bool
  | first :: second :: _ => P first && U second
  | _ => false

theorem Valid.lookahead_eq (hs : s.Valid) {P U : Token → Bool}
    (hP : ∀ t : Token, t.kind = .eof → P t = false)
    (hU : ∀ t : Token, t.kind = .eof → U t = false) (ht : t.Alike s.cursor.peek) :
    (P t && s.tokens[s.pos + 1]?.any U) = lookahead P U s.cursor.rest := by
  by_cases hkind : s.cursor.peek.kind = .eof
  · rw [hP t (ht.kind_eq.trans hkind)]
    cases hrest : s.cursor.rest with
    | nil => rfl
    | cons u rest =>
        refine absurd hkind (kind_ne_of_mem_words (s := s) (List.mem_of_mem_drop (i := s.pos) ?_))
        change s.cursor.rest.headD _ ∈ s.cursor.rest
        rw [hrest]
        exact .head _
  · obtain ⟨hlt, hpeek⟩ := hs.pos_lt_of_kind hkind
    have hrest : s.cursor.rest = s.words[s.pos] :: s.words.drop (s.pos + 1) :=
      List.drop_eq_getElem_cons hlt
    rw [hs.any_getElem? hU hlt, ht.eq_of_ne hkind, hpeek, hrest]
    cases hdrop : s.words.drop (s.pos + 1) with
    | nil => simp [lookahead, List.getElem?_eq_none (List.drop_eq_nil_iff.1 hdrop)]
    | cons u rest =>
        have hget : s.words[s.pos + 1]? = some u := by
          rw [← List.head?_drop, hdrop]
          rfl
        rw [hget]
        rfl

/-- Looking at the two next tokens by index finds what the parser sees. -/
theorem follows_lookahead_bind {P U : Token → Bool} {f : Bool → Run β} {p : Parser β}
    (hs : s.Valid) (hP : ∀ t : Token, t.kind = .eof → P t = false)
    (hU : ∀ t : Token, t.kind = .eof → U t = false)
    (hf : Follows (f (lookahead P U s.cursor.rest)) p s R) :
    Follows ((do
      let first ← peek
      let second ← peekAt 1
      return P first && second.any U) >>= f) p s R := by
  obtain ⟨t, hpeek, ht⟩ := hs.exists_peek
  rw [← hs.lookahead_eq hP hU ht] at hf
  unfold Follows at hf ⊢
  rw [bind_apply, bind_apply, hpeek]
  exact hf

theorem stays_freshName (hs : s.Valid) (range : Range) :
    Stays (freshName range) (Parser.freshName range) s := by
  have hnext : Tape.Valid { s with fresh := s.fresh + 1 } := ⟨hs.closed, hs.pos_le⟩
  exact ⟨rfl, hnext, Nat.le_refl _, Nat.le_refl _, rfl⟩

theorem stays_integer (hs : s.Valid) (text : String) (range : Range) :
    Stays (integer text range) (Parser.integer text range) s := by
  unfold integer Parser.integer
  cases Text.int64OfDecimal? text with
  | some n => exact .pure hs ⟨Nat.le_refl _, rfl⟩
  | none => exact follows_fail _

/-- After the first token there is one that was read last. -/
theorem stays_previousRange (hs : s.Valid) (hpos : 0 < s.pos) :
    Stays previousRange Parser.previousRange s := by
  have hlt : s.pos - 1 < s.words.length := Nat.lt_of_lt_of_le (Nat.sub_lt hpos one_pos) hs.pos_le
  have hrun : previousRange s = .done s.words[s.pos - 1].range s := by
    unfold previousRange
    rw [if_pos hpos, hs.getElem?_of_lt hlt]
  have hlast : (s.words.take s.pos).getLast? = some s.words[s.pos - 1] := by
    have htake := List.take_succ_eq_append_getElem hlt
    rw [Nat.sub_add_cancel hpos] at htake
    rw [htake, List.getLast?_concat]
  have hparse : Parser.previousRange s.cursor = .ok (s.words[s.pos - 1].range, s.cursor) := by
    change Except.ok (s.cursor.previous, s.cursor) = _
    rw [cursor, hlast]
    rfl
  unfold Stays Follows
  rw [hrun]
  exact ⟨hparse, hs, Nat.le_refl _, Nat.le_refl _, rfl⟩

/-! ### Levels -/

theorem follows_descend (hs : s.Valid) : Follows descend Parser.descend s fun _ s' =>
    s' = { s with depth := s.depth + 1 } := by
  change Follows
    (if Parser.maxNesting ≤ s.depth then failHere .nestedTooDeeply
      else update fun s => { s with depth := s.depth + 1 })
    (if Parser.maxNesting ≤ s.depth then Parser.failHere .nestedTooDeeply
      else modify fun s => { s with depth := s.depth + 1 }) s _
  split_ifs with hdeep
  · exact follows_failHere hs
  · have hnext : Tape.Valid { s with depth := s.depth + 1 } := ⟨hs.closed, hs.pos_le⟩
    exact ⟨rfl, hnext, Nat.le_succ _, rfl⟩

theorem Valid.setDepth (hs : s.Valid) (depth : Nat) : Tape.Valid { s with depth := depth } :=
  ⟨hs.closed, hs.pos_le⟩

theorem leave_apply {levels : Nat} (h : levels ≤ s.depth) :
    leave levels s = .done () { s with depth := s.depth - levels } := if_pos h

/-- A level that was opened is closed, after a failure as well. -/
theorem moves_nested (hs : s.Valid) (h : ∀ s', s'.Valid → s'.pos = s.pos → Moves q p s') :
    Moves (nested q) (Parser.nested p) s := by
  have hopen := follows_descend hs
  unfold Moves Follows at hopen ⊢
  rw [nested, bind_apply, Parser.nested, Parser.closing_apply, Parser.bind_apply]
  cases hdescend : descend s with
  | broken =>
      rw [hdescend] at hopen
      exact hopen
  | failed e s₁ =>
      rw [hdescend] at hopen
      rw [hopen.1]
      exact ⟨rfl, hopen.2⟩
  | done u s₁ =>
      rw [hdescend] at hopen
      obtain ⟨hparse, hs₁, -, hnext⟩ := hopen
      have hpos : s₁.pos = s.pos := by rw [hnext]
      have hdepth : s₁.depth = s.depth + 1 := by rw [hnext]
      have hbody := h s₁ hs₁ hpos
      unfold Moves Follows at hbody
      rw [hparse]
      dsimp only
      rw [bind_apply, attempt]
      cases hrun : q s₁ with
      | broken =>
          rw [hrun] at hbody
          exact hbody
      | failed e s₂ =>
          rw [hrun] at hbody
          have hle : 1 ≤ s₂.depth := by omega
          dsimp only
          rw [bind_apply, leave_apply hle, hbody.1]
          exact ⟨rfl, Nat.le_sub_of_add_le (by omega)⟩
      | done a s₂ =>
          rw [hrun] at hbody
          obtain ⟨hparse₂, hs₂, -, hpos₂, hdepth₂⟩ := hbody
          have hle : 1 ≤ s₂.depth := by omega
          have hback : s₂.depth - 1 = s.depth := by omega
          dsimp only
          rw [bind_apply, leave_apply hle, hparse₂, hback]
          exact ⟨rfl, hs₂.setDepth _, Nat.le_refl _, hpos ▸ hpos₂, rfl⟩

theorem follows_stuck (hs : s.Valid) : Follows (stuck : Run α) Parser.stuck s Q := by
  obtain ⟨t, hpeek, ht⟩ := hs.exists_peek
  unfold Follows
  rw [stuck, bind_apply, hpeek]
  refine ⟨?_, Nat.le_refl _⟩
  rw [ht.range_eq]
  rfl

section Loops

variable {step : α → Run (Option α)} {step' : α → Parser (Option α)}

/-- What holds before each step holds after the last one. -/
theorem follows_steps {I : α → Prop} (hstep : ∀ a s, I a → s.Valid →
      Follows (step a) (step' a) s fun o s' =>
        (∀ b ∈ o, I b) ∧ s.pos ≤ s'.pos ∧ s'.depth = s.depth) (n : Nat) {a : α} (ha : I a)
    (hs : s.Valid) : Follows (steps step n a) (Parser.steps step' n a) s fun b s' =>
      I b ∧ s.pos ≤ s'.pos ∧ s'.depth = s.depth := by
  induction n generalizing a s with
  | zero => exact follows_stuck hs
  | succ n ih =>
      refine (hstep a s ha hs).bind ?_
      rintro o s₁ hs₁ ⟨hI, h₁⟩
      cases o with
      | none => exact .pure hs₁ ⟨ha, h₁⟩
      | some b => exact (ih (hI b rfl) hs₁).mono fun _ _ h => ⟨h.1, by omega, by omega⟩

theorem follows_loop {I : α → Prop} (hstep : ∀ a s, I a → s.Valid →
      Follows (step a) (step' a) s fun o s' =>
        (∀ b ∈ o, I b) ∧ s.pos ≤ s'.pos ∧ s'.depth = s.depth) {a : α} (ha : I a) (hs : s.Valid) :
    Follows (loop step a) (Parser.loop step' a) s fun b s' =>
      I b ∧ s.pos ≤ s'.pos ∧ s'.depth = s.depth := by
  have hsteps := follows_steps hstep (s.left + 1) ha hs
  rw [hs.left_eq] at hsteps
  unfold Follows at hsteps ⊢
  rw [loop, hs.left_eq]
  exact hsteps

theorem stays_loop (hstep : ∀ a s, s.Valid → Stays (step a) (step' a) s) (a : α) (hs : s.Valid) :
    Stays (loop step a) (Parser.loop step' a) s :=
  (follows_loop (I := fun _ => True)
    (fun a s _ hs => (hstep a s hs).mono fun _ _ h => ⟨fun _ _ => trivial, h⟩) trivial hs).mono
    fun _ _ h => h.2

/-- Where the levels are counted by hand they are put back as they were when the loop began. -/
theorem countedSteps_follow (hstep : ∀ a s, s.Valid → Follows (step a) (step' a) s fun o s' =>
      s.pos ≤ s'.pos ∧ s'.depth = s.depth + o.isSome.toNat) (n opened base : Nat) (a : α)
    (hs : s.Valid) (hdepth : s.depth = base + opened) :
    match countedSteps step n opened a s with
    | .done b s' => (∃ c, Parser.steps step' n a s.cursor = .ok (b, c) ∧
        s'.cursor = { c with depth := base }) ∧ s'.Valid ∧ s.pos ≤ s'.pos ∧ s'.depth = base
    | .failed e s' => Parser.steps step' n a s.cursor = .error e ∧ base ≤ s'.depth
    | .broken => False := by
  induction n generalizing opened a s with
  | zero =>
      have hstuck : Follows (stuck : Run α) Parser.stuck s fun _ _ => False := follows_stuck hs
      unfold Follows at hstuck
      unfold countedSteps Parser.steps
      cases hrun : (stuck : Run α) s with
      | done a s' =>
          rw [hrun] at hstuck
          exact hstuck.2.2.2.elim
      | failed e s' =>
          rw [hrun] at hstuck
          exact ⟨hstuck.1, by omega⟩
      | broken =>
          rw [hrun] at hstuck
          exact hstuck
  | succ n ih =>
      have hone := hstep a s hs
      unfold Follows at hone
      unfold countedSteps Parser.steps
      rw [bind_apply, Parser.bind_apply]
      cases hrun : step a s with
      | broken =>
          rw [hrun] at hone
          exact hone
      | failed e s₁ =>
          rw [hrun] at hone
          rw [hone.1]
          exact ⟨rfl, by omega⟩
      | done o s₁ =>
          rw [hrun] at hone
          obtain ⟨hparse, hs₁, -, hpos, hdepth₁⟩ := hone
          rw [hparse]
          dsimp only
          cases o with
          | some b =>
              have hmore := ih (opened + 1) b hs₁ (by simp at hdepth₁; omega)
              dsimp only
              cases hrest : countedSteps step n (opened + 1) b s₁ with
              | done c s₂ =>
                  rw [hrest] at hmore
                  exact ⟨hmore.1, hmore.2.1, hpos.trans hmore.2.2.1, hmore.2.2.2⟩
              | failed e s₂ =>
                  rw [hrest] at hmore
                  exact hmore
              | broken =>
                  rw [hrest] at hmore
                  exact hmore
          | none =>
              dsimp only
              have hsame : s₁.depth = s.depth := hdepth₁
              have hle : opened ≤ s₁.depth := by omega
              rw [bind_apply, leave_apply hle]
              have hbase : s₁.depth - opened = base := by omega
              rw [hbase]
              exact ⟨⟨s₁.cursor, rfl, rfl⟩, hs₁.setDepth base, hpos, rfl⟩

theorem stays_counted (hstep : ∀ a s, s.Valid → Follows (step a) (step' a) s fun o s' =>
      s.pos ≤ s'.pos ∧ s'.depth = s.depth + o.isSome.toNat) (a : α) (hs : s.Valid) :
    Stays (counted step a) (Parser.closing (Parser.loop step' a)) s := by
  have hsteps := countedSteps_follow hstep (s.left + 1) 0 s.depth a hs rfl
  have hloop : Parser.loop step' a s.cursor = Parser.steps step' (s.left + 1) a s.cursor := by
    rw [hs.left_eq]
    rfl
  unfold Stays Follows
  rw [counted, Parser.closing_apply, hloop]
  cases hrun : countedSteps step (s.left + 1) 0 a s with
  | broken =>
      rw [hrun] at hsteps
      exact hsteps
  | failed e s₁ =>
      rw [hrun] at hsteps
      rw [hsteps.1]
      exact ⟨rfl, hsteps.2⟩
  | done b s₁ =>
      rw [hrun] at hsteps
      obtain ⟨⟨c, hparse, hcursor⟩, hs₁, hpos, hdepth⟩ := hsteps
      rw [hparse]
      exact ⟨by rw [hcursor]; rfl, hs₁, hdepth.ge, hpos, hdepth⟩

/-- If the first parser leaves the levels as they were, the levels of the second are the ones to put
back. -/
theorem Follows.bind_closing {q : Run β} {p : Parser β} {f : β → Run α} {f' : β → Parser α}
    {Q : β → Tape → Prop} {R : α → Tape → Prop} (hq : Follows q p s Q)
    (hQ : ∀ b s', Q b s' → s'.depth = s.depth)
    (hf : ∀ b s', s'.Valid → Q b s' → Follows (f b) (Parser.closing (f' b)) s' R) :
    Follows (q >>= f) (Parser.closing (p >>= f')) s R := by
  have hbind := hq.bind hf
  have hclosing : Parser.closing (p >>= f') s.cursor =
      (p >>= fun b => Parser.closing (f' b)) s.cursor := by
    rw [Parser.closing_apply, Parser.bind_apply, Parser.bind_apply]
    unfold Follows at hq
    cases hrun : q s with
    | broken =>
        rw [hrun] at hq
        exact hq.elim
    | failed e s₁ =>
        rw [hrun] at hq
        rw [hq.1]
    | done b s₁ =>
        rw [hrun] at hq
        obtain ⟨hparse, -, -, hb⟩ := hq
        rw [hparse]
        dsimp only
        have hdepth : s₁.cursor.depth = s.cursor.depth := hQ b s₁ hb
        rw [Parser.closing_apply, hdepth]
  unfold Follows at hbind ⊢
  rwa [hclosing]

theorem stays_separated {item : Run α} {item' : Parser α} {separator : Run Bool}
    {separator' : Parser Bool} (hitem : ∀ s, s.Valid → Stays item item' s)
    (hsep : ∀ s, s.Valid → Stays separator separator' s) (items : List α) (hs : s.Valid) :
    Stays (do if ← separator then return some ((← item) :: items) else return none)
      (do if ← separator' then return some ((← item') :: items) else return none) s := by
  refine (hsep s hs).bind fun b s₁ hs₁ h₁ => ?_
  split
  · refine (hitem s₁ hs₁).bind fun a s₂ hs₂ h₂ => ?_
    exact .pure hs₂ ⟨by omega, by omega⟩
  · exact .pure hs₁ h₁

theorem moves_sepBy1 {item : Run α} {item' : Parser α} {separator : Run Bool}
    {separator' : Parser Bool} (hitem : ∀ s, s.Valid → Moves item item' s)
    (hsep : ∀ s, s.Valid → Stays separator separator' s) (hs : s.Valid) :
    Moves (sepBy1 item separator) (Parser.sepBy1 item' separator') s := by
  refine (hitem s hs).bind fun first s₁ hs₁ h₁ => ?_
  have hloop := stays_loop (fun items s hs =>
    stays_separated (fun s hs => (hitem s hs).stays) hsep items hs) [first] hs₁
  exact hloop.bind fun items s₂ hs₂ h₂ => .pure hs₂ ⟨by omega, by omega⟩

theorem stays_skipSymbol (text : String) (hs : s.Valid) :
    Stays (skipSymbol text) (Parser.skipSymbol text) s :=
  (follows_skipSymbol hs text).mono fun _ _ h => ⟨by omega, h.2⟩

theorem stays_skipKeyword (text : String) (hs : s.Valid) :
    Stays (skipKeyword text) (Parser.skipKeyword text) s :=
  (follows_skipKeyword hs text).mono fun _ _ h => ⟨by omega, h.2⟩

theorem stays_commaList {item : Run α} {item' : Parser α}
    (hitem : ∀ s, s.Valid → Moves item item' s) (close : String) (hs : s.Valid) :
    Stays (commaList item close) (Parser.commaList item' close) s := by
  refine follows_nextIsSymbol_bind hs ?_
  split
  · exact .pure hs ⟨Nat.le_refl _, rfl⟩
  · exact (moves_sepBy1 hitem (fun s hs => stays_skipSymbol _ hs) hs).stays

end Loops

end Tape

end FieldML
