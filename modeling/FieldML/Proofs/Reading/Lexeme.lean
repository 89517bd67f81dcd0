import FieldML.Proofs.Place.Lexer
import Mathlib.Data.List.Induction
import Mathlib.Data.List.TakeWhile

/-!
# Tokens partition the text

A text that has tokens consists of their lexemes with gaps around them. A gap holds blank space and
comments only. Each token says where its lexeme stands, and what the lexeme stands for.
-/

namespace FieldML

namespace Position

/-- The position behind a text. A line end begins a line, and a column is one character. -/
def behind (text : List Char) : Position :=
  ⟨1 + text.count '\n', 1 + (text.reverse.takeWhile (· ≠ '\n')).length⟩

theorem behind_concat (text : List Char) (c : Char) :
    behind (text ++ [c]) = (behind text).next c := by
  unfold behind next
  by_cases hc : c = '\n'
  · simp [hc, Nat.add_assoc]
  · simp [hc, Nat.add_assoc]

theorem advance_start (text : List Char) : start.advance text = behind text := by
  induction text using List.reverseRec with
  | nil => rfl
  | append_singleton text c ih =>
      rw [advance_append, ih, behind_concat]
      rfl

end Position

namespace Token

open Position

/-! ### Gaps and lexemes -/

/-- The rest of a comment behind its opening, up to and with the closing that belongs to it. -/
inductive CommentBody : List Char → Prop
  | close : CommentBody ['*', ')']
  /-- A comment inside the comment. -/
  | nested {inner cs : List Char} (hinner : CommentBody inner) (hcs : CommentBody cs) :
      CommentBody ('(' :: '*' :: (inner ++ cs))
  /-- A character at which neither a comment begins nor one ends. -/
  | char {c : Char} {cs : List Char} (hopen : ¬['(', '*'] <+: c :: cs)
      (hclose : ¬['*', ')'] <+: c :: cs) (hcs : CommentBody cs) : CommentBody (c :: cs)

/-- What may stand before a text without being part of it. -/
inductive Gap (text : List Char) : List Char → Prop
  | nil : Gap text []
  | blank {c : Char} {cs : List Char} (hc : Text.isBlank c = true) (hcs : Gap text cs) :
      Gap text (c :: cs)
  /-- A comment up to the end of its line, which may be the end of the whole text. -/
  | line {body cs : List Char} (hbody : '\n' ∉ body)
      (hend : ∀ c ∈ (cs ++ text).head?, c = '\n') (hcs : Gap text cs) :
      Gap text ('-' :: '-' :: (body ++ cs))
  | block {body cs : List Char} (hbody : CommentBody body) (hcs : Gap text cs) :
      Gap text ('(' :: '*' :: (body ++ cs))

/-- The characters between the quotes of a string, and those that they stand for. -/
inductive Decodes : List Char → List Char → Prop
  | nil : Decodes [] []
  | escape {c d : Char} {cs ds : List Char} (hc : unescape c = some d) (hcs : Decodes cs ds) :
      Decodes ('\\' :: c :: cs) (d :: ds)
  | char {c : Char} {cs ds : List Char} (hquote : c ≠ '"') (hslash : c ≠ '\\')
      (hcs : Decodes cs ds) : Decodes (c :: cs) (c :: ds)

/-- The characters of a word of this sort, and the text that it stands for. -/
inductive Lexeme : TokenKind → List Char → String → Prop
  | name {c : Char} {cs : List Char} (hc : isNameStart c = true)
      (hcs : ∀ d ∈ cs, isNameChar d = true) :
      Lexeme (kindOfName c (String.ofList (c :: cs))) (c :: cs) (String.ofList (c :: cs))
  | typeVar {cs : List Char} (hne : cs ≠ []) (hcs : ∀ d ∈ cs, isNameChar d = true) :
      Lexeme .typeVar ('\'' :: cs) (String.ofList cs)
  | number {ds : List Char} (hne : ds ≠ []) (hds : ∀ d ∈ ds, d.isDigit = true)
      (hmax : Text.natOfDigits ds ≤ maxMagnitude) : Lexeme .number ds (String.ofList ds)
  | symbol {s : String} (hs : s ∈ symbols) : Lexeme .symbol s.toList s
  | string {body content : List Char} (hbody : Decodes body content) :
      Lexeme .string ('"' :: (body ++ ['"'])) (String.ofList content)

/-- The text behind `before` consists of the lexemes of the tokens and gaps around them. The range of
a token reaches from its first character to just behind its last one, and the end mark stands at the
end. -/
inductive Partitions : List Char → List Char → List Token → Prop
  | stop {before gap : List Char} (hgap : Gap [] gap) :
      Partitions before gap
        [⟨.eof, "", .source (behind (before ++ gap)) (behind (before ++ gap))⟩]
  | token {before gap lexeme rest : List Char} {kind : TokenKind} {text : String}
      {tokens : List Token} (hgap : Gap (lexeme ++ rest) gap) (hlexeme : Lexeme kind lexeme text)
      (hrest : Partitions (before ++ gap ++ lexeme) rest tokens) :
      Partitions before (gap ++ lexeme ++ rest)
        (⟨kind, text, .source (behind (before ++ gap)) (behind (before ++ gap ++ lexeme))⟩ ::
          tokens)

/-! ### One piece -/

variable {c : Char} {cs before text : List Char} {pos : Position} {piece : Piece} {n depth count : Nat}

/-- Behind `depth` openings as many comments end one after the other. -/
theorem commentLength_eq (hdepth : depth ≠ 0) (h : commentLength depth count cs = some n) :
    ∃ bodies : List (List Char), bodies.length = depth ∧ (∀ body ∈ bodies, CommentBody body) ∧
      bodies.flatten <+: cs ∧ n = count + bodies.flatten.length := by
  fun_induction commentLength depth count cs with
  | case1 => cases h
  | case2 depth count cs ih =>
      obtain ⟨bodies, hlength, hbodies, hprefix, rfl⟩ := ih (Nat.succ_ne_zero _) h
      -- The first two of the bodies are the comment inside and the rest of the one around it.
      obtain ⟨inner, outer, bodies, rfl⟩ : ∃ inner outer rest, bodies = inner :: outer :: rest := by
        obtain ⟨inner, tail, rfl⟩ := List.exists_cons_of_length_eq_add_one hlength
        obtain ⟨n, rfl⟩ := Nat.exists_eq_succ_of_ne_zero hdepth
        obtain ⟨outer, rest, rfl⟩ :=
          List.exists_cons_of_length_eq_add_one (Nat.succ.inj hlength)
        exact ⟨inner, outer, rest, rfl⟩
      obtain ⟨hinner, hbodies⟩ := List.forall_mem_cons.1 hbodies
      obtain ⟨houter, hbodies⟩ := List.forall_mem_cons.1 hbodies
      refine ⟨('(' :: '*' :: (inner ++ outer)) :: bodies, by simpa using hlength,
        List.forall_mem_cons.2 ⟨.nested hinner houter, hbodies⟩, ?_, ?_⟩
      · simpa [List.append_assoc] using hprefix
      · simp only [List.flatten_cons, List.length_append, List.length_cons]
        omega
  | case3 depth count cs hle =>
      obtain rfl : depth = 1 := by omega
      obtain rfl := Option.some.inj h
      exact ⟨[['*', ')']], rfl, List.forall_mem_singleton.2 .close, by simp, rfl⟩
  | case4 depth count cs hle ih =>
      obtain ⟨bodies, hlength, hbodies, hprefix, rfl⟩ := ih (by omega) h
      refine ⟨['*', ')'] :: bodies, by simp only [List.length_cons]; omega,
        List.forall_mem_cons.2 ⟨.close, hbodies⟩, by simpa using hprefix, ?_⟩
      simp only [List.flatten_cons, List.length_append, List.length_cons, List.length_nil]
      omega
  | case5 depth count c cs hopen hclose ih =>
      obtain ⟨bodies, hlength, hbodies, hprefix, rfl⟩ := ih hdepth h
      cases bodies with
      | nil => exact absurd hlength.symm hdepth
      | cons body bodies =>
          obtain ⟨hbody, hbodies⟩ := List.forall_mem_cons.1 hbodies
          obtain ⟨rest, rfl⟩ := hprefix
          have hinside (d e : Char) (hne : ∀ tail, c = d →
              (body :: bodies).flatten ++ rest = e :: tail → False) : ¬[d, e] <+: c :: body := by
            rintro ⟨tail, htail⟩
            obtain ⟨rfl, rfl⟩ : d = c ∧ e :: tail = body := by simpa using htail
            exact hne _ rfl rfl
          refine ⟨(c :: body) :: bodies, hlength, List.forall_mem_cons.2 ⟨?_, hbodies⟩, by simp,
            by simp; omega⟩
          exact .char (hinside _ _ hopen) (hinside _ _ hclose) hbody

theorem decodes_of_stringBody {opening : Position} {content : List Char} {decoded : String}
    (h : stringBody opening pos count content cs = .ok (n, decoded)) :
    ∃ body ds, Decodes body ds ∧ body ++ ['"'] <+: cs ∧ n = count + (body ++ ['"']).length ∧
      decoded = String.ofList (content.reverse ++ ds) := by
  fun_induction stringBody opening pos count content cs with
  | case1 => cases h
  | case2 =>
      obtain ⟨rfl, rfl⟩ := Prod.mk.inj (Except.ok.inj h)
      exact ⟨[], [], .nil, by simp, rfl, by simp⟩
  | case3 => cases h
  | case4 pos count content c rest d hescape ih =>
      obtain ⟨body, ds, hbody, hprefix, rfl, rfl⟩ := ih h
      refine ⟨'\\' :: c :: body, d :: ds, .escape hescape hbody, by simpa using hprefix, ?_, by simp⟩
      simp only [List.length_append, List.length_cons]
      omega
  | case5 => cases h
  | case6 pos count content c rest hquote _ hslash ih =>
      obtain ⟨body, ds, hbody, hprefix, rfl, rfl⟩ := ih h
      refine ⟨c :: body, c :: ds, ?_, by simpa using hprefix, ?_, by simp⟩
      · refine .char hquote (fun hc => ?_) hbody
        cases rest with
        | nil => simp at hprefix
        | cons d rest => exact hslash d rest hc rfl
      · simp only [List.length_append, List.length_cons]
        omega

/-- What a piece of the text is: something that belongs to a gap or a lexeme. -/
inductive IsPiece (rest : List Char) : List Char → Option (TokenKind × String) → Prop
  | gap {cs : List Char} (h : ∀ text gap, rest = gap ++ text → Gap text gap → Gap text (cs ++ gap)) :
      IsPiece rest cs none
  | lexeme {kind : TokenKind} {lexeme : List Char} {decoded : String}
      (h : Lexeme kind lexeme decoded) : IsPiece rest lexeme (some (kind, decoded))

/-- A text splits into the rest of its line and what begins with the line end. -/
theorem exists_line (cs : List Char) : ∃ line rest, cs = line ++ rest ∧
    (line ++ rest).takeWhile (· ≠ '\n') = line ∧ '\n' ∉ line ∧ ∀ c ∈ rest.head?, c = '\n' := by
  refine ⟨cs.takeWhile (· ≠ '\n'), cs.dropWhile (· ≠ '\n'),
    List.takeWhile_append_dropWhile.symm, by rw [List.takeWhile_append_dropWhile],
    fun hmem => by simpa using List.mem_takeWhile_imp hmem, fun c hc => ?_⟩
  have hhead := List.head?_dropWhile_not (· ≠ '\n') cs
  rw [Option.mem_def.1 hc] at hhead
  simpa using hhead

/-- The first character of a text and the next ones as many as a prefix has more. -/
theorem take_length_drop_one (ds cs : List Char) (hds : ds <+: c :: cs) (hne : ds ≠ []) :
    c :: cs.take (ds.length - 1) = ds := by
  obtain ⟨d, ds, rfl⟩ := List.exists_cons_of_ne_nil hne
  obtain ⟨rest, hrest⟩ := hds
  obtain ⟨rfl, rfl⟩ := List.cons.inj hrest
  simp

/-- From two hyphens the rest of the line belongs to a gap. -/
theorem isPiece_line (cs : List Char) : IsPiece
    (('-' :: cs).drop (('-' :: cs).takeWhile (· ≠ '\n')).length)
    ('-' :: ('-' :: cs).take (('-' :: cs).takeWhile (· ≠ '\n')).length) none := by
  obtain ⟨line, rest, rfl, htake, hline, hend⟩ := exists_line cs
  have hlength : (('-' :: (line ++ rest)).takeWhile (· ≠ '\n')).length = line.length + 1 := by
    rw [List.takeWhile_cons_of_pos (by decide), htake, List.length_cons]
  refine .gap fun text gap hrest hgap => ?_
  simp only [hlength, List.drop_succ_cons, List.drop_left, List.take_succ_cons, List.take_left]
    at hrest ⊢
  exact .line hline (hrest ▸ hend) hgap

/-- A comment belongs to a gap up to the closing that is found for it. -/
theorem isPiece_block (h : commentLength 1 1 cs = some n) :
    IsPiece (('*' :: cs).drop n) ('(' :: ('*' :: cs).take n) none := by
  obtain ⟨bodies, hlength, hbodies, ⟨rest, rfl⟩, rfl⟩ := commentLength_eq Nat.one_ne_zero h
  obtain ⟨body, rfl⟩ := List.length_eq_one_iff.1 hlength
  refine .gap fun text gap _ hgap => ?_
  have hcut : ('*' :: ([body].flatten ++ rest)).take (1 + [body].flatten.length) =
      '*' :: body := by
    rw [Nat.add_comm, List.take_succ_cons, List.take_left]
    simp
  rw [hcut]
  exact .block (List.forall_mem_singleton.1 hbodies) hgap

theorem isPiece_string {opening : Position} {decoded : String}
    (h : stringBody opening pos 0 [] cs = .ok (n, decoded)) :
    IsPiece (cs.drop n) ('"' :: cs.take n) (some (.string, decoded)) := by
  obtain ⟨body, ds, hdecodes, ⟨rest, rfl⟩, rfl, rfl⟩ := decodes_of_stringBody h
  rw [Nat.zero_add, List.take_left]
  exact .lexeme (.string hdecodes)

theorem isPiece_symbol {symbol : String}
    (h : symbols.find? (fun s => s.toList.isPrefixOf (c :: cs)) = some symbol) :
    IsPiece (cs.drop (symbol.length - 1)) (c :: cs.take (symbol.length - 1))
      (some (.symbol, symbol)) := by
  have hmem := List.mem_of_find?_eq_some h
  have hfound : symbol.toList.isPrefixOf (c :: cs) = true := by simpa using List.find?_some h
  have hne : symbol.toList ≠ [] := by
    intro hnil
    obtain rfl := String.toList_eq_nil_iff.1 hnil
    exact absurd hmem (by decide)
  rw [← String.length_toList,
    take_length_drop_one _ _ (List.isPrefixOf_iff_prefix.1 hfound) hne]
  exact .lexeme (.symbol hmem)

theorem isPiece_of_scan (h : scan pos c cs = .ok piece) :
    IsPiece (cs.drop piece.extra) (c :: cs.take piece.extra) piece.token? := by
  unfold scan at h
  split_ifs at h with hblank hline hcomment hquote hdigit htick hstart
  · obtain rfl := Except.ok.inj h
    exact .gap fun text gap _ hgap => .blank hblank hgap
  · obtain rfl := Except.ok.inj h
    obtain ⟨rfl, hhead⟩ : c = '-' ∧ cs.head? = some '-' := by simpa using hline
    obtain ⟨cs, rfl⟩ := List.head?_eq_some_iff.1 hhead
    exact isPiece_line cs
  · split at h
    · next extra hextra =>
      obtain rfl := Except.ok.inj h
      obtain ⟨rfl, hhead⟩ : c = '(' ∧ cs.head? = some '*' := by simpa using hcomment
      obtain ⟨cs, rfl⟩ := List.head?_eq_some_iff.1 hhead
      exact isPiece_block hextra
    · cases h
  · cases hbody : stringBody pos (pos.next c) 0 [] cs with
    | error e =>
        rw [hbody] at h
        cases h
    | ok r =>
        rw [hbody] at h
        obtain rfl := Except.ok.inj h
        obtain rfl := hquote
        exact isPiece_string hbody
  · dsimp only at h
    split at h
    · cases h
    · next hmax =>
      obtain rfl := Except.ok.inj h
      have hds : ∀ d ∈ c :: cs.takeWhile Char.isDigit, d.isDigit = true :=
        List.forall_mem_cons.2 ⟨hdigit, fun d hd => List.mem_takeWhile_imp hd⟩
      dsimp only
      rw [take_length_drop_one _ _ (List.cons_prefix_cons.2 ⟨rfl, List.takeWhile_prefix _⟩)
        (List.cons_ne_nil _ _)]
      exact .lexeme (.number (List.cons_ne_nil _ _) hds (Nat.le_of_not_lt hmax))
  · split at h
    · cases h
    · next name hname =>
      obtain rfl := Except.ok.inj h
      have htake := List.prefix_iff_eq_take.1 (List.takeWhile_prefix isNameChar (l := cs))
      dsimp only
      rw [htick, ← htake]
      exact .lexeme (.typeVar hname fun d hd => List.mem_takeWhile_imp hd)
  · obtain rfl := Except.ok.inj h
    dsimp only
    rw [take_length_drop_one _ _ (List.cons_prefix_cons.2 ⟨rfl, List.takeWhile_prefix _⟩)
      (List.cons_ne_nil _ _)]
    exact .lexeme (.name hstart fun d hd => List.mem_takeWhile_imp hd)
  · split at h
    · next s hs =>
      obtain rfl := Except.ok.inj h
      exact isPiece_symbol hs
    · cases h

/-! ### The whole text -/

/-- What belongs to a gap is put before the first gap of the rest. -/
theorem Partitions.skip {rest cs : List Char} {tokens : List Token}
    (hcs : ∀ text gap, rest = gap ++ text → Gap text gap → Gap text (cs ++ gap))
    (h : Partitions (before ++ cs) rest tokens) : Partitions before (cs ++ rest) tokens := by
  cases h with
  | stop hgap =>
      rw [List.append_assoc]
      exact .stop (hcs [] rest (List.append_nil rest).symm hgap)
  | @token _ gap lexeme rest _ _ _ hgap hlexeme hrest =>
      have hlonger := hcs (lexeme ++ rest) gap (List.append_assoc ..) hgap
      have htoken : Partitions before (cs ++ gap ++ lexeme ++ rest) _ :=
        .token hlonger hlexeme (by rwa [← List.append_assoc before])
      simpa only [List.append_assoc] using htoken

theorem partitions_lexFrom (found : List Token) (hpos : pos = behind before) {tokens : List Token}
    (h : lexFrom pos found cs = .ok tokens) :
    ∃ after, tokens = found.reverse ++ after ∧ Partitions before cs after := by
  induction hn : cs.length using Nat.strongRecOn generalizing cs before pos found with
  | ind n ih =>
      cases cs with
      | nil =>
          rw [lexFrom] at h
          obtain rfl := Except.ok.inj h
          rw [List.reverse_cons, hpos]
          have hstop := @Partitions.stop before [] .nil
          rw [List.append_nil] at hstop
          exact ⟨_, rfl, hstop⟩
      | cons c cs =>
          rw [lexFrom] at h
          cases hscan : scan pos c cs with
          | error e =>
              rw [hscan] at h
              cases h
          | ok piece =>
              rw [hscan] at h
              have hshorter : (cs.drop piece.extra).length < n := by
                rw [← hn, List.length_drop, List.length_cons]
                omega
              have hafter : pos.advance (c :: cs.take piece.extra) =
                  behind (before ++ c :: cs.take piece.extra) := by
                rw [hpos, ← advance_start, ← advance_start, advance_append]
              have hsplit : c :: cs = (c :: cs.take piece.extra) ++ cs.drop piece.extra := by
                rw [List.cons_append, List.take_append_drop]
              have hpiece := isPiece_of_scan hscan
              simp only [bind, Except.bind] at h
              rw [hsplit]
              generalize hlexeme : c :: cs.take piece.extra = lexeme at *
              generalize piece.token? = token? at *
              cases hpiece with
              | gap hgap =>
                  obtain ⟨after, htokens, hrest⟩ := ih _ hshorter found hafter h rfl
                  exact ⟨after, htokens, hrest.skip hgap⟩
              | lexeme hword =>
                  obtain ⟨after, rfl, hrest⟩ := ih _ hshorter _ hafter h rfl
                  refine ⟨_ :: after, by rw [List.reverse_cons, List.append_assoc]; rfl, ?_⟩
                  rw [hafter, hpos]
                  have htoken : Partitions before ([] ++ lexeme ++ _) _ :=
                    .token .nil hword (by rwa [List.append_nil])
                  rwa [List.append_nil] at htoken

/-- The tokens of a text are its lexemes from left to right, with nothing but blank space and complete
comments between them, and their ranges are the places of these lexemes. -/
theorem partitions_lex {source : String} {tokens : List Token} (h : lex source = .ok tokens) :
    Partitions [] source.toList tokens := by
  obtain ⟨after, rfl, hpartitions⟩ : ∃ after, tokens = [] ++ after ∧
      Partitions [] source.toList after := partitions_lexFrom [] rfl (lex_eq source ▸ h)
  exact hpartitions

theorem partitions_lex_commented : lex "(* a (* b *) *)\n'a -- c" =
      .ok [⟨.typeVar, "a", .source ⟨2, 1⟩ ⟨2, 3⟩⟩, ⟨.eof, "", .source ⟨2, 8⟩ ⟨2, 8⟩⟩] ∧
    Partitions [] "(* a (* b *) *)\n'a -- c".toList
      [⟨.typeVar, "a", .source ⟨2, 1⟩ ⟨2, 3⟩⟩, ⟨.eof, "", .source ⟨2, 8⟩ ⟨2, 8⟩⟩] := by
  have hlex : lex "(* a (* b *) *)\n'a -- c" =
      .ok [⟨.typeVar, "a", .source ⟨2, 1⟩ ⟨2, 3⟩⟩, ⟨.eof, "", .source ⟨2, 8⟩ ⟨2, 8⟩⟩] := by
    decide +kernel
  exact ⟨hlex, partitions_lex hlex⟩

end Token

end FieldML
