import HeaderDecl.Proofs.TokenTiling

/-!
Lexing loses nothing: the spans of the tokens stand in order and apart in the text, each token has the
text at its span, and only complete trivia stand between them.
-/

namespace HeaderDecl

open String (utf8Len)

/-! ### Parts of a text -/

theorem Span.dropBytes_append (before after : List Char) :
    Span.dropBytes (utf8Len before) (before ++ after) = after := by
  induction before with
  | nil =>
    cases after <;> rfl
  | cons c before ih =>
    have pos := c.utf8Size_pos
    obtain ⟨n, len⟩ : ∃ n, utf8Len (c :: before) = n + 1 :=
      ⟨utf8Len (c :: before) - 1, by rw [String.utf8Len_cons]; omega⟩
    have left : n + 1 - c.utf8Size = utf8Len before := by
      rw [← len, String.utf8Len_cons]
      omega
    rw [len, List.cons_append, Span.dropBytes, left, ih]

theorem Span.takeBytes_append (part after : List Char) :
    Span.takeBytes (utf8Len part) (part ++ after) = part := by
  induction part with
  | nil => cases after <;> rfl
  | cons c part ih =>
    have pos := c.utf8Size_pos
    obtain ⟨n, len⟩ : ∃ n, utf8Len (c :: part) = n + 1 :=
      ⟨utf8Len (c :: part) - 1, by rw [String.utf8Len_cons]; omega⟩
    have left : n + 1 - c.utf8Size = utf8Len part := by
      rw [← len, String.utf8Len_cons]
      omega
    rw [len, List.cons_append, Span.takeBytes, left, ih]

/-- The part of a text between two bytes, with the text after it. -/
def IsPart (source : List Char) (lo hi : Nat) (part after : List Char) : Prop :=
  ∃ before, source = before ++ (part ++ after) ∧ utf8Len before = lo ∧ lo + utf8Len part = hi

theorem IsPart.valid {source : String} {lo hi : Nat} {part after : List Char}
    (h : IsPart source.toList lo hi part after) :
    String.Pos.Raw.IsValid source ⟨lo⟩ ∧ String.Pos.Raw.IsValid source ⟨hi⟩ := by
  obtain ⟨before, split_, rfl, rfl⟩ := h
  have whole : source = String.ofList before ++ (String.ofList part ++ String.ofList after) := by
    rw [← String.ofList_append, ← String.ofList_append, ← split_, String.ofList_toList]
  rw [String.Pos.Raw.isValid_iff_exists_append, String.Pos.Raw.isValid_iff_exists_append]
  refine ⟨⟨_, _, whole, ?_⟩, ⟨_, _, (whole.trans String.append_assoc.symm), ?_⟩⟩
  · rw [String.rawEndPos_ofList]
  · rw [← String.ofList_append, String.rawEndPos_ofList, String.utf8Len_append]

theorem IsPart.substr {source : String} {span : Span} {part after : List Char}
    (h : IsPart source.toList span.lo span.hi part after) :
    span.substr source = String.ofList part := by
  obtain ⟨before, split_, lo, hi⟩ := h
  have len : span.len = utf8Len part := by
    unfold Span.hi at hi
    omega
  rw [Span.substr, split_, len, ← lo, Span.dropBytes_append, Span.takeBytes_append]

/-! ### Where a text ends -/

/-- The bytes up to the end of a text, or up to its first NUL and with it. -/
def charsEnd (cs : List Char) : Nat :=
  if nul ∈ cs then utf8Len (cs.takeWhile (· ≠ nul)) + 1 else utf8Len cs

theorem charsEnd_append {front : List Char} (free : nul ∉ front) (cs : List Char) :
    charsEnd (front ++ cs) = utf8Len front + charsEnd cs := by
  have taken : (front ++ cs).takeWhile (· ≠ nul) = front ++ cs.takeWhile (· ≠ nul) := by
    apply List.takeWhile_append_of_pos
    intro c mem
    have : c ≠ nul := fun eq => free (eq ▸ mem)
    simpa using this
  simp only [charsEnd, List.mem_append, free, false_or, taken, String.utf8Len_append]
  split <;> omega

theorem charsEnd_of_endsText {text after : List Char} (h : EndsText text after) :
    charsEnd (text ++ after) = utf8Len text := by
  rcases h with ⟨free, rfl⟩ | ⟨body, rfl, free⟩
  · rw [charsEnd_append free]
    rfl
  · have rest : charsEnd (nul :: after) = 1 := by simp [charsEnd, nul]
    rw [List.append_assoc, charsEnd_append free, List.singleton_append, rest, String.utf8Len_append]
    rfl

/-! ### Properties of tilings -/

section Tiling

variable {lo : Nat} {ahead : List Char} {tokens : List Token}

theorem Tiling.lo_le (h : Tiling lo ahead tokens) : ∀ t ∈ tokens, lo ≤ t.span.lo := by
  induction h with
  | @last lo gap text after token takes =>
    intro t mem
    obtain rfl := List.mem_singleton.1 mem
    rw [takes.span]
    exact Nat.le_add_right _ _
  | @more lo gap text after token tokens takes _ _ _ _ ih =>
    intro t mem
    rcases List.mem_cons.1 mem with rfl | mem
    · rw [takes.span]
      exact Nat.le_add_right _ _
    · have := ih t mem
      omega

theorem Token.Takes.lo_eq {token : Token} {gap text after : List Char}
    (h : token.Takes lo gap text after) : token.span.lo = lo + utf8Len gap := by rw [h.span]; rfl

theorem Token.Takes.hi_le {token : Token} {gap text after : List Char}
    (h : token.Takes lo gap text after) : token.span.hi ≤ lo + utf8Len gap + utf8Len text := by
  rw [h.span]
  simp only [Span.hi, Span.ofBounds]
  omega

theorem Token.Takes.hi_eq {token : Token} {gap text after : List Char}
    (h : token.Takes lo gap text after) (small : utf8Len text ≤ Span.maxLen) :
    token.span.hi = lo + utf8Len gap + utf8Len text := by
  rw [h.span]
  simp only [Span.hi, Span.ofBounds]
  omega

/-- Spans stand in order, and apart from one another. -/
theorem Tiling.ordered (h : Tiling lo ahead tokens) :
    tokens.Pairwise fun t u => t.span.lo < u.span.lo ∧ t.span.hi ≤ u.span.lo := by
  induction h with
  | last => exact List.pairwise_singleton _ _
  | @more lo gap text after token tokens takes _ _ some_ rest ih =>
    refine List.pairwise_cons.2 ⟨fun u mem => ?_, ih⟩
    have later := rest.lo_le u mem
    have pos : 0 < utf8Len text := Nat.pos_of_ne_zero fun zero => some_ (String.utf8Len_eq_zero.1 zero)
    have := takes.lo_eq
    have := takes.hi_le
    omega

theorem Tiling.parts (h : Tiling lo ahead tokens) (small : utf8Len ahead ≤ Span.maxLen) :
    ∀ t ∈ tokens, ∃ front after, ahead = front ++ (t.text.toList ++ after) ∧
      t.span.lo = lo + utf8Len front ∧ t.span.hi = t.span.lo + utf8Len t.text.toList := by
  induction h with
  | @last lo gap text after token takes =>
    intro t mem
    obtain rfl := List.mem_singleton.1 mem
    simp only [String.utf8Len_append] at small
    refine ⟨gap, after, by rw [takes.spelled, String.toList_ofList], takes.lo_eq, ?_⟩
    rw [takes.hi_eq (by omega), takes.lo_eq, takes.spelled, String.toList_ofList]
  | @more lo gap text after token tokens takes _ _ _ _ ih =>
    simp only [String.utf8Len_append] at small
    intro t mem
    rcases List.mem_cons.1 mem with rfl | mem
    · refine ⟨gap, after, by rw [takes.spelled, String.toList_ofList], takes.lo_eq, ?_⟩
      rw [takes.hi_eq (by omega), takes.lo_eq, takes.spelled, String.toList_ofList]
    · obtain ⟨front, after', split_, begins, ends⟩ := ih (by omega) t mem
      refine ⟨gap ++ (text ++ front), after', ?_, ?_, ends⟩
      · rw [split_]
        simp
      · rw [begins, String.utf8Len_append, String.utf8Len_append]
        omega

/-- Where the last of some tokens ends, or where the first one may begin. -/
def endOf (lo : Nat) (tokens : List Token) : Nat := (tokens.getLast?.map fun t => t.span.hi).getD lo

theorem endOf_cons (lo : Nat) (t : Token) (ts : List Token) :
    endOf lo (t :: ts) = endOf t.span.hi ts := by
  unfold endOf
  cases ts with
  | nil => rfl
  | cons u ts => rw [List.getLast?_cons_cons]; simp [List.getLast?_cons]

/-- Between one token and the next there is a gap. -/
theorem Tiling.gaps (h : Tiling lo ahead tokens) (small : utf8Len ahead ≤ Span.maxLen) :
    ∀ before t after, tokens = before ++ t :: after → ∃ front gap rest,
      ahead = front ++ (gap ++ rest) ∧ Gap gap rest ∧ endOf lo before = lo + utf8Len front ∧
        t.span.lo = lo + utf8Len front + utf8Len gap := by
  induction h with
  | @last lo gap text after token takes =>
    intro before t others eq
    obtain ⟨rfl, same⟩ : before = [] ∧ token :: [] = t :: others := by
      cases before with
      | nil => exact ⟨rfl, eq⟩
      | cons b before => simp at eq
    obtain ⟨rfl, rfl⟩ := List.cons.inj same
    exact ⟨[], gap, text ++ after, rfl, takes.pieces, rfl, takes.lo_eq⟩
  | @more lo gap text after token tokens takes _ _ _ _ ih =>
    simp only [String.utf8Len_append] at small
    intro before t others eq
    cases before with
    | nil =>
      obtain ⟨rfl, rfl⟩ := List.cons.inj eq
      exact ⟨[], gap, text ++ after, rfl, takes.pieces, rfl, takes.lo_eq⟩
    | cons b before =>
      obtain ⟨rfl, same⟩ := List.cons.inj eq
      obtain ⟨front, gap', rest, split_, pieces, ends, begins⟩ := ih (by omega) before t others same
      refine ⟨gap ++ (text ++ front), gap', rest, ?_, pieces, ?_, ?_⟩
      · rw [split_]
        simp
      · rw [endOf_cons, takes.hi_eq (by omega), ends]
        simp only [String.utf8Len_append]
        omega
      · rw [begins]
        simp only [String.utf8Len_append]
        omega

/-- Only the last token ends the text, and it ends where the text does. -/
theorem Tiling.ends (h : Tiling lo ahead tokens) (small : utf8Len ahead ≤ Span.maxLen) :
    ∃ init last, tokens = init ++ [last] ∧ (∀ t ∈ init, Lexer.endsAt t.kind = false) ∧
      Lexer.endsAt last.kind = true ∧ last.span.hi = lo + charsEnd ahead := by
  induction h with
  | @last lo gap text after token takes ends whole =>
    simp only [String.utf8Len_append] at small
    refine ⟨[], token, rfl, by simp, ends, ?_⟩
    rw [takes.hi_eq (by omega), charsEnd_append takes.pieces.nul_notMem, charsEnd_of_endsText whole]
    omega
  | @more lo gap text after token tokens takes goes noNul _ _ ih =>
    simp only [String.utf8Len_append] at small
    obtain ⟨init, last, rfl, others, ends, hi⟩ := ih (by omega)
    refine ⟨token :: init, last, rfl, ?_, ends, ?_⟩
    · intro t mem
      rcases List.mem_cons.1 mem with rfl | mem
      · exact goes
      · exact others t mem
    · rw [hi, charsEnd_append takes.pieces.nul_notMem, charsEnd_append noNul]
      omega

end Tiling

/-! ### Lossless lexing -/

/-- Tokens that lose nothing of a text. -/
structure Lossless (source : String) (tokens : List Token) : Prop where
  ordered : tokens.Pairwise fun t u => t.span.lo < u.span.lo ∧ t.span.hi ≤ u.span.lo
  boundaries : ∀ t ∈ tokens, String.Pos.Raw.IsValid source ⟨t.span.lo⟩ ∧
    String.Pos.Raw.IsValid source ⟨t.span.hi⟩
  texts : ∀ t ∈ tokens, t.span.substr source = t.text
  gaps : ∀ before t after, tokens = before ++ t :: after →
    ∃ gap rest, IsPart source.toList (endOf 0 before) t.span.lo gap rest ∧ Gap gap rest
  last : ∃ init last, tokens = init ++ [last] ∧
    (last.kind = .eof ∨ last.kind = .error .unclosedComment) ∧
    (∀ t ∈ init, t.kind ≠ .eof ∧ t.kind ≠ .error .unclosedComment) ∧
    last.span.hi = charsEnd source.toList

theorem endsAt_iff {kind : TokenKind} :
    Lexer.endsAt kind = true ↔ kind = .eof ∨ kind = .error .unclosedComment := by
  simp [Lexer.endsAt]

/-- A text of fewer than `2 ^ 32` bytes is lexed without loss. -/
theorem lossless_lex (file source : String) (small : source.utf8ByteSize < 2 ^ 32) :
    Lossless source (lex file source) := by
  have tiling := tiling_lex file source
  have bound : utf8Len source.toList ≤ Span.maxLen := by
    rw [String.utf8Len_toList]
    exact Nat.le_pred_of_lt small
  have part (t : Token) (mem : t ∈ lex file source) :
      ∃ after, IsPart source.toList t.span.lo t.span.hi t.text.toList after := by
    obtain ⟨front, after, split_, begins, ends⟩ := tiling.parts bound t mem
    exact ⟨after, front, split_, by omega, ends.symm⟩
  -- Boundaries and texts come from the parts; order, gaps and the end from the tiling as a whole.
  refine ⟨tiling.ordered, fun t mem => ?_, fun t mem => ?_, fun before t after eq => ?_, ?_⟩
  · exact (part t mem).elim fun _ h => h.valid
  · obtain ⟨after, h⟩ := part t mem
    rw [h.substr, String.ofList_toList]
  · obtain ⟨front, gap, rest, split_, pieces, ends, begins⟩ := tiling.gaps bound before t after eq
    exact ⟨gap, rest, ⟨front, split_, by omega, by omega⟩, pieces⟩
  · obtain ⟨init, last, eq, others, ends, hi⟩ := tiling.ends bound
    refine ⟨init, last, eq, endsAt_iff.1 ends, fun t mem => ?_, by omega⟩
    rw [← not_or, ← endsAt_iff, others t mem]
    exact Bool.false_ne_true

/-- A letter of two bytes, a splice, and a comment that is not closed. -/
theorem lossless_lex_unclosed :
    "é\\\n x // y\n/* z".utf8ByteSize < 2 ^ 32 ∧
      Lossless "é\\\n x // y\n/* z" (lex "a.h" "é\\\n x // y\n/* z") := by
  have small : "é\\\n x // y\n/* z".utf8ByteSize < 2 ^ 32 := by decide
  exact ⟨small, lossless_lex "a.h" _ small⟩

end HeaderDecl
