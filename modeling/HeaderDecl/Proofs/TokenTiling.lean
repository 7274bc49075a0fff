import HeaderDecl.Proofs.TriviaGaps

/-!
The tokens of a text cover it: between one token and the next there is a gap of trivia and nothing
else, and the last token ends where the text does.
-/

namespace HeaderDecl

open String (utf8Len)

/-! ### What a token takes -/

/-- A token text that ends a source text: it takes what is left, or goes up to the first NUL. -/
def EndsText (text after : List Char) : Prop :=
  nul ∉ text ∧ after = [] ∨ ∃ body, text = body ++ [nul] ∧ nul ∉ body

theorem nul_notMem_take_numberLength (cs : List Char) : nul ∉ cs.take (numberLength cs) := by
  have inNumber {c : Char}
      (h : (c.isAlphanum || c == '.' || c == '_' || c == '\'') = true) : nul ≠ c := by
    rintro rfl
    exact absurd h (by decide)
  fun_induction numberLength cs with
  | case1 => simp
  | case2 c part => simpa using inNumber part
  | case3 c part s r sign ih =>
    rw [Nat.add_comm, List.take_succ_cons, List.take_succ_cons]
    simp only [Bool.and_eq_true, Bool.or_eq_true, beq_iff_eq] at sign
    have notSign : nul ≠ s := by rcases sign.2 with rfl | rfl <;> decide
    simp only [List.mem_cons, not_or]
    exact ⟨inNumber part, notSign, ih⟩
  | case4 c part s r _ ih =>
    rw [Nat.add_comm, List.take_succ_cons, List.mem_cons, not_or]
    exact ⟨inNumber part, ih⟩
  | case5 => simp

theorem nul_notMem_take_quotedLength (quote : Char) (escaped : Bool) (cs : List Char) :
    nul ∉ cs.take (quotedLength quote escaped cs).2 := by
  fun_induction quotedLength quote escaped cs with
  | case1 => simp
  | case2 => simp
  | case3 escaped c cs open_ closes =>
    simp only [Bool.or_eq_true, decide_eq_true_eq, not_or] at open_
    simpa [nul] using Ne.symm open_.1
  | case4 escaped c cs open_ _ closed n eq ih =>
    simp only [Bool.or_eq_true, decide_eq_true_eq, not_or] at open_
    rw [eq] at ih
    rw [List.take_succ_cons, List.mem_cons, not_or]
    exact ⟨Ne.symm open_.1, ih⟩

theorem nul_notMem_take_scanWord (cs : List Char) : nul ∉ cs.take (scanWord cs).2 := by
  obtain ⟨word, after, rfl, taken, dropped, inWord, -⟩ := exists_takeWhile isIdentifierContinue cs
  have wordFree : nul ∉ word := fun mem => absurd (inWord _ mem) (by decide)
  unfold scanWord
  rw [taken, dropped]
  cases after with
  | nil => simpa using wordFree
  | cons q r =>
    dsimp only
    split
    · rename_i quoted
      simp only [Bool.and_eq_true] at quoted
      have notQuote : nul ≠ q := by
        rintro rfl
        exact absurd quoted.2 (by decide)
      have rest := nul_notMem_take_quotedLength q false r
      simp only [scanQuoted, List.take_length_add_append, List.take_succ_cons, List.mem_append,
        List.mem_cons, not_or]
      exact ⟨wordFree, notQuote, rest⟩
    · simpa using wordFree

theorem endsAt_literalKind (quote : Char) (closed : Bool) :
    Lexer.endsAt (literalKind quote closed) = false := by
  unfold literalKind
  split <;> split <;> rfl

theorem endsAt_wordKind (word : List Char) : Lexer.endsAt (wordKind word) = false := by
  unfold wordKind
  split <;> rfl

theorem endsAt_scanWord (cs : List Char) : Lexer.endsAt (scanWord cs).1 = false := by
  unfold scanWord
  split
  · dsimp only
    split
    · exact endsAt_literalKind _ _
    · exact endsAt_wordKind _
  · exact endsAt_wordKind _

theorem nul_notMem_of_spelling : ∀ s ∈ Punct.spellings, nul ∉ s.1 := by decide

theorem Punct.take_of_scan {cs s : List Char} {p : Punct} (h : Punct.scan cs = some (s, p)) :
    cs.take s.length = s ∧ nul ∉ s := by
  unfold Punct.scan at h
  have is := List.find?_some h
  have mem := List.mem_of_find?_eq_some h
  obtain ⟨rest, rfl⟩ := List.isPrefixOf_iff_prefix.1 is
  exact ⟨List.take_left, nul_notMem_of_spelling _ mem⟩

/-- Whether a token ends the text, and if it does not, that it is not empty and has no NUL. -/
def Covers (kind : TokenKind) (text after : List Char) : Prop :=
  if Lexer.endsAt kind then EndsText text after else nul ∉ text ∧ text ≠ []

theorem Covers.of_free {kind : TokenKind} {cs : List Char} {n : Nat}
    (goes : Lexer.endsAt kind = false) (free : nul ∉ cs.take n) (pos : 0 < n) (some_ : cs ≠ []) :
    Covers kind (cs.take n) (cs.drop n) := by
  rw [Covers, goes, if_neg Bool.false_ne_true]
  refine ⟨free, ?_⟩
  rw [ne_eq, List.take_eq_nil_iff, not_or]
  exact ⟨by omega, some_⟩

/-- An open comment goes up to the first NUL. -/
theorem endsText_unclosed (cs : List Char) :
    EndsText (('/' :: cs).take (min (2 + (cs.takeWhile (· ≠ '\x00')).length) (1 + cs.length)))
      (('/' :: cs).drop (min (2 + (cs.takeWhile (· ≠ '\x00')).length) (1 + cs.length))) := by
  obtain ⟨body, after, rfl, taken, -, free, ends⟩ := exists_takeWhile (· ≠ '\x00') cs
  have bodyFree : nul ∉ body := fun mem => absurd (free _ mem) (by decide)
  rw [taken]
  cases after with
  | nil =>
    have len : min (2 + body.length) (1 + (body ++ []).length) = ('/' :: body).length := by
      simp only [List.length_append, List.length_cons, List.length_nil]
      omega
    rw [len, List.append_nil, List.take_length, List.drop_length]
    refine .inl ⟨?_, rfl⟩
    rw [List.mem_cons, not_or]
    exact ⟨by decide, bodyFree⟩
  | cons c after =>
    obtain rfl : c = nul := by simpa [nul] using ends c rfl
    have len : min (2 + body.length) (1 + (body ++ nul :: after).length) =
        ('/' :: body ++ [nul]).length := by
      simp only [List.length_append, List.length_cons, List.length_nil]
      omega
    have whole : '/' :: (body ++ nul :: after) = ('/' :: body ++ [nul]) ++ after := by simp
    rw [len, whole, List.take_left]
    refine .inr ⟨'/' :: body, rfl, ?_⟩
    rw [List.mem_cons, not_or]
    exact ⟨by decide, bodyFree⟩

theorem TokenKind.covers_scan (cs : List Char) :
    Covers (TokenKind.scan cs).1 (cs.take (TokenKind.scan cs).2) (cs.drop (TokenKind.scan cs).2) := by
  cases cs with
  | nil => exact .inl ⟨List.not_mem_nil, rfl⟩
  | cons c cs =>
    have pos := TokenKind.scan_pos (List.cons_ne_nil c cs)
    revert pos
    simp only [TokenKind.scan]
    -- One case for each kind of token, in the order in which the lexer tries them.
    split
    · rename_i isNul
      subst isNul
      intro _
      exact .inr ⟨[], rfl, List.not_mem_nil⟩
    rename_i notNul
    have headFree : nul ≠ c := Ne.symm notNul
    split
    · rename_i opens
      simp only [Bool.and_eq_true, decide_eq_true_eq] at opens
      obtain ⟨rfl, -⟩ := opens
      intro _
      exact endsText_unclosed cs
    split
    · intro pos
      refine .of_free rfl ?_ pos (List.cons_ne_nil c cs)
      rw [Nat.add_comm, List.take_succ_cons, List.mem_cons, not_or]
      exact ⟨headFree, nul_notMem_take_numberLength cs⟩
    split
    · intro pos
      refine .of_free (endsAt_literalKind _ _) ?_ pos (List.cons_ne_nil c cs)
      simp only [scanQuoted, List.take_succ_cons, List.mem_cons, not_or]
      exact ⟨headFree, nul_notMem_take_quotedLength c false cs⟩
    split
    · intro pos
      exact .of_free (endsAt_scanWord _) (nul_notMem_take_scanWord _) pos (List.cons_ne_nil c cs)
    split
    · rename_i spelling p found
      intro pos
      obtain ⟨taken, free⟩ := Punct.take_of_scan found
      refine .of_free rfl ?_ pos (List.cons_ne_nil c cs)
      rwa [taken]
    · intro pos
      refine .of_free rfl ?_ pos (List.cons_ne_nil c cs)
      simpa using headFree

/-! ### Steps of the lexer -/

theorem Place.after_append (p : Place) (cs ds : List Char) :
    p.after (cs ++ ds) = (p.after cs).after ds := List.foldl_append

theorem Place.offset_after (p : Place) (cs : List Char) :
    (p.after cs).offset = p.offset + utf8Len cs := by
  induction cs generalizing p with
  | nil => rfl
  | cons c cs ih =>
    have step : (p.next c).offset = p.offset + c.utf8Size := by
      unfold Place.next
      split <;> rfl
    rw [show p.after (c :: cs) = (p.next c).after cs from rfl, ih, step, String.utf8Len_cons]
    omega

/-- A token that takes some text behind a gap, where the gap begins at a byte. -/
structure Token.Takes (token : Token) (lo : Nat) (gap text after : List Char) : Prop where
  pieces : Gap gap (text ++ after)
  spelled : token.text = String.ofList text
  span : token.span = .ofBounds (lo + utf8Len gap) (lo + utf8Len gap + utf8Len text)

namespace Lexer

theorem exists_gap (s : Lexer) : ∃ gap, s.rest = gap ++ s.skipTrivia.rest ∧
    Gap gap s.skipTrivia.rest ∧ s.skipTrivia.place = s.place.after gap := by
  fun_induction skipTrivia s with
  | case1 s => exact ⟨[], rfl, .nil, rfl⟩
  | case2 s t n h _ ih =>
    obtain ⟨gap, split_, tail, place⟩ := ih
    have piece := Trivia.piece_of_scan h
    refine ⟨s.rest.take n ++ gap, ?_, ?_, ?_⟩
    · rw [List.append_assoc, ← split_]
      exact (List.take_append_drop n s.rest).symm
    · refine .cons ?_ tail
      rw [← split_]
      exact piece
    · rw [place, Place.after_append]
      rfl

/-- A token takes the text behind a gap, and the lexer goes on behind it. -/
theorem next_eq_some {s t : Lexer} {token : Token} (h : s.next = some (token, t)) :
    ∃ gap text, s.rest = gap ++ (text ++ t.rest) ∧
      token.Takes s.place.offset gap text t.rest ∧ Covers token.kind text t.rest ∧
      t.place.offset = s.place.offset + utf8Len gap + utf8Len text ∧
      t.finished = endsAt token.kind := by
  unfold next at h
  split at h
  · cases h
  · simp only [Option.some.injEq, Prod.mk.injEq] at h
    obtain ⟨rfl, rfl⟩ := h
    obtain ⟨gap, split_, pieces, place⟩ := s.exists_gap
    have covers := TokenKind.covers_scan s.skipTrivia.rest
    refine ⟨gap, s.skipTrivia.rest.take (TokenKind.scan s.skipTrivia.rest).2, ?_, ⟨?_, rfl, ?_⟩,
      covers, ?_, rfl⟩
    · simpa [advance] using split_
    · simpa [advance] using pieces
    · simp only [advance, place, Place.offset_after]
    · simp only [advance, place, Place.offset_after]

theorem next_eq_none {s : Lexer} : s.next = none ↔ s.finished = true := by
  unfold next
  split
  · simpa
  · simpa using ‹¬s.finished = true›

theorem toList_of_next {s t : Lexer} {token : Token} (h : s.next = some (token, t)) :
    s.toList = token :: t.toList := by
  unfold toList
  rw [takeThrough]
  split
  · rename_i none_
    rw [h] at none_
    cases none_
  · rename_i some_
    rw [h] at some_
    cases some_
    rfl

theorem toList_of_finished {s : Lexer} (h : s.finished = true) : s.toList = [] := by
  unfold toList
  rw [takeThrough]
  split
  · rfl
  · rename_i some_
    rw [next_eq_none.2 h] at some_
    cases some_

end Lexer

/-! ### Tilings -/

/-- Tokens that cover a text from some byte on: each stands behind a gap, and only the last one ends
the text. -/
inductive Tiling : Nat → List Char → List Token → Prop
  | last {lo : Nat} {gap text after : List Char} {token : Token}
    (takes : token.Takes lo gap text after) (ends : Lexer.endsAt token.kind = true)
    (whole : EndsText text after) : Tiling lo (gap ++ (text ++ after)) [token]
  | more {lo : Nat} {gap text after : List Char} {token : Token} {tokens : List Token}
    (takes : token.Takes lo gap text after) (goes : Lexer.endsAt token.kind = false)
    (noNul : nul ∉ text) (some_ : text ≠ [])
    (rest : Tiling (lo + utf8Len gap + utf8Len text) after tokens) :
    Tiling lo (gap ++ (text ++ after)) (token :: tokens)

theorem Lexer.tiling_toList {s : Lexer} (h : s.finished = false) :
    Tiling s.place.offset s.rest s.toList := by
  -- Each step but the last leaves less of the text, so the induction is on how much remains.
  induction size : s.remaining using Nat.strongRecOn generalizing s with
  | ind size_ ih =>
  subst size
  cases next : s.next with
  | none =>
    rw [Lexer.next_eq_none.1 next] at h
    cases h
  | some pair =>
    obtain ⟨token, t⟩ := pair
    obtain ⟨gap, text, split_, takes, covers, offset, finished⟩ := Lexer.next_eq_some next
    rw [Lexer.toList_of_next next, split_]
    cases ends : Lexer.endsAt token.kind with
    | true =>
      rw [Lexer.toList_of_finished (finished.trans ends)]
      rw [Covers, if_pos ends] at covers
      exact .last takes ends covers
    | false =>
      have rest := ih t.remaining (Lexer.remaining_lt_of_next next) (finished.trans ends) rfl
      rw [offset] at rest
      rw [Covers, ends, if_neg Bool.false_ne_true] at covers
      exact .more takes ends covers.1 covers.2 rest

theorem tiling_lex (file source : String) : Tiling 0 source.toList (lex file source) :=
  Lexer.tiling_toList (s := Lexer.ofSource file source) rfl

end HeaderDecl
