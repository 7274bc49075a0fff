import HeaderDecl.Proofs.LosslessLexing
import Mathlib.Data.List.Induction

/-!
Where tokens stand: lines and columns are those of a count from the beginning of the text, and the
flags of a token tell what its gap is made of.
-/

namespace HeaderDecl

open String (utf8Len)

/-! ### Lines and columns -/

namespace Place

theorem line_after (p : Place) (cs : List Char) : (p.after cs).line = p.line + cs.count '\n' := by
  induction cs generalizing p with
  | nil => rfl
  | cons c cs ih =>
    rw [show p.after (c :: cs) = (p.next c).after cs from rfl, ih]
    by_cases feed : c = '\n'
    · subst feed
      rw [List.count_cons_self, show (p.next '\n').line = p.line + 1 from rfl]
      omega
    · rw [List.count_cons_of_ne feed, next, if_neg feed]

theorem column_after (cs : List Char) :
    (start.after cs).column = 1 + (cs.reverse.takeWhile (· ≠ '\n')).length := by
  -- The last character decides whether a line begins behind the text.
  induction cs using List.reverseRecOn with
  | nil => rfl
  | append_singleton cs c ih =>
    rw [after_append, show (start.after cs).after [c] = (start.after cs).next c from rfl,
      List.reverse_append, List.reverse_singleton, List.singleton_append]
    by_cases feed : c = '\n'
    · subst feed
      rfl
    · rw [next, if_neg feed, List.takeWhile_cons_of_pos (by simpa using feed), List.length_cons]
      dsimp only
      omega

/-- A character adds at most one to the line and the column together, so that both stay 32-bit numbers
behind a text of fewer than `2 ^ 32 - 1` characters. -/
theorem line_add_column_le (cs : List Char) :
    (start.after cs).line + (start.after cs).column ≤ cs.length + 2 := by
  induction cs using List.reverseRecOn with
  | nil => decide
  | append_singleton cs c ih =>
    rw [after_append, show (start.after cs).after [c] = (start.after cs).next c from rfl,
      List.length_append, List.length_singleton, next]
    have pos : 1 ≤ (start.after cs).column := by
      rw [column_after]
      omega
    split <;> dsimp only <;> omega

/-- Behind some more text a place is on a later line, or further on the same line. -/
theorem after_lt (p : Place) {cs : List Char} (more : cs ≠ []) :
    p.line < (p.after cs).line ∨ p.line = (p.after cs).line ∧ p.column < (p.after cs).column := by
  induction cs generalizing p with
  | nil => exact absurd rfl more
  | cons c cs ih =>
    have first : p.line < (p.next c).line ∨
        p.line = (p.next c).line ∧ p.column < (p.next c).column := by
      unfold next
      split
      · exact .inl (Nat.lt_succ_self _)
      · exact .inr ⟨rfl, Nat.lt_succ_self _⟩
    rw [show p.after (c :: cs) = (p.next c).after cs from rfl]
    cases cs with
    | nil => exact first
    | cons d cs =>
      have others := ih (p.next c) (List.cons_ne_nil d cs)
      omega

end Place

/-! ### Rows of trivia -/

/-- The text of some trivia. -/
def Trivia.joined (row : List (Trivia × List Char)) : List Char := row.flatMap Prod.snd

/-- Trivia in a row, each of its kind, in front of some text. -/
inductive Trivia.Row : List (Trivia × List Char) → List Char → Prop
  | nil {after : List Char} : Row [] after
  | cons {t : Trivia} {piece after : List Char} {row : List (Trivia × List Char)}
    (first : Stands t piece (joined row ++ after)) (rest : Row row after) :
    Row ((t, piece) :: row) after

theorem Trivia.joined_cons (t : Trivia) (piece : List Char) (row : List (Trivia × List Char)) :
    joined ((t, piece) :: row) = piece ++ joined row := List.flatMap_cons

theorem Trivia.Stands.ne_nil {t : Trivia} {piece after : List Char} (h : Stands t piece after) :
    piece ≠ [] := by
  have pos := (Trivia.scan_pos h.scan).1
  exact List.length_pos_iff.1 pos

theorem Trivia.Row.joined_eq_nil_iff {row : List (Trivia × List Char)} {after : List Char}
    (h : Row row after) : joined row = [] ↔ row = [] := by
  cases h with
  | nil => simp [joined]
  | cons first => simp [joined_cons, first.ne_nil]

/-- A text has one row of trivia only. -/
theorem Trivia.Row.unique {row other : List (Trivia × List Char)} {after : List Char}
    (h : Row row after) (h' : Row other after) (same : joined other = joined row) :
    other = row := by
  induction h generalizing other with
  | nil => exact h'.joined_eq_nil_iff.1 same
  | @cons t piece after row first rest ih =>
    cases h' with
    | nil => exact absurd same.symm (by simp [joined, first.ne_nil])
    | @cons t' piece' _ other first' rest' =>
      rw [joined_cons, joined_cons] at same
      have whole : piece' ++ (joined other ++ after) = piece ++ (joined row ++ after) := by
        rw [← List.append_assoc, same, List.append_assoc]
      -- Both first pieces are what one scan of the text finds.
      have found : some (t', piece'.length) = some (t, piece.length) := by
        rw [← first'.scan, whole, first.scan]
      simp only [Option.some.injEq, Prod.mk.injEq] at found
      obtain ⟨rfl, len⟩ := found
      obtain ⟨rfl, others⟩ := List.append_inj same len
      rw [ih rest' others]

/-- What the lexer skips is a row of trivia, and its flags tell which trivia these are. -/
theorem Lexer.exists_row (s : Lexer) : ∃ row : List (Trivia × List Char),
    s.rest = Trivia.joined row ++ s.skipTrivia.rest ∧ Trivia.Row row s.skipTrivia.rest ∧
      s.skipTrivia.place = s.place.after (Trivia.joined row) ∧ s.skipTrivia.file = s.file ∧
      (s.skipTrivia.lineStart = true ↔ s.lineStart = true ∨ .newline ∈ row.map Prod.fst) ∧
      (s.skipTrivia.spaced = true ↔ s.spaced = true ∨ row ≠ []) := by
  fun_induction skipTrivia s with
  | case1 s => exact ⟨[], rfl, .nil, rfl, rfl, by simp, by simp⟩
  | case2 s t n h _ ih =>
    obtain ⟨row, split_, tail, place, file, newline, spaced⟩ := ih
    refine ⟨(t, s.rest.take n) :: row, ?_, ?_, ?_, file, ?_, ?_⟩
    · rw [Trivia.joined_cons, List.append_assoc, ← split_]
      exact (List.take_append_drop n s.rest).symm
    · refine .cons ?_ tail
      rw [← split_]
      exact Trivia.stands_of_scan h
    · rw [place, Trivia.joined_cons, Place.after_append]
      rfl
    · rw [newline, Bool.or_eq_true, beq_iff_eq, or_assoc, List.map_cons, List.mem_cons,
        @eq_comm _ t]
    · rw [spaced]
      simp

/-! ### Places of tokens -/

/-- The byte behind the text of the last of some tokens, or a byte where the first one may begin. -/
def textEnd (lo : Nat) (tokens : List Token) : Nat :=
  (tokens.getLast?.map fun t => t.span.lo + utf8Len t.text.toList).getD lo

theorem textEnd_cons (lo : Nat) (t : Token) (ts : List Token) :
    textEnd lo (t :: ts) = textEnd (t.span.lo + utf8Len t.text.toList) ts := by
  unfold textEnd
  cases ts with
  | nil => rfl
  | cons u ts => rw [List.getLast?_cons_cons]; simp [List.getLast?_cons]

/-- A token that stands in a file behind a row of trivia, which is behind some other text. Its line
counts the newlines before it and its column the characters since the last one. -/
structure Token.Placed (token : Token) (file : String) (front : List Char)
    (row : List (Trivia × List Char)) (first : Bool) : Prop where
  file : token.loc.file = file
  byte : token.span.lo = utf8Len (front ++ Trivia.joined row)
  line : token.loc.line = 1 + (front ++ Trivia.joined row).count '\n'
  column : token.loc.column =
    1 + ((front ++ Trivia.joined row).reverse.takeWhile (· ≠ '\n')).length
  spaced : token.spaced = true ↔ Trivia.joined row ≠ []
  lineStart : token.lineStart = true ↔ first = true ∨ .newline ∈ row.map Prod.fst

namespace Lexer

/-- A lexer that has gone past some text, and stands directly behind a token or at the beginning. -/
structure Past (s : Lexer) (front : List Char) : Prop where
  place : s.place = Place.start.after front
  unspaced : s.spaced = false

theorem past_ofSource (file source : String) : (ofSource file source).Past [] := ⟨rfl, rfl⟩

theorem Past.next {s t : Lexer} {front : List Char} {token : Token} (h : s.Past front)
    (next : s.next = some (token, t)) : ∃ row,
      s.rest = Trivia.joined row ++ (token.text.toList ++ t.rest) ∧
      Trivia.Row row (token.text.toList ++ t.rest) ∧ token.Placed s.file front row s.lineStart ∧
      t.Past (front ++ Trivia.joined row ++ token.text.toList) ∧ t.file = s.file ∧
      t.lineStart = false := by
  obtain ⟨row, split_, tail, place, file, newline, spaced⟩ := s.exists_row
  unfold Lexer.next at next
  split at next
  · cases next
  simp only [Option.some.injEq, Prod.mk.injEq] at next
  obtain ⟨rfl, rfl⟩ := next
  have here : s.skipTrivia.place = Place.start.after (front ++ Trivia.joined row) := by
    rw [place, h.place, Place.after_append]
  have text := List.take_append_drop (TokenKind.scan s.skipTrivia.rest).2 s.skipTrivia.rest
  refine ⟨row, ?_, ?_, ?_, ?_, file, rfl⟩
  · simpa only [advance, String.toList_ofList, text] using split_
  · simpa only [advance, String.toList_ofList, text] using tail
  · constructor
    · exact file
    · rw [show utf8Len (front ++ Trivia.joined row) = s.skipTrivia.place.offset by
        rw [here, Place.offset_after]; exact (Nat.zero_add _).symm]
      rfl
    · rw [← show Place.start.line = 1 from rfl, ← Place.line_after, ← here]
    · rw [← Place.column_after, ← here]
    · rw [spaced, h.unspaced, ne_eq, ne_eq, tail.joined_eq_nil_iff]
      simp
    · exact newline
  · refine ⟨?_, rfl⟩
    simp only [advance, here, String.toList_ofList, ← Place.after_append]

theorem placed_toList {s : Lexer} {front : List Char} (h : s.Past front) :
    ∀ before token after, s.toList = before ++ token :: after → ∃ front' row rest,
      front ++ s.rest = front' ++ (Trivia.joined row ++ (token.text.toList ++ rest)) ∧
      Trivia.Row row (token.text.toList ++ rest) ∧
      utf8Len front' = textEnd (utf8Len front) before ∧
      token.Placed s.file front' row (before.isEmpty && s.lineStart) := by
  intro before
  -- The lexer is started again behind each of the tokens before.
  induction before generalizing s front with
  | nil =>
    intro token after whole
    cases next : s.next with
    | none => simp [toList_of_finished (next_eq_none.1 next)] at whole
    | some pair =>
      obtain ⟨first, t⟩ := pair
      rw [toList_of_next next, List.nil_append, List.cons.injEq] at whole
      obtain ⟨rfl, -⟩ := whole
      obtain ⟨row, split_, tail, placed, -⟩ := h.next next
      exact ⟨front, row, t.rest, by rw [split_], tail, rfl, placed⟩
  | cons b before ih =>
    intro token after whole
    cases next : s.next with
    | none => simp [toList_of_finished (next_eq_none.1 next)] at whole
    | some pair =>
      obtain ⟨first, t⟩ := pair
      rw [toList_of_next next, List.cons_append, List.cons.injEq] at whole
      obtain ⟨rfl, others⟩ := whole
      obtain ⟨row, split_, -, placed, past, file, newline⟩ := h.next next
      obtain ⟨front', row', rest, split', tail', ends, placed'⟩ := ih past token after others
      refine ⟨front', row', rest, ?_, tail', ?_, ?_⟩
      · rw [← split', split_]
        simp only [List.append_assoc]
      · rw [ends, textEnd_cons, placed.byte, String.utf8Len_append]
      · rw [file, newline, Bool.and_false] at placed'
        rwa [List.isEmpty_cons, Bool.false_and]

end Lexer

/-- Where a token of a text stands: behind a front of the text. -/
theorem exists_front {file source : String} {t : Token} (h : t ∈ lex file source) :
    ∃ front : List Char, front <+: source.toList ∧ t.loc.file = file ∧ t.span.lo = utf8Len front ∧
      t.loc.line = (Place.start.after front).line ∧ t.loc.column = (Place.start.after front).column := by
  obtain ⟨before, after, whole⟩ := List.append_of_mem h
  obtain ⟨front, row, rest, split_, -, -, placed⟩ :=
    Lexer.placed_toList (Lexer.past_ofSource file source) before t after whole
  refine ⟨front ++ Trivia.joined row, ⟨t.text.toList ++ rest, ?_⟩, placed.file, placed.byte, ?_, ?_⟩
  · rw [List.append_assoc]
    exact split_.symm
  · rw [placed.line, Place.line_after]
    rfl
  · rw [placed.column, Place.column_after]

/-- Whether a token stands before another one in a file. -/
structure Token.Precedes (t u : Token) : Prop where
  byte : t.span.lo < u.span.lo
  position : t.loc.line < u.loc.line ∨ t.loc.line = u.loc.line ∧ t.loc.column < u.loc.column

theorem precedes_lex (file source : String) : (lex file source).Pairwise Token.Precedes := by
  refine (tiling_lex file source).ordered.imp_of_mem fun {t u} inText inText' before => ⟨before.1, ?_⟩
  obtain ⟨front, part, -, byte, line, column⟩ := exists_front inText
  obtain ⟨front', part', -, byte', line', column'⟩ := exists_front inText'
  rcases List.prefix_or_prefix_of_prefix part part' with ⟨more, rfl⟩ | ⟨more, rfl⟩
  · rw [line, column, line', column', Place.after_append]
    refine Place.after_lt _ ?_
    rintro rfl
    rw [List.append_nil] at byte'
    omega
  · rw [byte, byte', String.utf8Len_append] at before
    omega

end HeaderDecl
