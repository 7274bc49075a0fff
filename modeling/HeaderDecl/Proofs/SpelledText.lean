import HeaderDecl.Proofs.WordLexing

/-!
Tokens spell a text that lexes to the same tokens. The lexer looks at most a few characters past a
token, and a spelled text goes on like the source there, or with a blank in place of trivia, or it
ends: no token goes on over a blank, so each one ends where it did.
-/

namespace HeaderDecl

/-- Whether a text agrees with another one up to a blank, or up to its end. -/
inductive Echo : List Char → List Char → Prop
  | nil {cs : List Char} : Echo cs []
  | blank {cs ds : List Char} : Echo cs (' ' :: ds)
  | cons {c : Char} {cs ds : List Char} (rest : Echo cs ds) : Echo (c :: cs) (c :: ds)

namespace Echo

variable {cs ds : List Char}

theorem append (front : List Char) (h : Echo cs ds) : Echo (front ++ cs) (front ++ ds) := by
  induction front with
  | nil => exact h
  | cons c front ih => exact .cons ih

theorem head (h : Echo cs ds) : ∀ d ∈ ds.head?, d = ' ' ∨ d ∈ cs.head? := by
  intro d first
  cases h with
  | nil => cases first
  | blank => exact .inl (Option.some.inj first).symm
  | cons => exact .inr first

/-- What stops in front of a text stops in front of its echo. -/
theorem stops {p : Char → Bool} (h : Echo cs ds) (blank : p ' ' = false)
    (stops : ∀ c ∈ cs.head?, p c = false) : ∀ d ∈ ds.head?, p d = false := by
  intro d first
  rcases h.head d first with rfl | same
  · exact blank
  · exact stops d same

/-- A spelling without blanks that an echo begins with stands in front of the text too. -/
theorem isPrefix {s : List Char} (h : Echo cs ds) (solid : ' ' ∉ s) (front : s <+: ds) : s <+: cs := by
  induction s generalizing cs ds with
  | nil => exact List.nil_prefix
  | cons c s ih =>
    rw [List.mem_cons, not_or] at solid
    cases h with
    | nil => exact absurd (List.prefix_nil.mp front) (List.cons_ne_nil c s)
    | blank => exact absurd (List.cons_prefix_cons.mp front).1.symm solid.1
    | @cons d cs ds rest =>
      obtain ⟨same, front⟩ := List.cons_prefix_cons.mp front
      exact List.cons_prefix_cons.mpr ⟨same, ih rest solid.2 front⟩

end Echo

/-! ### Tokens within their text -/

theorem numberLength_le (cs : List Char) : numberLength cs ≤ cs.length := by
  fun_induction numberLength cs with
  | case1 => exact Nat.le_refl 0
  | case2 => exact Nat.le_refl 1
  | case3 c _ s r _ ih =>
    simp only [List.length_cons]
    omega
  | case4 c _ s r _ ih =>
    simp only [List.length_cons] at ih ⊢
    omega
  | case5 => exact Nat.zero_le _

theorem quotedLength_le (quote : Char) (escaped : Bool) (cs : List Char) :
    (quotedLength quote escaped cs).2 ≤ cs.length := by
  fun_induction quotedLength quote escaped cs with
  | case1 => exact Nat.le_refl 0
  | case2 => exact Nat.zero_le _
  | case3 => simp
  | case4 escaped c cs _ _ closed n eq ih =>
    rw [eq] at ih
    exact Nat.succ_le_succ ih

theorem scanWord_le (cs : List Char) : (scanWord cs).2 ≤ cs.length := by
  have whole : cs.takeWhile isIdentifierContinue ++ cs.dropWhile isIdentifierContinue = cs :=
    List.takeWhile_append_dropWhile
  have len := congrArg List.length whole
  rw [List.length_append] at len
  unfold scanWord
  dsimp only
  split
  · rename_i q r behind
    have literal := quotedLength_le q false r
    rw [behind, List.length_cons] at len
    split
    · simp only [scanQuoted]
      omega
    · dsimp only
      omega
  · dsimp only
    omega

theorem TokenKind.scan_le (cs : List Char) : (TokenKind.scan cs).2 ≤ cs.length := by
  cases cs with
  | nil => exact Nat.le_refl 0
  | cons c cs =>
    rw [TokenKind.scan]
    split
    · simp
    split
    · simp only [List.length_cons]
      omega
    split
    · have := numberLength_le cs
      simp only [List.length_cons]
      omega
    split
    · exact Nat.succ_le_succ (quotedLength_le c false cs)
    split
    · exact scanWord_le (c :: cs)
    split
    · rename_i spelling p found
      have taken := congrArg List.length (Punct.take_of_scan found).1
      rw [List.length_take] at taken
      dsimp only
      omega
    · simp

/-! ### Tokens in front of an echo -/

section Scanning

variable {cs after : List Char}

/-- Whether a character may stand in a number. -/
def inNumber (c : Char) : Bool := c.isAlphanum || c == '.' || c == '_' || c == '\''

/-- Whether two characters are an exponent letter and a sign. -/
def signed (c s : Char) : Bool := (c == 'e' || c == 'E' || c == 'p' || c == 'P') && (s == '+' || s == '-')

theorem numberLength_of_stops (stops : ∀ c ∈ cs.head?, inNumber c = false) : numberLength cs = 0 := by
  cases cs with
  | nil => rfl
  | cons c cs =>
    have := stops c rfl
    rw [numberLength.eq_def]
    exact if_neg (Bool.eq_false_iff.mp this)

theorem numberLength_sign {c s : Char} (part : inNumber c = true) (sign : signed c s = true)
    (cs : List Char) : numberLength (c :: s :: cs) = 2 + numberLength cs := by
  rw [numberLength.eq_def]
  exact (if_pos part).trans (if_pos sign)

theorem numberLength_plain {c : Char} (part : inNumber c = true)
    (unsigned : ∀ s ∈ cs.head?, signed c s = false) :
    numberLength (c :: cs) = 1 + numberLength cs := by
  rw [numberLength.eq_def]
  refine (if_pos part).trans ?_
  cases cs with
  | nil => rfl
  | cons s cs => exact if_neg (Bool.eq_false_iff.mp (unsigned s rfl))

theorem numberLength_echo (echo : Echo (cs.drop (numberLength cs)) after) :
    numberLength (cs.take (numberLength cs) ++ after) = numberLength cs := by
  fun_induction numberLength cs with
  | case1 => exact numberLength_of_stops (echo.stops rfl (by simp))
  | case2 c part =>
    refine (numberLength_plain part (echo.stops ?_ (by simp))).trans ?_
    · simp [signed]
    · rw [List.drop_one, List.tail_cons] at echo
      rw [numberLength_of_stops (echo.stops rfl (by simp))]
  | case3 c part s r sign ih =>
    rw [Nat.add_comm, List.drop_succ_cons, List.drop_succ_cons] at echo
    rw [Nat.add_comm, List.take_succ_cons, List.take_succ_cons, List.cons_append, List.cons_append,
      numberLength_sign part sign, ih echo, Nat.add_comm]
  | case4 c part s r unsigned ih =>
    rw [Nat.add_comm, List.drop_succ_cons] at echo
    rw [Nat.add_comm, List.take_succ_cons, List.cons_append, numberLength_plain part, ih echo,
      Nat.add_comm]
    -- The text behind the letter is an echo as well, so that no sign has come there.
    have behind := echo.append ((s :: r).take (numberLength (s :: r)))
    rw [List.take_append_drop] at behind
    refine behind.stops (by simp [signed]) fun d first => ?_
    cases first
    exact Bool.eq_false_iff.mpr unsigned
  | case5 c cs part =>
    refine numberLength_of_stops (echo.stops rfl fun d first => ?_)
    cases first
    exact Bool.eq_false_iff.mpr part

/-- A closed literal ends at its quote, whatever follows. -/
theorem quotedLength_append {quote : Char} {escaped : Bool}
    (closed : (quotedLength quote escaped cs).1 = true) (after : List Char) :
    quotedLength quote escaped (cs.take (quotedLength quote escaped cs).2 ++ after) =
      quotedLength quote escaped cs := by
  fun_induction quotedLength quote escaped cs with
  | case1 => cases closed
  | case2 => cases closed
  | case3 escaped c cs open_ closes =>
    rw [quotedLength.eq_def]
    exact (if_neg open_).trans (if_pos closes)
  | case4 escaped c cs open_ goes closed' n eq ih =>
    rw [eq] at ih
    rw [List.take_succ_cons, List.cons_append, quotedLength.eq_def]
    refine (if_neg open_).trans ((if_neg goes).trans ?_)
    rw [ih closed]

theorem closed_of_literalKind {quote : Char} {closed : Bool}
    (sound : (literalKind quote closed).isError = false) : closed = true := by
  cases closed with
  | true => rfl
  | false =>
    unfold literalKind at sound
    split at sound <;> cases sound

theorem scanQuoted_append {quote : Char} (sound : (scanQuoted quote cs).1.isError = false)
    (after : List Char) :
    scanQuoted quote (cs.take ((scanQuoted quote cs).2 - 1) ++ after) = scanQuoted quote cs := by
  have closed := closed_of_literalKind sound
  unfold scanQuoted
  rw [Nat.add_sub_cancel, quotedLength_append closed]

/-- A word ends in front of a character that it does not go on with, and that opens no literal that
the word encodes. -/
theorem scanWord_of_ends {word : List Char} (all : ∀ c ∈ word, isIdentifierContinue c = true)
    (stops : ∀ c ∈ after.head?, isIdentifierContinue c = false)
    (plain : ∀ c ∈ after.head?, (encodings.contains word && isQuote c) = false) :
    scanWord (word ++ after) = (wordKind word, word.length) := by
  obtain ⟨taken, dropped⟩ := takeWhile_append_of_stops all stops
  unfold scanWord
  rw [taken, dropped]
  cases after with
  | nil => rfl
  | cons c after => exact if_neg (Bool.eq_false_iff.mp (plain c rfl))

theorem scanWord_of_quote {word : List Char} {q : Char}
    (all : ∀ c ∈ word, isIdentifierContinue c = true) (encodes : encodings.contains word = true)
    (quote : isQuote q = true) (after : List Char) :
    scanWord (word ++ q :: after) =
      ((scanQuoted q after).1, word.length + (scanQuoted q after).2) := by
  have stops : ∀ c ∈ (q :: after).head?, isIdentifierContinue c = false := by
    rintro _ ⟨⟩
    simp only [isQuote, Bool.or_eq_true, beq_iff_eq] at quote
    rcases quote with rfl | rfl <;> rfl
  obtain ⟨taken, dropped⟩ := takeWhile_append_of_stops all stops
  unfold scanWord
  rw [taken, dropped]
  exact if_pos (Bool.and_eq_true_iff.mpr ⟨encodes, quote⟩)

theorem scanWord_echo (sound : (scanWord cs).1.isError = false)
    (echo : Echo (cs.drop (scanWord cs).2) after) :
    scanWord (cs.take (scanWord cs).2 ++ after) = scanWord cs := by
  obtain ⟨word, behind, rfl, -, -, inWord, stops⟩ := exists_takeWhile isIdentifierContinue cs
  by_cases plain : ∀ c ∈ behind.head?, (encodings.contains word && isQuote c) = false
  · rw [scanWord_of_ends inWord stops plain] at echo ⊢
    rw [List.drop_left] at echo
    rw [List.take_left]
    exact scanWord_of_ends inWord (echo.stops rfl stops) (echo.stops (by simp [isQuote]) plain)
  · simp only [not_forall, Bool.not_eq_false, Bool.and_eq_true] at plain
    obtain ⟨q, first, encodes, quote⟩ := plain
    cases behind with
    | nil => cases first
    | cons _ behind =>
      cases first
      rw [scanWord_of_quote inWord encodes quote] at sound ⊢
      have literal := scanQuoted_append sound after
      obtain ⟨n, len⟩ : ∃ n, (scanQuoted q behind).2 = n + 1 := ⟨_, rfl⟩
      rw [len, Nat.add_sub_cancel] at literal
      rw [len, List.take_length_add_append, List.take_succ_cons, List.append_assoc, List.cons_append,
        scanWord_of_quote inWord encodes quote, literal, len]

theorem solid_of_spelling : ∀ s ∈ Punct.spellings, ' ' ∉ s.1 := by decide

/-- Of the spellings that a text does not begin with, its echo begins with none. -/
theorem not_isPrefixOf_echo {ds : List Char} {x : List Char × Punct} (spelling : x ∈ Punct.spellings)
    (echo : Echo cs ds) (other : x.1.isPrefixOf cs = false) : x.1.isPrefixOf ds = false := by
  refine Bool.eq_false_iff.mpr fun front => Bool.eq_false_iff.mp other ?_
  rw [List.isPrefixOf_iff_prefix] at front ⊢
  exact echo.isPrefix (solid_of_spelling x spelling) front

theorem Punct.scan_echo {s : List Char} {p : Punct} (found : Punct.scan (s ++ cs) = some (s, p))
    (echo : Echo cs after) : Punct.scan (s ++ after) = some (s, p) := by
  obtain ⟨-, before, behind, split, skipped⟩ := List.find?_eq_some_iff_append.mp found
  refine List.find?_eq_some_iff_append.mpr ⟨?_, before, behind, split, fun x earlier => ?_⟩
  · exact List.isPrefixOf_iff_prefix.mpr (List.prefix_append s after)
  · have spelling : x ∈ Punct.spellings := by
      rw [split]
      exact List.mem_append_left _ earlier
    have other := skipped x earlier
    rw [Bool.not_eq_true'] at other ⊢
    exact not_isPrefixOf_echo spelling (echo.append s) other

theorem Punct.scan_echo_none (none_ : Punct.scan cs = none) (echo : Echo cs after) :
    Punct.scan after = none := by
  refine List.find?_eq_none.mpr fun x spelling => ?_
  have other := List.find?_eq_none.mp none_ x spelling
  rw [Bool.not_eq_true] at other ⊢
  exact not_isPrefixOf_echo spelling echo other

/-- Scans a punctuator, or a character that begins no token. -/
def scanPunct (cs : List Char) : TokenKind × Nat :=
  match Punct.scan cs with
  | some (spelling, p) => (.punct p, spelling.length)
  | none => (.unknown, 1)

theorem scanPunct_pos (cs : List Char) : 0 < (scanPunct cs).2 := by
  unfold scanPunct
  split
  · exact Punct.length_pos_of_scan ‹_›
  · exact Nat.one_pos

theorem scanPunct_echo {c : Char} (echo : Echo ((c :: cs).drop (scanPunct (c :: cs)).2) after) :
    scanPunct ((c :: cs).take (scanPunct (c :: cs)).2 ++ after) = scanPunct (c :: cs) := by
  cases found : Punct.scan (c :: cs) with
  | none =>
    have scan : scanPunct (c :: cs) = (.unknown, 1) := by rw [scanPunct, found]
    rw [scan] at echo ⊢
    have none_ := Punct.scan_echo_none found (.cons echo)
    rw [List.take_succ_cons, List.take_zero, List.cons_append, List.nil_append, scanPunct, none_]
  | some pair =>
    obtain ⟨spelling, p⟩ := pair
    have scan : scanPunct (c :: cs) = (.punct p, spelling.length) := by rw [scanPunct, found]
    rw [scan] at echo ⊢
    obtain ⟨taken, -⟩ := Punct.take_of_scan found
    rw [← List.take_append_drop spelling.length (c :: cs), taken] at found
    rw [taken, scanPunct, Punct.scan_echo found echo]

/-- Whether a number begins with a character in front of a text. -/
def beginsNumber (c : Char) (cs : List Char) : Bool :=
  c.isDigit || (c = '.' && cs.head?.any Char.isDigit)

theorem inNumber_of_isDigit {d : Char} (digit : d.isDigit = true) : inNumber d = true := by
  simp [inNumber, Char.isAlphanum, digit]

/-- A number begins where it did: the digit behind a point belongs to it. -/
theorem beginsNumber_append {c : Char} (begins : beginsNumber c cs = true) (after : List Char) :
    beginsNumber c (cs.take (numberLength cs) ++ after) = true := by
  unfold beginsNumber at begins ⊢
  rcases Bool.or_eq_true_iff.mp begins with digit | point
  · rw [digit, Bool.true_or]
  · obtain ⟨isPoint, digit⟩ := Bool.and_eq_true_iff.mp point
    cases cs with
    | nil => cases digit
    | cons d cs =>
      have length : numberLength (d :: cs) ≠ 0 := by
        rw [numberLength.eq_def]
        refine ne_of_eq_of_ne (if_pos (inNumber_of_isDigit digit)) ?_
        split
        · exact Nat.one_ne_zero
        · split <;> omega
      obtain ⟨n, len⟩ := Nat.exists_eq_succ_of_ne_zero length
      rw [len, List.take_succ_cons, List.cons_append, isPoint, List.head?_cons, Option.any_some]
      simp [show d.isDigit = true from digit]

theorem beginsNumber_echo {c : Char} {ds : List Char} (other : beginsNumber c cs = false)
    (echo : Echo cs ds) : beginsNumber c ds = false := by
  cases ds with
  | nil => simp_all [beginsNumber]
  | cons d ds =>
    rcases echo.head d rfl with rfl | same
    · simp_all [beginsNumber]
    · rwa [beginsNumber, ← show cs.head? = (d :: ds).head? from same]

/-- The scan of a character that neither ends the text nor opens a comment. -/
theorem scan_cons {c : Char} (text : c ≠ nul) (noComment : ¬(c = '/' ∧ cs.head? = some '*')) :
    TokenKind.scan (c :: cs) =
      if beginsNumber c cs then (.number, 1 + numberLength cs)
      else if isQuote c then scanQuoted c cs
      else if isIdentifierStart c then scanWord (c :: cs)
      else scanPunct (c :: cs) := by
  rw [TokenKind.scan]
  refine (if_neg text).trans (if_neg ?_)
  simpa using noComment

/-- A token that is no error is found in front of an echo of what follows it. -/
theorem TokenKind.scan_echo (sound : (TokenKind.scan cs).1.isError = false)
    (echo : Echo (cs.drop (TokenKind.scan cs).2) after)
    (ends : (TokenKind.scan cs).1 = .eof → after = []) :
    TokenKind.scan (cs.take (TokenKind.scan cs).2 ++ after) = TokenKind.scan cs := by
  cases cs with
  | nil =>
    rw [ends rfl]
    rfl
  | cons c cs =>
    by_cases text : c = nul
    · subst text
      rfl
    by_cases comment : c = '/' ∧ cs.head? = some '*'
    · obtain ⟨rfl, star⟩ := comment
      rw [TokenKind.scan, if_neg (by decide), if_pos (by simp [star])] at sound
      cases sound
    -- What follows the character is an echo too, so that it opens no comment.
    have other {n : Nat} (echo : Echo (cs.drop n) after) :
        ¬(c = '/' ∧ (cs.take n ++ after).head? = some '*') := by
      rintro ⟨slash, star⟩
      have whole := echo.append (cs.take n)
      rw [List.take_append_drop] at whole
      exact comment ⟨slash, by simpa using whole.head '*' star⟩
    have scan_echo_cons {n : Nat} (echo : Echo (cs.drop n) after) := scan_cons text (other echo)
    rw [scan_cons text comment] at sound echo ⊢
    by_cases number : beginsNumber c cs = true
    · rw [if_pos number] at echo ⊢
      rw [Nat.add_comm, List.drop_succ_cons] at echo
      rw [Nat.add_comm, List.take_succ_cons, List.cons_append, scan_echo_cons echo,
        if_pos (beginsNumber_append number after), numberLength_echo echo, Nat.add_comm]
    rw [if_neg number] at sound echo ⊢
    have scan_echo_other {n : Nat} (echo : Echo (cs.drop n) after) :=
      (scan_echo_cons echo).trans (if_neg (Bool.eq_false_iff.mp (beginsNumber_echo
        (Bool.eq_false_iff.mpr number) (by simpa using echo.append (cs.take n)))))
    by_cases quote : isQuote c = true
    · rw [if_pos quote] at sound echo ⊢
      have literal := scanQuoted_append sound after
      obtain ⟨n, len⟩ : ∃ n, (scanQuoted c cs).2 = n + 1 := ⟨_, rfl⟩
      rw [len, List.drop_succ_cons] at echo
      rw [len, Nat.add_sub_cancel] at literal
      rw [len, List.take_succ_cons, List.cons_append, scan_echo_other echo, if_pos quote, literal]
    rw [if_neg quote] at sound echo ⊢
    by_cases word : isIdentifierStart c = true
    · rw [if_pos word] at sound echo ⊢
      have same := scanWord_echo sound echo
      obtain ⟨n, len⟩ := Nat.exists_eq_succ_of_ne_zero (scanWord_pos cs word).ne'
      rw [len, List.take_succ_cons, List.cons_append] at same ⊢
      rw [len, List.drop_succ_cons] at echo
      rw [scan_echo_other echo, if_neg quote, if_pos word, same]
    rw [if_neg word] at echo ⊢
    have same := scanPunct_echo echo
    obtain ⟨n, len⟩ := Nat.exists_eq_succ_of_ne_zero (scanPunct_pos (c :: cs)).ne'
    rw [len, List.take_succ_cons, List.cons_append] at same ⊢
    rw [len, List.drop_succ_cons] at echo
    rw [scan_echo_other echo, if_neg quote, if_neg word, same]

/-- Whether two characters open trivia: a line splice or a comment. -/
def opensTrivia (c d : Char) : Bool :=
  c = '\\' && (d = '\n' || d = '\r') || c = '/' && (d = '/' || d = '*')

theorem trivia_scan_of_solid {c : Char} (notBlank : Text.isBlank c = false)
    (solid : ∀ d ∈ cs.head?, opensTrivia c d = false) : Trivia.scan (c :: cs) = none := by
  rw [Trivia.scan.eq_def]
  split <;> simp_all [opensTrivia, Text.isBlank]

theorem not_blank_of_none {c : Char} (none_ : Trivia.scan (c :: cs) = none) :
    Text.isBlank c = false := by
  by_contra blank
  obtain ⟨t, some_⟩ := @trivia_scan_blank c cs (Bool.not_eq_false _ ▸ blank)
  rw [some_] at none_
  cases none_

theorem solid_of_none {c : Char} (none_ : Trivia.scan (c :: cs) = none)
    (noComment : ¬(c = '/' ∧ cs.head? = some '*')) : ∀ d ∈ cs.head?, opensTrivia c d = false := by
  intro d first
  cases cs with
  | nil => cases first
  | cons _ cs =>
    cases first
    by_contra opens
    simp only [opensTrivia, Bool.not_eq_false, Bool.or_eq_true, Bool.and_eq_true,
      decide_eq_true_eq] at opens
    rcases opens with ⟨rfl, rfl | rfl⟩ | ⟨rfl, rfl | rfl⟩
    · cases none_
    · cases none_
    · cases none_
    · exact noComment ⟨rfl, rfl⟩

/-- No trivia begins with a token that is no error, nor with the token in front of an echo of what
follows it. -/
theorem trivia_scan_echo (none_ : Trivia.scan cs = none)
    (sound : (TokenKind.scan cs).1.isError = false)
    (echo : Echo (cs.drop (TokenKind.scan cs).2) after)
    (ends : (TokenKind.scan cs).1 = .eof → after = []) :
    Trivia.scan (cs.take (TokenKind.scan cs).2 ++ after) = none := by
  cases cs with
  | nil =>
    rw [ends rfl]
    rfl
  | cons c cs =>
    obtain ⟨n, len⟩ :=
      Nat.exists_eq_succ_of_ne_zero (TokenKind.scan_pos (List.cons_ne_nil c cs)).ne'
    rw [len, List.drop_succ_cons] at echo
    rw [len, List.take_succ_cons, List.cons_append]
    have whole := echo.append (cs.take n)
    rw [List.take_append_drop] at whole
    refine trivia_scan_of_solid (not_blank_of_none none_) (whole.stops (by simp [opensTrivia]) ?_)
    refine solid_of_none none_ ?_
    rintro ⟨rfl, star⟩
    rw [TokenKind.scan, if_neg (by decide), if_pos (by simp [star])] at sound
    cases sound

end Scanning

/-! ### Lexing what is spelled -/

namespace Lexer

theorem skipTrivia_of_none {s : Lexer} (none_ : Trivia.scan s.rest = none) : s.skipTrivia = s := by
  rw [skipTrivia.eq_def]
  split
  · rfl
  · simp_all

theorem spaced_skipTrivia {s : Lexer} (h : s.spaced = true) : s.skipTrivia.spaced = true := by
  fun_induction skipTrivia s with
  | case1 => exact h
  | case2 s t n _ _ ih => exact ih rfl

theorem spaced_of_trivia {s : Lexer} {t : Trivia} {n : Nat} (h : Trivia.scan s.rest = some (t, n)) :
    s.skipTrivia.spaced = true := by
  rw [skipTrivia.eq_def]
  split
  · simp_all
  · exact spaced_skipTrivia rfl

theorem trivia_scan_skipTrivia (s : Lexer) : Trivia.scan s.skipTrivia.rest = none := by
  fun_induction skipTrivia s with
  | case1 s none_ => exact none_
  | case2 s t n _ _ ih => exact ih

/-- A token scanned behind trivia, and the lexer after it. -/
structure Scans (s : Lexer) (token : Token) (t : Lexer) : Prop where
  kind : token.kind = (TokenKind.scan s.skipTrivia.rest).1
  text : token.text = String.ofList (s.skipTrivia.rest.take (TokenKind.scan s.skipTrivia.rest).2)
  spaced : token.spaced = s.skipTrivia.spaced
  rest : t.rest = s.skipTrivia.rest.drop (TokenKind.scan s.skipTrivia.rest).2
  fresh : t.spaced = false
  finished : t.finished = endsAt token.kind

theorem exists_scans {s : Lexer} (goes : s.finished = false) :
    ∃ token t, s.next = some (token, t) ∧ s.Scans token t :=
  ⟨_, _, if_neg (Bool.eq_false_iff.mp goes), rfl, rfl, rfl, rfl, rfl, rfl⟩

theorem scans_of_next {s t : Lexer} {token : Token} (next : s.next = some (token, t)) :
    s.finished = false ∧ s.Scans token t := by
  cases goes : s.finished with
  | true =>
    rw [next_eq_none.2 goes] at next
    cases next
  | false =>
    obtain ⟨_, _, found, scans⟩ := exists_scans goes
    rw [next] at found
    cases found
    exact ⟨rfl, scans⟩

/-- The next token is found again behind a blank or none, in front of an echo of what follows it. -/
theorem next_echo {s t s' : Lexer} {token : Token} {gap after : List Char}
    (next : s.next = some (token, t)) (sound : token.kind.isError = false)
    (goes : s'.finished = false) (fresh : s'.spaced = false) (blank : gap = [] ∨ gap = [' '])
    (rest : s'.rest = gap ++ (token.text.toList ++ after)) (echo : Echo t.rest after)
    (ends : token.kind = .eof → after = []) :
    ∃ token' t', s'.next = some (token', t') ∧ token'.kind = token.kind ∧
      token'.text = token.text ∧ (token'.spaced = true ↔ gap = [' ']) ∧
      t'.rest = after ∧ t'.spaced = false ∧ t'.finished = t.finished := by
  obtain ⟨-, scans⟩ := scans_of_next next
  obtain ⟨token', t', next', scans'⟩ := exists_scans goes
  rw [scans.kind] at sound ends
  rw [scans.rest] at echo
  rw [scans.text, String.toList_ofList] at rest
  have none_ := trivia_scan_echo s.trivia_scan_skipTrivia sound echo ends
  have scan := TokenKind.scan_echo sound echo ends
  have len := List.length_take_of_le (TokenKind.scan_le s.skipTrivia.rest)
  have blanks : ∀ c ∈ gap, Text.isBlank c = true := by
    rcases blank with rfl | rfl <;> simp [Text.isBlank]
  have skipped := (rest_skipTrivia rest blanks none_).1
  have kind : token'.kind = token.kind := by rw [scans'.kind, skipped, scan, scans.kind]
  refine ⟨token', t', next', kind, ?_, ?_, ?_, scans'.fresh, ?_⟩
  · rw [scans'.text, scans.text, skipped, scan, List.take_append_of_le_length len.ge, List.take_take,
      Nat.min_self]
  · rw [scans'.spaced]
    rcases blank with rfl | rfl
    · rw [skipTrivia_of_none (by rwa [rest]), fresh]
      simp
    · obtain ⟨t, found⟩ := trivia_scan_blank (blanks ' ' (List.mem_singleton_self ' '))
      exact ⟨fun _ => rfl, fun _ => spaced_of_trivia (by rw [rest]; exact found)⟩
  · rw [scans'.rest, skipped, scan, List.drop_append_of_le_length len.ge,
      List.drop_of_length_le len.le, List.nil_append]
  · rw [scans'.finished, scans.finished, kind]

end Lexer

/-- The kind and the text of a token. -/
def Token.shape (t : Token) : TokenKind × String := (t.kind, t.text)

/-- The blank that is spelled in front of a token. -/
def Token.gap (t : Token) : List Char := if t.spaced then [' '] else []

theorem Token.gap_cases (t : Token) : t.gap = [] ∨ t.gap = [' '] := by
  unfold Token.gap
  split
  · exact .inr rfl
  · exact .inl rfl

/-- What tokens spell behind another token. -/
def echoed (ts : List Token) : List Char := (String.join (ts.map Token.spaceAndText)).toList

theorem echoed_cons (t : Token) (ts : List Token) :
    echoed (t :: ts) = t.gap ++ (t.text.toList ++ echoed ts) := by
  simp only [echoed, List.map_cons, String.join_cons, String.toList_append, Token.spaceAndText,
    Token.gap]
  split <;> simp

theorem toList_spell_cons (t : Token) (ts : List Token) :
    (spell (t :: ts)).toList = t.text.toList ++ echoed ts := by
  rw [spell, String.toList_append, echoed]

/-- Tokens of the same shapes with the same blanks spell the same. -/
theorem echoed_congr {ts us : List Token}
    (same : ts.map (fun t => (t.shape, t.gap)) = us.map fun t => (t.shape, t.gap)) :
    echoed ts = echoed us := by
  induction ts generalizing us with
  | nil => rw [List.map_eq_nil_iff.mp same.symm]
  | cons t ts ih =>
    cases us with
    | nil => cases same
    | cons u us =>
      simp only [List.map_cons, List.cons.injEq, Prod.mk.injEq, Token.shape] at same
      rw [echoed_cons, echoed_cons, same.1.1.2, same.1.2, ih same.2]

namespace Lexer

/-- A text goes on like the tokens in it are spelled, up to the first trivia. -/
theorem echo_toList {s : Lexer} (fresh : s.spaced = false) : Echo s.rest (echoed s.toList) := by
  induction size : s.remaining using Nat.strongRecOn generalizing s with
  | ind size ih =>
  subst size
  cases next : s.next with
  | none =>
    rw [toList_of_finished (next_eq_none.1 next)]
    exact .nil
  | some pair =>
    obtain ⟨token, t⟩ := pair
    obtain ⟨-, scans⟩ := scans_of_next next
    rw [toList_of_next next, echoed_cons]
    cases spaced : token.spaced with
    | true =>
      rw [Token.gap, if_pos spaced]
      exact .blank
    | false =>
      have none_ : Trivia.scan s.rest = none := by
        by_contra some_
        obtain ⟨⟨piece, n⟩, found⟩ := Option.ne_none_iff_exists'.mp some_
        rw [scans.spaced, spaced_of_trivia found] at spaced
        cases spaced
      have rest := ih t.remaining (remaining_lt_of_next next) scans.fresh rfl
      have text := scans.text
      rw [scans.rest] at rest
      rw [skipTrivia_of_none none_] at rest text
      have whole := rest.append (s.rest.take (TokenKind.scan s.rest).2)
      rw [List.take_append_drop] at whole
      rw [Token.gap, if_neg (Bool.eq_false_iff.mp spaced), List.nil_append, text, String.toList_ofList]
      exact whole

/-- A token is found again in front of what the tokens after it spell. -/
theorem next_spelled {s t s' : Lexer} {token : Token} {gap : List Char}
    (next : s.next = some (token, t)) (sound : token.kind.isError = false)
    (goes : s'.finished = false) (fresh : s'.spaced = false) (blank : gap = [] ∨ gap = [' '])
    (rest : s'.rest = gap ++ (token.text.toList ++ echoed t.toList)) :
    ∃ token' t', s'.next = some (token', t') ∧ token'.shape = token.shape ∧ token'.gap = gap ∧
      t'.rest = echoed t.toList ∧ t'.spaced = false ∧ t'.finished = t.finished := by
  obtain ⟨-, scans⟩ := scans_of_next next
  have ends (eof : token.kind = .eof) : echoed t.toList = [] := by
    rw [toList_of_finished (scans.finished.trans (by rw [eof]; rfl))]
    rfl
  obtain ⟨token', t', next', kind, text, spaced, left⟩ :=
    next_echo next sound goes fresh blank rest (echo_toList scans.fresh) ends
  refine ⟨token', t', next', ?_, ?_, left⟩
  · rw [Token.shape, kind, text, Token.shape]
  · rcases blank with rfl | rfl
    · exact if_neg fun is => by simpa using spaced.mp is
    · exact if_pos (spaced.mpr rfl)

/-- What tokens spell behind another one is lexed to the same tokens with the same blanks. -/
theorem toList_echo {s s' : Lexer} (sound : ∀ t ∈ s.toList, t.kind.isError = false)
    (fresh : s'.spaced = false) (finished : s'.finished = s.finished)
    (rest : s'.rest = echoed s.toList) :
    s'.toList.map (fun t => (t.shape, t.gap)) = s.toList.map fun t => (t.shape, t.gap) := by
  induction size : s.remaining using Nat.strongRecOn generalizing s s' with
  | ind size ih =>
  subst size
  cases next : s.next with
  | none =>
    have done := next_eq_none.1 next
    rw [toList_of_finished done, toList_of_finished (finished.trans done)]
  | some pair =>
    obtain ⟨token, t⟩ := pair
    rw [toList_of_next next] at sound rest ⊢
    rw [echoed_cons] at rest
    have goes := finished.trans (scans_of_next next).1
    obtain ⟨token', t', next', shape, gap, rest', fresh', finished'⟩ :=
      next_spelled next (sound token List.mem_cons_self) goes fresh token.gap_cases rest
    have tail := ih t.remaining (remaining_lt_of_next next)
      (fun u mem => sound u (List.mem_cons_of_mem token mem)) fresh' finished' rest' rfl
    rw [toList_of_next next', List.map_cons, List.map_cons, shape, gap, tail]

/-- What tokens spell is lexed to the same tokens, with the same blanks but for that in front. -/
theorem toList_spell {s s' : Lexer} (sound : ∀ t ∈ s.toList, t.kind.isError = false)
    (fresh : s'.spaced = false) (goes : s.finished = false) (goes' : s'.finished = false)
    (rest : s'.rest = (spell s.toList).toList) :
    s'.toList.map Token.shape = s.toList.map Token.shape ∧ spell s'.toList = spell s.toList := by
  obtain ⟨token, t, next, -⟩ := exists_scans goes
  rw [toList_of_next next] at sound rest ⊢
  rw [toList_spell_cons] at rest
  obtain ⟨token', t', next', shape, -, rest', fresh', finished'⟩ :=
    next_spelled next (sound token List.mem_cons_self) goes' fresh (.inl rfl) rest
  have tail := toList_echo (fun u mem => sound u (List.mem_cons_of_mem token mem)) fresh' finished' rest'
  have shapes := congrArg (List.map Prod.fst) tail
  simp only [List.map_map, Function.comp_def] at shapes
  rw [toList_of_next next']
  constructor
  · rw [List.map_cons, List.map_cons, shape, shapes]
  · have text : token'.text = token.text := congrArg Prod.snd shape
    rw [← String.toList_inj, toList_spell_cons, toList_spell_cons, text, echoed_congr tail]

/-- At the end of the text there is an empty end token. -/
theorem toList_of_rest_nil {s : Lexer} (goes : s.finished = false) (rest : s.rest = []) :
    s.toList.map Token.shape = [(.eof, "")] := by
  have skipped : s.skipTrivia = s := skipTrivia_of_none (by rw [rest]; rfl)
  obtain ⟨token, t, next, scans⟩ := exists_scans goes
  have kind := scans.kind
  have text := scans.text
  rw [skipped, rest] at kind text
  rw [toList_of_next next, toList_of_finished (scans.finished.trans (by rw [kind]; rfl)),
    List.map_singleton, Token.shape, kind, text]
  rfl

/-- The text of a token is lexed to that token. -/
theorem toList_text {s s' : Lexer} {token : Token} (mem : token ∈ s.toList)
    (sound : token.kind.isError = false) (other : token.isEof = false)
    (fresh : s'.spaced = false) (goes : s'.finished = false) (rest : s'.rest = token.text.toList) :
    s'.toList.map Token.shape = [token.shape, (.eof, "")] := by
  induction size : s.remaining using Nat.strongRecOn generalizing s with
  | ind size ih =>
  subst size
  cases next : s.next with
  | none =>
    rw [toList_of_finished (next_eq_none.1 next)] at mem
    cases mem
  | some pair =>
    obtain ⟨first, t⟩ := pair
    rw [toList_of_next next, List.mem_cons] at mem
    rcases mem with rfl | mem
    · have whole : s'.rest = [] ++ (token.text.toList ++ []) := by simpa using rest
      obtain ⟨token', t', next', kind, text, -, rest', -, finished'⟩ :=
        next_echo next sound goes fresh (.inl rfl) whole .nil (fun _ => rfl)
      have last : endsAt token.kind = false := by
        refine Bool.eq_false_iff.mpr fun ends => ?_
        simp only [endsAt, Bool.or_eq_true, beq_iff_eq] at ends
        rcases ends with eof | unclosed
        · exact Bool.eq_false_iff.mp other (beq_iff_eq.mpr eof)
        · rw [unclosed] at sound
          cases sound
      have goes' : t'.finished = false := by
        rw [finished', (scans_of_next next).2.finished, last]
      rw [toList_of_next next', List.map_cons, toList_of_rest_nil goes' rest', Token.shape, kind, text,
        Token.shape]
    · exact ih t.remaining (remaining_lt_of_next next) mem rfl

end Lexer

end HeaderDecl
