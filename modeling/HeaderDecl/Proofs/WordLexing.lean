import HeaderDecl.Proofs.TokenTiling
import Mathlib.Data.List.Forall2

/-!
Words and the texts that spell them: white space may stand anywhere between words, and has to where one
would otherwise go on into the next. The lexer gives the words back.
-/

namespace HeaderDecl

/-! ### Words -/

/-- An identifier that is no keyword. -/
structure Identifier where
  text : String
  starts : text.toList.head?.any isIdentifierStart = true
  goes : text.toList.all isIdentifierContinue = true
  free : Keyword.ofWord? text = none
deriving DecidableEq, Repr

/-- Words of a declaration. A number is written in decimal. -/
inductive Word where
  | kw (k : Keyword)
  | punct (p : Punct)
  | name (x : Identifier)
  | number (n : Nat)
deriving DecidableEq, Repr

/-- The first spelling of a keyword. -/
def Keyword.spelling (k : Keyword) : String :=
  ((spellings.find? fun s => s.2 == k).map Prod.fst).getD ""

/-- The first spelling of a punctuator. -/
def Punct.spelling (p : Punct) : List Char :=
  ((spellings.find? fun s => s.2 == p).map Prod.fst).getD []

namespace Word

def kind : Word → TokenKind
  | kw k => .kw k
  | punct p => .punct p
  | name _ => .identifier
  | number _ => .number

def chars : Word → List Char
  | kw k => k.spelling.toList
  | punct p => p.spelling
  | name x => x.text.toList
  | number n => Nat.toDigits 10 n

/-- Whether a word that has the given character right behind it may be read as more than the word. -/
def goesOn (c : Char) : Word → Bool
  | kw _ | name _ => isIdentifierContinue c || isQuote c
  | number _ => isIdentifierContinue c || c == '.' || c == '\''
  | punct p => (Punct.spellings.any fun s => (p.spelling ++ [c]).isPrefixOf s.1) ||
      (p == .slash && (c == '/' || c == '*')) || (p == .dot && c.isDigit)

end Word

/-- A text that spells some words, with white space before each and behind the last. -/
inductive Written : List Word → List Char → Prop
  | nil {gap : List Char} (blank : ∀ c ∈ gap, Text.isBlank c = true) : Written [] gap
  | cons {gap after : List Char} {word : Word} {words : List Word}
    (blank : ∀ c ∈ gap, Text.isBlank c = true) (ends : ∀ c ∈ after.head?, word.goesOn c = false)
    (rest : Written words after) : Written (word :: words) (gap ++ (word.chars ++ after))

/-- A token that is some word. -/
def Token.Spells (t : Token) (w : Word) : Prop := t.kind = w.kind ∧ t.text = String.ofList w.chars

/-- Tokens that are some words in turn. -/
def Spelled : List Token → List Word → Prop := List.Forall₂ Token.Spells

theorem Spelled.exists_append {ts : List Token} {words more : List Word}
    (h : Spelled ts (words ++ more)) :
    ∃ front back, ts = front ++ back ∧ Spelled front words ∧ Spelled back more :=
  ⟨ts.take words.length, ts.drop words.length, (List.take_append_drop _ _).symm,
    List.forall₂_take_append ts words more h, List.forall₂_drop_append ts words more h⟩

/-! ### Scanning a word -/

section Scanning

variable {w : Word} {after : List Char}

theorem takeWhile_append_of_stops {p : Char → Bool} {cs : List Char} (all : ∀ c ∈ cs, p c = true)
    (stops : ∀ c ∈ after.head?, p c = false) :
    (cs ++ after).takeWhile p = cs ∧ (cs ++ after).dropWhile p = after := by
  rw [List.takeWhile_append_of_pos all, List.dropWhile_append_of_pos all]
  cases after with
  | nil => simp
  | cons c after =>
    have stop := stops c rfl
    simp [stop]

theorem scanWord_of_stops {cs : List Char} (all : ∀ c ∈ cs, isIdentifierContinue c = true)
    (stops : ∀ c ∈ after.head?, (isIdentifierContinue c || isQuote c) = false) :
    scanWord (cs ++ after) = (wordKind cs, cs.length) := by
  have ends : ∀ c ∈ after.head?, isIdentifierContinue c = false := fun c first =>
    (Bool.or_eq_false_iff.1 (stops c first)).1
  obtain ⟨taken, dropped⟩ := takeWhile_append_of_stops all ends
  unfold scanWord
  rw [taken, dropped]
  cases after with
  | nil => rfl
  | cons c after =>
    have unquoted := (Bool.or_eq_false_iff.1 (stops c rfl)).2
    simp [unquoted]

theorem numberLength_of_digits {cs : List Char} (all : ∀ c ∈ cs, c.isDigit = true)
    (stops : ∀ c ∈ after.head?, (isIdentifierContinue c || c == '.' || c == '\'') = false) :
    numberLength (cs ++ after) = cs.length := by
  induction cs with
  | nil =>
    cases after with
    | nil => rfl
    | cons c after =>
      have stop : (c.isAlphanum || c == '.' || c == '_' || c == '\'') = false := by
        have := stops c rfl
        simp_all [isIdentifierContinue]
      rw [List.nil_append, numberLength.eq_def]
      simp only [stop, Bool.false_eq_true, if_false, List.length_nil]
  | cons c cs ih =>
    have digit := all c (by simp)
    have notExponent : (c == 'e' || c == 'E' || c == 'p' || c == 'P') = false := by
      by_contra exponent
      simp only [Bool.not_eq_false, Bool.or_eq_true, beq_iff_eq] at exponent
      rcases exponent with ((rfl | rfl) | rfl) | rfl <;> exact absurd digit (by decide)
    have rest := ih fun d mem => all d (by simp [mem])
    rw [List.cons_append, numberLength.eq_def]
    simp only [Char.isAlphanum, digit, Bool.or_true, Bool.true_or, if_true, notExponent,
      Bool.false_and, Bool.false_eq_true, if_false]
    -- The next character is looked at for the sign of an exponent, which no digit asks for.
    split
    · rename_i none_
      simp_all
    · rename_i some_
      rw [← some_, rest, List.length_cons, Nat.add_comm]

theorem isAlpha_iff {c : Char} : c.isAlpha = true ↔
    65 ≤ c.toNat ∧ c.toNat ≤ 90 ∨ 97 ≤ c.toNat ∧ c.toNat ≤ 122 := by
  have letter : c.isAlpha = (decide ('A'.val ≤ c.val ∧ c.val ≤ 'Z'.val) ||
      (decide ('a'.val ≤ c.val) && decide (c.val ≤ 'z'.val))) := rfl
  rw [letter]
  simp only [Bool.or_eq_true, Bool.and_eq_true, decide_eq_true_eq, UInt32.le_iff_toNat_le]
  rfl

theorem not_digit_of_start {c : Char} (h : isIdentifierStart c = true) : c.isDigit = false := by
  by_contra digit
  simp only [isIdentifierStart, Bool.or_eq_true, beq_iff_eq, isAlpha_iff, Bool.not_eq_false,
    Char.isDigit_iff_toNat, Char.reduceToNat] at h digit
  rcases h with (h | rfl) | rfl
  · omega
  all_goals exact absurd digit (by decide)

theorem scan_word {cs : List Char} (starts : cs.head?.any isIdentifierStart = true)
    (all : cs.all isIdentifierContinue = true)
    (stops : ∀ c ∈ after.head?, (isIdentifierContinue c || isQuote c) = false) :
    TokenKind.scan (cs ++ after) = (wordKind cs, cs.length) := by
  cases cs with
  | nil => cases starts
  | cons c cs =>
    have start : isIdentifierStart c = true := starts
    have notNul : c ≠ '\x00' := by rintro rfl; exact absurd start (by decide)
    have notSlash : c ≠ '/' := by rintro rfl; exact absurd start (by decide)
    have notDot : c ≠ '.' := by rintro rfl; exact absurd start (by decide)
    have notQuote : isQuote c = false := by
      by_contra quote
      simp only [isQuote, Bool.not_eq_false, Bool.or_eq_true, beq_iff_eq] at quote
      rcases quote with rfl | rfl <;> exact absurd start (by decide)
    rw [List.cons_append, TokenKind.scan]
    simp only [notNul, notSlash, notDot, not_digit_of_start start, notQuote, start, if_true,
      decide_false, Bool.false_and, Bool.or_false, Bool.false_eq_true, if_false]
    exact @scanWord_of_stops _ (c :: cs) (List.all_eq_true.1 all) stops

theorem scan_digits {cs : List Char} (some_ : cs ≠ []) (all : ∀ c ∈ cs, c.isDigit = true)
    (stops : ∀ c ∈ after.head?, (isIdentifierContinue c || c == '.' || c == '\'') = false) :
    TokenKind.scan (cs ++ after) = (.number, cs.length) := by
  cases cs with
  | nil => exact absurd rfl some_
  | cons c cs =>
    have digit : c.isDigit = true := all c (by simp)
    have notNul : c ≠ '\x00' := by rintro rfl; exact absurd digit (by decide)
    have notSlash : c ≠ '/' := by rintro rfl; exact absurd digit (by decide)
    have rest := numberLength_of_digits (fun d mem => all d (List.mem_cons_of_mem c mem)) stops
    rw [List.cons_append, TokenKind.scan]
    simp only [notNul, notSlash, digit, rest, Bool.true_or, if_true, decide_false, Bool.false_and,
      Bool.false_eq_true, if_false, List.length_cons, Nat.add_comm]

/-- A character that no word but a punctuator begins with. -/
def beginsPunct (c : Char) : Bool :=
  c != nul && !c.isDigit && !isQuote c && !isIdentifierStart c && !Text.isBlank c && c != '\\'

theorem Punct.beginsPunct_spelling (p : Punct) : p.spelling.head?.any beginsPunct = true := by
  cases p <;> decide

theorem Punct.slash_spelling (p : Punct) :
    p = .slash ∧ p.spelling = ['/'] ∨ p.spelling.head? ≠ some '/' := by
  cases p <;> decide

theorem Punct.dot_spelling (p : Punct) :
    p = .dot ∧ p.spelling = ['.'] ∨
      (p.spelling.head? = some '.' → ∃ c ∈ p.spelling[1]?, c.isDigit = false) := by
  cases p
  case dot => exact .inl ⟨rfl, rfl⟩
  case ellipsis => exact .inr fun _ => ⟨'.', rfl, rfl⟩
  all_goals exact .inr fun head => absurd head (by decide)

/-- Those spellings that are tried before the one of a punctuator are no beginnings of it. -/
theorem Punct.spellings_eq (p : Punct) : ∃ before later,
    spellings = before ++ (p.spelling, p) :: later ∧ ∀ s ∈ before, ¬s.1 <+: p.spelling := by
  refine ⟨spellings.takeWhile (· ≠ (p.spelling, p)),
    (spellings.dropWhile (· ≠ (p.spelling, p))).tail, ?_, ?_⟩
  · cases p <;> decide
  · cases p <;> decide

theorem Punct.scan_of_stops (p : Punct)
    (stops : ∀ c ∈ after.head?, (Word.punct p).goesOn c = false) :
    Punct.scan (p.spelling ++ after) = some (p.spelling, p) := by
  obtain ⟨before, later, eq, shorter⟩ := p.spellings_eq
  have fits : p.spelling.isPrefixOf (p.spelling ++ after) = true :=
    List.isPrefixOf_iff_prefix.2 (List.prefix_append _ _)
  refine List.find?_eq_some_iff_append.2 ⟨fits, before, later, eq, ?_⟩
  intro s mem
  rw [Bool.not_eq_true', Bool.eq_false_iff]
  intro earlier
  rcases List.prefix_or_prefix_of_prefix (List.isPrefixOf_iff_prefix.1 earlier)
    (List.prefix_append p.spelling after) with short | ⟨more, long⟩
  · exact shorter s mem short
  · -- A longer spelling that fits goes on with the character behind the word.
    cases more with
    | nil =>
      rw [List.append_nil] at long
      exact shorter s mem (long ▸ List.prefix_rfl)
    | cons c more =>
      have rest : c :: more <+: after := by
        rw [← List.prefix_append_right_inj p.spelling, long]
        exact List.isPrefixOf_iff_prefix.1 earlier
      have first : c ∈ after.head? := by
        obtain ⟨last, rfl⟩ := rest
        rfl
      have goes : (Word.punct p).goesOn c = true := by
        simp only [Word.goesOn, Bool.or_eq_true, List.any_eq_true]
        refine .inl (.inl ⟨s, ?_, ?_⟩)
        · rw [eq]
          exact List.mem_append_left _ mem
        · rw [List.isPrefixOf_iff_prefix, ← long]
          exact ⟨more, by simp⟩
      rw [stops c first] at goes
      cases goes

theorem scan_punct (p : Punct) (stops : ∀ c ∈ after.head?, (Word.punct p).goesOn c = false) :
    TokenKind.scan (p.spelling ++ after) = (.punct p, p.spelling.length) := by
  have scanned := p.scan_of_stops stops
  have begins := p.beginsPunct_spelling
  have slash := p.slash_spelling
  have dot := p.dot_spelling
  cases spelling : p.spelling with
  | nil =>
    rw [spelling] at begins
    cases begins
  | cons c cs =>
    rw [spelling] at scanned begins slash dot
    simp only [beginsPunct, List.head?_cons, Option.any_some, Bool.and_eq_true, bne_iff_ne, ne_eq,
      Bool.not_eq_true', nul] at begins
    obtain ⟨⟨⟨⟨⟨notNul, notDigit⟩, notQuote⟩, notStart⟩, -⟩, -⟩ := begins
    -- A slash could open a comment, and a dot a number, if what is behind them did not tell otherwise.
    have noComment : (c = '/' && (cs ++ after).head? = some '*') = false := by
      rw [Bool.eq_false_iff]
      intro comment
      simp only [Bool.and_eq_true, decide_eq_true_eq] at comment
      obtain ⟨rfl, star⟩ := comment
      rcases slash with ⟨rfl, alone⟩ | other
      · cases alone
        have := stops '*' star
        exact absurd this (by decide)
      · exact other rfl
    have noNumber : (c = '.' && (cs ++ after).head?.any Char.isDigit) = false := by
      rw [Bool.eq_false_iff]
      intro number
      simp only [Bool.and_eq_true, decide_eq_true_eq] at number
      obtain ⟨rfl, digit⟩ := number
      rcases dot with ⟨rfl, alone⟩ | other
      · cases alone
        obtain ⟨d, first, isDigit⟩ := (Option.any_eq_true _ _).1 digit
        have := stops d first
        simp [Word.goesOn, isDigit] at this
      · obtain ⟨d, second, notDigit⟩ := other rfl
        cases cs with
        | nil => cases second
        | cons e cs =>
          cases second
          simp [notDigit] at digit
    rw [List.cons_append] at scanned ⊢
    rw [TokenKind.scan]
    simp only [notNul, noComment, notDigit, noNumber, notQuote, notStart, scanned,
      Bool.or_false, Bool.false_eq_true, if_false]

theorem Keyword.wordKind_spelling (k : Keyword) : wordKind k.spelling.toList = .kw k := by
  cases k <;> decide +kernel

theorem Keyword.spelling_isWord (k : Keyword) :
    k.spelling.toList.head?.any isIdentifierStart = true ∧
      k.spelling.toList.all isIdentifierContinue = true := by
  cases k <;> decide +kernel

theorem toDigits_ne_nil (n : Nat) : Nat.toDigits 10 n ≠ [] := by
  intro none_
  have len := Nat.length_toDigits_pos (b := 10) (n := n)
  rw [none_] at len
  cases len

/-- The token at the front of a text is the word that the text begins with. -/
theorem Word.scan (w : Word) (stops : ∀ c ∈ after.head?, w.goesOn c = false) :
    TokenKind.scan (w.chars ++ after) = (w.kind, w.chars.length) := by
  cases w with
  | kw k =>
    have word := scan_word k.spelling_isWord.1 k.spelling_isWord.2 stops
    rwa [k.wordKind_spelling] at word
  | punct p => exact scan_punct p stops
  | name x =>
    have word := scan_word x.starts x.goes stops
    rwa [wordKind, String.ofList_toList, x.free] at word
  | number n =>
    exact scan_digits (toDigits_ne_nil n) (fun c => Nat.isDigit_of_mem_toDigits (by decide) (by decide)) stops

theorem not_blank_of_continue {c : Char} (h : isIdentifierContinue c = true) :
    Text.isBlank c = false := by
  have small : c.toNat < 128 ∧ 32 < c.toNat := by
    simp only [isIdentifierContinue, Char.isAlphanum, Bool.or_eq_true, beq_iff_eq, isAlpha_iff,
      Char.isDigit_iff_toNat, Char.reduceToNat] at h
    rcases h with ((h | h) | rfl) | rfl
    · omega
    · omega
    all_goals decide
  simp only [Text.isBlank, Bool.or_eq_false_iff, Bool.and_eq_false_iff, decide_eq_false_iff_not,
    beq_eq_false_iff_ne]
  omega

theorem trivia_scan_eq_none {c : Char} {cs : List Char} (notBlank : Text.isBlank c = false)
    (notSplice : c ≠ '\\') (slash : c = '/' → ∀ d ∈ cs.head?, d ≠ '/' ∧ d ≠ '*') :
    Trivia.scan (c :: cs) = none := by
  rw [Trivia.scan.eq_def]
  split <;> simp_all [Text.isBlank]

theorem trivia_scan_word {cs : List Char} (some_ : cs ≠ [])
    (all : ∀ c ∈ cs, isIdentifierContinue c = true) : Trivia.scan (cs ++ after) = none := by
  cases cs with
  | nil => exact absurd rfl some_
  | cons c cs =>
    have goes := all c (by simp)
    have notSplice : c ≠ '\\' := by rintro rfl; exact absurd goes (by decide)
    have notSlash : c ≠ '/' := by rintro rfl; exact absurd goes (by decide)
    exact trivia_scan_eq_none (not_blank_of_continue goes) notSplice fun slash =>
      absurd slash notSlash

theorem ne_nil_of_starts {cs : List Char} (starts : cs.head?.any isIdentifierStart = true) :
    cs ≠ [] := by
  rintro rfl
  cases starts

/-- No trivia begins like a word. -/
theorem Word.trivia_scan (w : Word) (stops : ∀ c ∈ after.head?, w.goesOn c = false) :
    Trivia.scan (w.chars ++ after) = none := by
  cases w with
  | kw k =>
    exact trivia_scan_word (ne_nil_of_starts k.spelling_isWord.1)
      (List.all_eq_true.1 k.spelling_isWord.2)
  | punct p =>
    have begins := p.beginsPunct_spelling
    have slash := p.slash_spelling
    cases spelling : p.spelling with
    | nil =>
      rw [spelling] at begins
      cases begins
    | cons c cs =>
      rw [spelling] at begins slash
      simp only [beginsPunct, List.head?_cons, Option.any_some, Bool.and_eq_true, bne_iff_ne, ne_eq,
        Bool.not_eq_true'] at begins
      obtain ⟨⟨-, notBlank⟩, notSplice⟩ := begins
      rw [chars, spelling, List.cons_append]
      refine trivia_scan_eq_none notBlank notSplice ?_
      rintro rfl d first
      rcases slash with ⟨rfl, alone⟩ | other
      · cases alone
        have := stops d first
        constructor
        · rintro rfl
          exact absurd this (by decide)
        · rintro rfl
          exact absurd this (by decide)
      · exact absurd rfl other
  | name x => exact trivia_scan_word (ne_nil_of_starts x.starts) (List.all_eq_true.1 x.goes)
  | number n =>
    refine trivia_scan_word (toDigits_ne_nil n) fun c mem => ?_
    have digit : c.isDigit = true := Nat.isDigit_of_mem_toDigits (by decide) (by decide) mem
    simp [isIdentifierContinue, Char.isAlphanum, digit]

end Scanning

/-! ### Lexing words -/

theorem trivia_scan_blank {c : Char} {after : List Char} (blank : Text.isBlank c = true) :
    ∃ t, Trivia.scan (c :: after) = some (t, 1) := by
  by_cases newline : c = '\n'
  · subst newline
    exact ⟨.newline, rfl⟩
  · have notSplice : c ≠ '\\' := by rintro rfl; exact absurd blank (by decide)
    have notComment : c ≠ '/' := by rintro rfl; exact absurd blank (by decide)
    refine ⟨.blank, ?_⟩
    rw [Trivia.scan.eq_def]
    split <;> simp_all

namespace Lexer

theorem rest_skipTrivia {s : Lexer} {gap after : List Char} (split : s.rest = gap ++ after)
    (blank : ∀ c ∈ gap, Text.isBlank c = true) (ends : Trivia.scan after = none) :
    s.skipTrivia.rest = after ∧ s.skipTrivia.finished = s.finished := by
  induction gap generalizing s with
  | nil =>
    rw [List.nil_append] at split
    subst split
    rw [skipTrivia.eq_def]
    split <;> simp_all
  | cons c gap ih =>
    obtain ⟨t, scanned⟩ := @trivia_scan_blank c (gap ++ after) (blank c (by simp))
    rw [skipTrivia.eq_def]
    split
    · simp_all
    · rename_i t' n found
      rw [split, List.cons_append, scanned] at found
      cases found
      exact ih (by simp [advance, split]) fun d mem => blank d (List.mem_cons_of_mem c mem)

theorem toList_of_written {s : Lexer} {words : List Word} (goes : s.finished = false)
    (h : Written words s.rest) :
    ∃ ts eof, s.toList = ts ++ [eof] ∧ Spelled ts words ∧ eof.kind = .eof := by
  generalize text : s.rest = cs at h
  -- A step of the lexer skips the gap in front of a word and takes the word.
  induction h generalizing s with
  | @nil gap blank =>
    obtain ⟨rest, finished⟩ := rest_skipTrivia (text.trans (List.append_nil gap).symm) blank rfl
    cases next : s.next with
    | none =>
      rw [next_eq_none.1 next] at goes
      cases goes
    | some pair =>
      obtain ⟨token, t⟩ := pair
      have found := next
      simp only [Lexer.next, goes, Bool.false_eq_true, if_false, rest, TokenKind.scan,
        Option.some.injEq, Prod.mk.injEq] at found
      obtain ⟨rfl, rfl⟩ := found
      exact ⟨[], _, (toList_of_next next).trans (congrArg _ (toList_of_finished rfl)), .nil, rfl⟩
  | @cons gap after word words blank ends rest ih =>
    obtain ⟨rest, finished⟩ := rest_skipTrivia text blank (word.trivia_scan ends)
    cases next : s.next with
    | none =>
      rw [next_eq_none.1 next] at goes
      cases goes
    | some pair =>
      obtain ⟨token, t⟩ := pair
      have found := next
      simp only [Lexer.next, goes, Bool.false_eq_true, if_false, rest, word.scan ends,
        Option.some.injEq, Prod.mk.injEq] at found
      obtain ⟨rfl, behind⟩ := found
      have live : t.finished = false := by
        rw [← behind]
        cases word <;> rfl
      have left : t.rest = after := by
        rw [← behind]
        simp [advance, rest]
      obtain ⟨ts, eof, split, spelled, isEof⟩ := ih live left
      have whole := toList_of_next next
      rw [split] at whole
      refine ⟨_ :: ts, eof, whole, .cons ⟨rfl, ?_⟩ spelled, isEof⟩
      rw [List.take_left]

end Lexer

/-- The lexer gives the words of a text and then an end token. -/
theorem lex_of_written (file : String) {source : String} {words : List Word}
    (h : Written words source.toList) :
    ∃ ts eof, lex file source = ts ++ [eof] ∧ Spelled ts words ∧ eof.kind = .eof :=
  Lexer.toList_of_written (s := Lexer.ofSource file source) rfl h

/-- The text with a blank in front of each word. -/
def spaced (words : List Word) : List Char := words.flatMap fun w => ' ' :: w.chars

theorem Word.goesOn_blank (w : Word) : w.goesOn ' ' = false := by
  cases w with
  | kw k => rfl
  | punct p => cases p <;> decide
  | name x => rfl
  | number n => rfl

theorem written_spaced (words : List Word) : Written words (spaced words) := by
  induction words with
  | nil => exact .nil (fun c mem => by cases mem)
  | cons w words ih =>
    have blank : ∀ c ∈ [' '], Text.isBlank c = true := by simp [Text.isBlank]
    refine @Written.cons [' '] (spaced words) w words blank ?_ ih
    intro c first
    cases words with
    | nil => cases first
    | cons v words =>
      cases first
      exact w.goesOn_blank

end HeaderDecl
