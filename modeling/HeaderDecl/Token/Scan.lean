import HeaderDecl.Text.Blank
import HeaderDecl.Token.Kind

/-!
Finding one token, or one piece of what separates tokens, at the front of a text. Each function gives
a length in characters. A NUL character ends the text like its end does.
-/

namespace HeaderDecl

/-! ### Trivia -/

/-- What separates tokens. -/
inductive Trivia where
  | newline
  | blank
  | splice
  | lineComment
  | blockComment
deriving DecidableEq, Repr

/-- The length of a block comment's text and closer, if it is closed. -/
def commentLength : List Char → Option Nat
  | [] => none
  | c :: cs =>
    if c = '*' && cs.head? = some '/' then some 2
    else if c = '\x00' then none
    else (commentLength cs).map (· + 1)

/-- The piece of trivia that a text begins with, and its length. A line splice is a backslash before
a line break; a block comment that is never closed is no trivia. -/
def Trivia.scan : List Char → Option (Trivia × Nat)
  | '\n' :: _ => some (newline, 1)
  | '\\' :: '\n' :: _ => some (splice, 2)
  -- A carriage return and a line feed after it are one break.
  | '\\' :: '\r' :: cs => some (splice, if cs.head? = some '\n' then 3 else 2)
  | '/' :: '/' :: cs => some (lineComment, 2 + (cs.takeWhile fun c => c ≠ '\n' && c ≠ '\x00').length)
  | '/' :: '*' :: cs => (commentLength cs).map fun n => (blockComment, 2 + n)
  | c :: _ => if Text.isBlank c then some (blank, 1) else none
  | [] => none

theorem Trivia.scan_pos {cs : List Char} {t : Trivia} {n : Nat} (h : Trivia.scan cs = some (t, n)) :
    0 < n ∧ cs ≠ [] := by
  unfold Trivia.scan at h
  split at h <;> simp only [Option.some.injEq, Prod.mk.injEq, Option.map_eq_some_iff, reduceCtorEq,
    Option.ite_none_right_eq_some] at h
  · exact ⟨by omega, by simp⟩
  · exact ⟨by omega, by simp⟩
  · exact ⟨by split at h <;> omega, by simp⟩
  · exact ⟨by omega, by simp⟩
  · obtain ⟨m, _, _, rfl⟩ := h
    exact ⟨by omega, by simp⟩
  · exact ⟨by omega, by simp⟩

/-! ### Tokens -/

def isIdentifierStart (c : Char) : Bool := c.isAlpha || c == '_' || c == '$'

def isIdentifierContinue (c : Char) : Bool := c.isAlphanum || c == '_' || c == '$'

/-- The spellings of punctuators. A longer one comes before its beginnings. -/
def Punct.spellings : List (List Char × Punct) := [
  (['.', '.', '.'], .ellipsis), (['<', '<', '='], .opAssign),
  ([':', ':'], .colonColon), (['-', '>'], .arrow), (['-', '-'], .minusMinus),
  (['-', '='], .opAssign), (['+', '+'], .plusPlus), (['+', '='], .opAssign),
  (['&', '&'], .ampAmp), (['&', '='], .opAssign), (['|', '|'], .pipePipe), (['|', '='], .opAssign),
  (['*', '='], .opAssign), (['/', '='], .opAssign), (['%', '='], .opAssign), (['^', '='], .opAssign),
  (['!', '='], .notEq), (['=', '='], .eqEq), (['<', '='], .lessEq), (['<', '<'], .lessLess),
  (['>', '='], .greaterEq), (['#', '#'], .hashHash),
  (['('], .lparen), ([')'], .rparen), (['\x7b'], .lbrace), (['\x7d'], .rbrace),
  (['['], .lbracket), ([']'], .rbracket), ([';'], .semicolon), ([','], .comma), (['?'], .question),
  (['~'], .tilde), ([':'], .colon), (['.'], .dot), (['-'], .minus), (['+'], .plus), (['&'], .amp),
  (['|'], .pipe), (['*'], .star), (['/'], .slash), (['%'], .percent), (['^'], .caret), (['!'], .bang),
  (['='], .eq), (['<'], .less), (['>'], .greater), (['#'], .hash)]

/-- The longest punctuator that a text begins with. -/
def Punct.scan (cs : List Char) : Option (List Char × Punct) :=
  spellings.find? fun s => s.1.isPrefixOf cs

/-- The length of a number after its first character: digits, letters, points, separators, and a
sign after an exponent letter. -/
def numberLength : List Char → Nat
  | [] => 0
  | c :: cs =>
    if c.isAlphanum || c == '.' || c == '_' || c == '\'' then
      match cs with
      | [] => 1
      | s :: r =>
        if (c == 'e' || c == 'E' || c == 'p' || c == 'P') && (s == '+' || s == '-') then
          2 + numberLength r
        else 1 + numberLength (s :: r)
    else 0

/-- Whether a literal is closed, and its length after the opening quote. A line break ends it unless
a backslash stands before it. -/
def quotedLength (quote : Char) : Bool → List Char → Bool × Nat
  | _, [] => (false, 0)
  | escaped, c :: cs =>
    if c = '\x00' || (!escaped && c = '\n') then (false, 0)
    else if !escaped && c = quote then (true, 1)
    else
      let (closed, n) := quotedLength quote (!escaped && c = '\\') cs
      (closed, n + 1)

/-- The kind of a literal with the given quote. -/
def literalKind (quote : Char) (closed : Bool) : TokenKind :=
  if quote = '"' then if closed then .string else .error .unclosedString
  else if closed then .charLiteral else .error .unclosedChar

/-- Scans a literal from its opening quote on. -/
def scanQuoted (quote : Char) (cs : List Char) : TokenKind × Nat :=
  let (closed, n) := quotedLength quote false cs
  (literalKind quote closed, n + 1)

def isQuote (c : Char) : Bool := c == '"' || c == '\''

/-- The prefixes that tell the encoding of a literal, as in `u8"text"`. -/
def encodings : List (List Char) := [['L'], ['u'], ['U'], ['u', '8']]

/-- The kind of a word that is not an encoding. -/
def wordKind (word : List Char) : TokenKind :=
  match Keyword.ofWord? (String.ofList word) with
  | some k => .kw k
  | none => .identifier

/-- Scans a word, or a literal with an encoding before its quote. -/
def scanWord (cs : List Char) : TokenKind × Nat :=
  let word := cs.takeWhile isIdentifierContinue
  match cs.dropWhile isIdentifierContinue with
  | q :: r =>
    if encodings.contains word && isQuote q then
      let (kind, n) := scanQuoted q r
      (kind, word.length + n)
    else (wordKind word, word.length)
  | [] => (wordKind word, word.length)

/-- The kind and the length of the token that a text without leading trivia begins with. -/
def TokenKind.scan : List Char → TokenKind × Nat
  | [] => (.eof, 0)
  | c :: cs =>
    if c = '\x00' then (.eof, 1)
    else if c = '/' && cs.head? = some '*' then
      -- A closed comment is trivia, so this one is open. A NUL that ends it belongs to it.
      (.error .unclosedComment, min (2 + (cs.takeWhile (· ≠ '\x00')).length) (1 + cs.length))
    else if c.isDigit || (c = '.' && cs.head?.any Char.isDigit) then (.number, 1 + numberLength cs)
    else if isQuote c then scanQuoted c cs
    -- A literal with an encoding begins like a word.
    else if isIdentifierStart c then scanWord (c :: cs)
    else match Punct.scan (c :: cs) with
      | some (spelling, p) => (.punct p, spelling.length)
      | none => (.unknown, 1)

theorem Punct.length_pos_of_scan {cs s : List Char} {p : Punct} (h : Punct.scan cs = some (s, p)) :
    0 < s.length := by
  have all : ∀ x ∈ spellings, 0 < x.1.length := by decide
  exact all (s, p) (List.mem_of_find?_eq_some h)

theorem isIdentifierContinue_of_start {c : Char} (h : isIdentifierStart c = true) :
    isIdentifierContinue c = true := by
  simp only [isIdentifierStart, isIdentifierContinue, Char.isAlphanum, Bool.or_eq_true] at *
  rcases h with (h | h) | h <;> simp [h]

theorem scanWord_pos {c : Char} (cs : List Char) (h : isIdentifierStart c = true) :
    0 < (scanWord (c :: cs)).2 := by
  have hw : 0 < ((c :: cs).takeWhile isIdentifierContinue).length := by
    simp [isIdentifierContinue_of_start h]
  unfold scanWord
  split
  · dsimp only
    split <;> dsimp only <;> omega
  · exact hw

/-- Only the end of the text is an empty token. -/
theorem TokenKind.scan_pos {cs : List Char} (h : cs ≠ []) : 0 < (TokenKind.scan cs).2 := by
  cases cs with
  | nil => exact absurd rfl h
  | cons c cs =>
    simp only [TokenKind.scan]
    split
    · simp
    split
    · dsimp only; omega
    split
    · dsimp only; omega
    split
    · simp [scanQuoted]
    split
    · exact scanWord_pos cs ‹_›
    split
    · exact Punct.length_pos_of_scan ‹_›
    · simp

end HeaderDecl
