import HeaderDecl.Token.Basic
import HeaderDecl.Token.Scan

/-!
The lexer: a place in a text from which tokens are taken one at a time. It always ends, with an end
token or with an unclosed comment.
-/

namespace HeaderDecl

/-- A place in a text: bytes from the start, and line and column counted from one. -/
structure Place where
  offset : Nat
  line : Nat
  column : Nat
deriving DecidableEq, Repr

namespace Place

def start : Place := ⟨0, 1, 1⟩

/-- The place after a character. -/
def next (p : Place) (c : Char) : Place :=
  if c = '\n' then ⟨p.offset + c.utf8Size, p.line + 1, 1⟩
  else ⟨p.offset + c.utf8Size, p.line, p.column + 1⟩

/-- The place after some text. -/
def after (p : Place) (cs : List Char) : Place := cs.foldl next p

end Place

/-- A lexer over a file. The flags tell what separates the next token from the one before it. -/
structure Lexer where
  file : String
  source : List Char
  rest : List Char
  place : Place
  lineStart : Bool
  spaced : Bool
  finished : Bool
deriving Repr

namespace Lexer

def ofSource (file source : String) : Lexer :=
  ⟨file, source.toList, source.toList, .start, true, false, false⟩

def restart (s : Lexer) : Lexer :=
  ⟨s.file, s.source, s.source, .start, true, false, false⟩

/-- Moves past some characters. -/
def advance (s : Lexer) (n : Nat) : Lexer :=
  { s with rest := s.rest.drop n, place := s.place.after (s.rest.take n) }

/-- Skips what separates tokens. -/
def skipTrivia (s : Lexer) : Lexer :=
  match h : Trivia.scan s.rest with
  | none => s
  | some (t, n) =>
    have := Trivia.scan_pos h
    skipTrivia { s.advance n with lineStart := s.lineStart || t == .newline, spaced := true }
termination_by s.rest.length
decreasing_by
  have := List.length_pos_iff.2 this.2
  simp only [advance, List.length_drop]
  omega

/-- Whether nothing is lexed after a token of this kind. -/
def endsAt (kind : TokenKind) : Bool := kind == .eof || kind == .error .unclosedComment

/-- The next token, and the lexer after it. -/
def next (s : Lexer) : Option (Token × Lexer) :=
  if s.finished then none
  else
    let s := s.skipTrivia
    let (kind, n) := TokenKind.scan s.rest
    let after := s.advance n
    let token : Token := {
      kind
      text := String.ofList (s.rest.take n)
      span := .ofBounds s.place.offset after.place.offset
      loc := ⟨s.file, s.place.line, s.place.column⟩
      lineStart := s.lineStart
      spaced := s.spaced }
    some (token, { after with lineStart := false, spaced := false, finished := endsAt kind })

/-- A bound on the number of tokens left. -/
def remaining (s : Lexer) : Nat := if s.finished then 0 else s.rest.length + 1

theorem length_skipTrivia_le (s : Lexer) : s.skipTrivia.rest.length ≤ s.rest.length := by
  fun_induction skipTrivia s with
  | case1 s => exact Nat.le_refl _
  | case2 s t n h _ ih =>
    refine Nat.le_trans ih ?_
    simp [advance]

theorem remaining_lt_of_next {s t : Lexer} {token : Token} (h : s.next = some (token, t)) :
    t.remaining < s.remaining := by
  unfold next at h
  split at h
  · simp at h
  · rename_i hf
    simp only [Option.some.injEq, Prod.mk.injEq] at h
    obtain ⟨_, rfl⟩ := h
    have hle := length_skipTrivia_le s
    simp only [remaining, advance, hf]
    split
    · simp
    · rename_i he
      have hne : s.skipTrivia.rest ≠ [] := by
        intro h0
        simp [h0, TokenKind.scan, endsAt] at he
      have hpos := TokenKind.scan_pos hne
      have := List.length_pos_iff.2 hne
      simp only [List.length_drop, Bool.false_eq_true, if_false]
      omega

/-- Takes tokens up to and including the first one that satisfies `last`. -/
def takeThrough (last : Token → Bool) (s : Lexer) : List Token × Lexer :=
  match h : s.next with
  | none => ([], s)
  | some (token, t) =>
    have := remaining_lt_of_next h
    if last token then ([token], t)
    else
      let (tokens, t) := takeThrough last t
      (token :: tokens, t)
termination_by s.remaining

/-- All tokens left. -/
def toList (s : Lexer) : List Token := (s.takeThrough fun _ => false).1

end Lexer

/-- The tokens of a file. -/
def lex (file source : String) : List Token := (Lexer.ofSource file source).toList

end HeaderDecl
