/-!
Positions in source text: byte ranges, and line and column within a file.
-/

namespace HeaderDecl

/-- A range of bytes. Its length saturates at the greatest 32-bit number. -/
structure Span where
  lo : Nat
  len : Nat
deriving DecidableEq, Repr

namespace Span

def maxLen : Nat := UInt32.size - 1

def ofBounds (lo hi : Nat) : Span := ⟨lo, min (hi - lo) maxLen⟩

def hi (s : Span) : Nat := s.lo + s.len

/-- The range that covers both ranges and everything between them. -/
def cover (s t : Span) : Span := ofBounds (min s.lo t.lo) (max s.hi t.hi)

/-- Drops the characters that lie within the first `n` bytes. -/
def dropBytes : Nat → List Char → List Char
  | _, [] => []
  | 0, cs => cs
  | n + 1, c :: cs => dropBytes (n + 1 - c.utf8Size) cs

/-- Takes the characters that lie within the first `n` bytes. -/
def takeBytes : Nat → List Char → List Char
  | _, [] => []
  | 0, _ => []
  | n + 1, c :: cs => c :: takeBytes (n + 1 - c.utf8Size) cs

/-- The part of a text at the range. -/
def substr (s : Span) (text : String) : String :=
  String.ofList (takeBytes s.len (dropBytes s.lo text.toList))

def render (s : Span) : String := s!"{s.lo}..{s.hi}"

def debug (s : Span) : String := s!"Span({s.render}, len: {s.len})"

end Span

/-- A line and a column, both counted from one. Built-in text lies at `0:0`. -/
structure Position where
  line : Nat
  column : Nat
deriving DecidableEq, Repr

def Position.render (p : Position) : String := s!"{p.line}:{p.column}"

/-- A position in some file. -/
structure Location where
  file : String
  line : Nat
  column : Nat
deriving DecidableEq, Repr

namespace Location

/-- The location of text that stands in no file. -/
def synthetic : Location := ⟨"<built-in>", 0, 0⟩

def startOf (file : String) : Location := ⟨file, 1, 1⟩

def position (l : Location) : Position := ⟨l.line, l.column⟩

def render (l : Location) : String := s!"{l.file}:{l.line}:{l.column}"

end Location

end HeaderDecl
