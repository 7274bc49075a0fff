import HeaderDecl.Source.Location
import HeaderDecl.Text.Quoted
import HeaderDecl.Token.Kind

/-!
Tokens, and the text that a run of tokens spells.
-/

namespace HeaderDecl

/-- A token with its place. `lineStart` marks the first token of a logical line, and `spaced` one
that has white space or a comment before it. -/
structure Token where
  kind : TokenKind
  text : String
  span : Span
  loc : Location
  lineStart : Bool
  spaced : Bool
deriving DecidableEq, Repr

namespace Token

/-- A token that stands in no file. -/
def synthetic (kind : TokenKind) (text : String) : Token :=
  ⟨kind, text, ⟨0, 0⟩, .synthetic, false, false⟩

def eofAt (loc : Location) : Token := ⟨.eof, "", ⟨0, 0⟩, loc, false, false⟩

def isEof (t : Token) : Bool := t.kind == .eof

def isWord (t : Token) : Bool := t.kind.isWord

def is (t : Token) (p : Punct) : Bool := t.kind == .punct p

/-- The token without its place in a file. -/
def detach (t : Token) : Token := { t with loc := .synthetic }

def debug (t : Token) : String :=
  s!"Token({t.kind.name}, {Text.quote t.text}, {t.span.render})"

/-- The text of a token with a space before it if the source had one there. -/
def spaceAndText (t : Token) : String := if t.spaced then " " ++ t.text else t.text

end Token

/-- Spells tokens as source text, separated where the source had white space between them. -/
def spell : List Token → String
  | [] => ""
  | t :: ts => t.text ++ String.join (ts.map Token.spaceAndText)

end HeaderDecl
