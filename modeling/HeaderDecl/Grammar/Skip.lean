import HeaderDecl.Token.Basic

/-!
What is skipped rather than read: initialisers, bodies, attributes, and declarations that failed. Each
rule picks the first of the tokens ahead. Brackets nest; the tokens end before the end token.
-/

namespace HeaderDecl

namespace Token

def isOpening (t : Token) : Bool := t.is .lparen || t.is .lbracket || t.is .lbrace

def isClosing (t : Token) : Bool := t.is .rparen || t.is .rbracket || t.is .rbrace

def isKw (t : Token) (k : Keyword) : Bool := t.kind == .kw k

/-- Whether a token is an identifier with one of the given spellings. -/
def isWordIn (t : Token) (words : List String) : Bool :=
  t.kind == .identifier && words.contains t.text

end Token

namespace Grammar

/-- How many brackets are open behind a token. -/
def depthAfter (depth : Nat) (t : Token) : Nat :=
  if t.isOpening then depth + 1 else if t.isClosing then depth - 1 else depth

/-- The tokens before the first of some punctuators that stands outside of brackets, or before a bracket
that closes an outer level. -/
def tokensUntil (stops : List Punct) : Nat → List Token → List Token
  | _, [] => []
  | depth, t :: ts =>
    if depth = 0 && (t.isClosing || stops.any t.is) then []
    else t :: tokensUntil stops (depthAfter depth t) ts

/-- The bracketed group that begins with the first token. A first token that is no bracket is a group by
itself. -/
def groupTokens : Nat → List Token → List Token
  | _, [] => []
  | depth, t :: ts =>
    t :: if depthAfter depth t = 0 then [] else groupTokens (depthAfter depth t) ts

/-- Whether declarators may follow the closing brace of a skipped definition. -/
def mayDeclare (ts : List Token) : Bool :=
  ts.head?.any fun t =>
    t.is .semicolon || ((t.kind == .identifier || t.is .star || t.is .amp) && !t.lineStart)

/-- The tokens of a declaration: up to its semicolon, or up to a closing brace that no declarators
follow. A bracket that closes an outer level ends it too. -/
def declarationTokens : Nat → List Token → List Token
  | _, [] => []
  | depth, t :: ts =>
    if depth = 0 && t.isClosing then []
    else if depth = 0 && t.is .semicolon then [t]
    else if depth = 1 && t.is .rbrace && !mayDeclare ts then [t]
    else t :: declarationTokens (depthAfter depth t) ts

/-- Words that carry assembler labels or mark extensions. -/
def annotationWords : List String := ["__asm__", "__asm", "__extension__"]

/-- The tokens of an attribute at the front, if there is one. -/
def attributeTokens : List Token → List Token
  | [] => []
  | t :: ts =>
    if t.isKw .attributeSpec || t.isWordIn annotationWords then
      t :: if ts.head?.any (·.is .lparen) then groupTokens 0 ts else []
    else if t.is .lbracket && ts.head?.any (·.is .lbracket) then groupTokens 0 (t :: ts)
    else []

end Grammar

end HeaderDecl
