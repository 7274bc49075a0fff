import HeaderDecl.Diagnostic
import HeaderDecl.Token.Basic

/-!
What parsing reports: why a declaration could not be read, and what became of it.
-/

namespace HeaderDecl.Grammar

/-- Why a declaration could not be read. -/
inductive Cause where
  | unexpected (actual expected : TokenKind)
  | unexpectedAny (actual : TokenKind) (expected : List TokenKind)
  | unexpectedToken (kind : TokenKind)
  | expectedType
  | expectedName
  /-- A name where a type has none. -/
  | unexpectedName
  | unsupportedMacro (name : String)
deriving DecidableEq, Repr

def Cause.message : Cause → String
  | unexpected actual expected => s!"expected token {expected.name}, but got {actual.name}"
  | unexpectedAny actual expected =>
    let names := ", ".intercalate (expected.map TokenKind.name)
    s!"expected one of [{names}], but got {actual.name}"
  | unexpectedToken kind => s!"unexpected token {kind.name}"
  | expectedType => "expected a type"
  | expectedName => "expected a name"
  | unexpectedName => "unexpected name in type"
  | unsupportedMacro name => s!"unsupported macro `{name}` in declaration position"

/-- What became of a part of the input that declares nothing. -/
inductive Finding where
  /-- A declaration that could not be read and was skipped, perhaps shortened. -/
  | skippedDeclaration (text : String) (cause : Cause)
  | unsupportedMacro (name : String)
  /-- A declaration that was read and has no place in the model. -/
  | unmodeled (what text : String)
deriving DecidableEq, Repr

namespace Finding

def message : Finding → String
  | skippedDeclaration text cause => s!"skipped declaration `{text}`: {cause.message}"
  | unsupportedMacro name => (Cause.unsupportedMacro name).message
  | unmodeled what text => s!"{what} `{text}` is not modeled"

def kind : Finding → DiagnosticKind
  | skippedDeclaration _ _ => .skippedDeclaration
  | unsupportedMacro _ => .unsupportedMacro
  | unmodeled _ _ => .unmodeledDeclaration

end Finding

/-- A finding and where it was made. -/
structure Report where
  finding : Finding
  span : Span
  loc : Location
deriving DecidableEq, Repr

namespace Report

def atToken (t : Token) (finding : Finding) : Report := ⟨finding, t.span, t.loc⟩

/-- The message with the location in front. -/
def located (r : Report) : String := s!"{r.loc.render}: {r.finding.message}"

def toDiagnostic (r : Report) : Diagnostic := .atLocation r.finding.kind r.loc r.finding.message

end Report

/-- Quoted text has at most this many characters. -/
def maxQuoted : Nat := 60

/-- The text of tokens, shortened if it is long. -/
def quoteTokens (ts : List Token) : String :=
  let text := (spell ts).toList
  if text.length ≤ maxQuoted then String.ofList text
  else String.ofList (text.take maxQuoted ++ ['.', '.', '.'])

end HeaderDecl.Grammar
