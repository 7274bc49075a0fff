import HeaderDecl.Grammar.Declared

/-!
The parsers that the grammar applies within brackets, within angle brackets and behind keywords. Each
part of the grammar is written over them, so that nesting is bounded in one place.
-/

namespace HeaderDecl.Grammar

/-- The parsers of what may nest. Each is applied only after a token has been read. -/
structure Nested where
  type : Parser TypeExpr
  specifiers : Parser Specifiers
  declarator : Parser Declarator
  templateParams : Parser (List (TemplateParam TypeExpr))
  member : MemberContext → Parser Declared

/-- Nesting that goes on for ever. -/
def Nested.nothing : Nested where
  type := .stop .endless
  specifiers := .stop .endless
  declarator := .stop .endless
  templateParams := .stop .endless
  member _ := .stop .endless

namespace Parser

/-- The type that specifiers name, or a failure at what follows them. -/
def requireType (specs : Specifiers) : Parser TypeExpr :=
  match specs.ty with
  | some ty => pure ty
  | none => failHere .expectedType

/-- The tokens up to one of some punctuators as a value. There has to be one. -/
def value (stops : List Punct) : Parser Value := do
  let t ← peek
  match ← skipTo stops with
  | [] => failAt t (.unexpectedToken t.kind)
  | ts => return valueOf ts

/-- The text up to the next comma or the end of a list in angle brackets. -/
def literal : Parser String := do
  return spell (← skipTo [.comma, .greater])

/-- An identifier, if one comes next. -/
def takeName : Parser (Option String) := do
  if ← isNextIdentifier then return some (← advance).text else return none

/-- Fails at a name that can only be a macro. With its arguments it is the invocation of one. -/
def unknownMacro {α : Type} : Parser α := do
  let start ← here
  let name ← advance
  if ← isNext .lparen then skipGroup
  let after ← here
  failWith { cause := .unsupportedMacro name.text, site := name, invocation := some ⟨start, after⟩ }

end Parser

end HeaderDecl.Grammar
