import HeaderDecl.Grammar.Nested

/-!
Names with scopes and template arguments.
-/

namespace HeaderDecl.Grammar

open HeaderDecl.Grammar.Parser

/-- Whether a token may begin a type that is a template argument. -/
def beginsType (t : Token) : Bool :=
  t.kind.isPrimitive || t.kind == .identifier || t.is .colonColon ||
    [Keyword.const, .volatile, .struct, .klass, .union, .enum, .typename].any t.isKw

/-- A type that is a whole template argument. -/
def typeArg (P : Nested) : Parser TypeExpr := do
  let ty ← P.type
  let t ← peek
  if [Punct.comma, .greater, .ellipsis].any t.is then return ty else failHere .expectedType

/-- A template argument. What does not read as a type is kept as text. -/
def templateArg (P : Nested) : Parser ArgExpr := do
  let ty ← if beginsType (← peek) then speculate (typeArg P) else pure none
  match ty with
  | some ty => return .type ty
  | none => match ← skipTo [.comma, .greater] with
    | [] => failHere .expectedType
    | ts => return .literal (spell ts)

/-- A template argument list in its angle brackets. -/
def templateArgs (P : Nested) : Parser (List ArgExpr) := do
  let _ ← consume .less
  let args ← commaSeparated .greater do
    let a ← templateArg P
    let _ ← take .ellipsis
    return a
  let _ ← consume .greater
  return args

def nameSegment (P : Nested) : Parser (NameSegment ArgExpr) := do
  let _ ← takeKw .template
  let name ← consumeKind .identifier
  let args ← if ← isNext .less then some <$> templateArgs P else pure none
  return ⟨name.text, args⟩

/-- Whether a name goes on after the segment that was read. -/
def segmentFollows : Parser Bool := do
  let t ← nth 1
  return (← isNext .colonColon) && (t.kind == .identifier || t.isKw .template)

/-- A name: segments with `::` between them. -/
def namePath (P : Nested) : Parser PathExpr := do
  let absolute ← take .colonColon
  let first ← nameSegment P
  let rest ← collect do
    if ← segmentFollows then
      let _ ← advance
      let s ← nameSegment P
      return ([s], true)
    else return ([], false)
  return match rest.getLast? with
    | none => ⟨absolute, [], first⟩
    | some last => ⟨absolute, first :: rest.dropLast, last⟩

/-- The name behind the keyword of a record or an enum, if there is one. -/
def tagName (P : Nested) : Parser (Option PathExpr) := do
  let t ← peek
  if t.kind == .identifier || t.is .colonColon then some <$> namePath P else return none

end HeaderDecl.Grammar
